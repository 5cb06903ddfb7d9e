import Mathlib.Data.Nat.Notation
import Mathlib.Tactic.IntervalCases

/-! # Headers on the wire

`net_port_header_t` is four words, sent in network byte order: `transfer_out` swaps the bytes of each and
the memory of the header is copied into the message; `transfer_in` swaps them back.

* `memory_transferOut`: what is sent is the big-endian header.
* `header_transfer`: what is received is what was sent. -/

namespace StNvs.Server.Proto

def hmcmdOpenVideo : UInt32 := 0x101

def hmcmdRecvVideo : UInt32 := 0x102

def hmcmdHeartbeat : UInt32 := 0xA01

/-- `net_port_header_t`. -/
structure Header where
  cmdno : UInt32
  bodylen : UInt32
  errcode : UInt32
  serialid : UInt32
  deriving DecidableEq, Repr

/-- `sizeof(net_port_header_t)`. -/
def headerSize : ℕ := 16

/-! ### Words -/

/-- `mcr_ntoh_32`. -/
def mcrNtoh32 (v : UInt32) : UInt32 :=
  ((v &&& 0xFF) <<< 24) ||| ((v &&& 0xFF00) <<< 8) ||| ((v &&& 0xFF0000) >>> 8) |||
    ((v &&& 0xFF000000) >>> 24)

/-- A word in memory, least significant byte first. -/
def wordMemory (v : UInt32) : List UInt8 :=
  [v.toUInt8, (v >>> 8).toUInt8, (v >>> 16).toUInt8, (v >>> 24).toUInt8]

/-- The word that four bytes of memory hold. -/
def memoryWord (a b c d : UInt8) : UInt32 :=
  a.toUInt32 ||| b.toUInt32 <<< 8 ||| c.toUInt32 <<< 16 ||| d.toUInt32 <<< 24

/-- A word in network byte order. -/
def bigEndian (v : UInt32) : List UInt8 :=
  [(v >>> 24).toUInt8, (v >>> 16).toUInt8, (v >>> 8).toUInt8, v.toUInt8]

theorem mcrNtoh32_mcrNtoh32 (v : UInt32) : mcrNtoh32 (mcrNtoh32 v) = v := by
  refine UInt32.eq_of_toBitVec_eq (BitVec.eq_of_getLsbD_eq fun i hi => ?_)
  simp only [mcrNtoh32]
  interval_cases i <;> simp

theorem memoryWord_wordMemory (v : UInt32) :
    memoryWord v.toUInt8 (v >>> 8).toUInt8 (v >>> 16).toUInt8 (v >>> 24).toUInt8 = v := by
  refine UInt32.eq_of_toBitVec_eq (BitVec.eq_of_getLsbD_eq fun i hi => ?_)
  simp only [memoryWord]
  interval_cases i <;> simp [-UInt32.toUInt32_toUInt8]

/-- A byte of the swapped word is the opposite byte of the word. -/
theorem mcrNtoh32_byte (v : UInt32) :
    (mcrNtoh32 v).toUInt8 = (v >>> 24).toUInt8 ∧ (mcrNtoh32 v >>> 8).toUInt8 = (v >>> 16).toUInt8 ∧
      (mcrNtoh32 v >>> 16).toUInt8 = (v >>> 8).toUInt8 ∧ (mcrNtoh32 v >>> 24).toUInt8 = v.toUInt8 := by
  refine ⟨?_, ?_, ?_, ?_⟩ <;> refine UInt8.eq_of_toBitVec_eq (BitVec.eq_of_getLsbD_eq fun i hi => ?_) <;>
    simp only [mcrNtoh32] <;> interval_cases i <;> simp

/-- **Network byte order.** -/
theorem wordMemory_mcrNtoh32 (v : UInt32) : wordMemory (mcrNtoh32 v) = bigEndian v := by
  obtain ⟨h0, h1, h2, h3⟩ := mcrNtoh32_byte v
  rw [wordMemory, h0, h1, h2, h3, bigEndian]

/-! ### Headers -/

/-- `transfer_in`. -/
def transferIn (hdr : Header) : Header :=
  ⟨mcrNtoh32 hdr.cmdno, mcrNtoh32 hdr.bodylen, mcrNtoh32 hdr.errcode, mcrNtoh32 hdr.serialid⟩

/-- `transfer_out`. -/
def transferOut (hdr : Header) : Header := transferIn hdr

/-- The memory of a header. -/
def memory (hdr : Header) : List UInt8 :=
  wordMemory hdr.cmdno ++ wordMemory hdr.bodylen ++ wordMemory hdr.errcode ++ wordMemory hdr.serialid

/-- The header in 16 bytes of memory. -/
def ofMemory : List UInt8 → Header
  | [a, b, c, d, a', b', c', d', a'', b'', c'', d'', a₃, b₃, c₃, d₃] =>
    ⟨memoryWord a b c d, memoryWord a' b' c' d', memoryWord a'' b'' c'' d'', memoryWord a₃ b₃ c₃ d₃⟩
  | _ => ⟨0, 0, 0, 0⟩

theorem memory_length (hdr : Header) : (memory hdr).length = headerSize := rfl

theorem ofMemory_memory (hdr : Header) : ofMemory (memory hdr) = hdr := by
  simp only [memory, wordMemory, List.cons_append, List.nil_append, ofMemory, memoryWord_wordMemory]

/-- What is sent is the big-endian header. -/
theorem memory_transferOut (hdr : Header) : memory (transferOut hdr) =
    bigEndian hdr.cmdno ++ bigEndian hdr.bodylen ++ bigEndian hdr.errcode ++ bigEndian hdr.serialid := by
  simp only [memory, transferOut, transferIn, wordMemory_mcrNtoh32]

/-- **Headers come through.** -/
theorem header_transfer (hdr : Header) : transferIn (ofMemory (memory (transferOut hdr))) = hdr := by
  rw [ofMemory_memory]
  simp only [transferOut, transferIn, mcrNtoh32_mcrNtoh32]

end StNvs.Server.Proto
