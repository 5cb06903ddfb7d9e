import StNvs.Io.ReadFully
import StNvs.Server.Model

/-! # The handshake of a session

`handle_session` has the handshake read by `read_auth_type_wrap`, takes the type and the serial number
from it, and hands the connection to the proxy of a device or of a client, or closes it. How the reads and
the write go is up to the peer, and `_device_map` may be another one after the write. What
`handle_session` leaves behind is a `Trace`; `none` is a call that has not returned, since it is waiting
for the peer or has gone wrong.

* `session_kept_iff`: a descriptor is closed once or handed on, and the message is freed, but for a device
  that is logged in already.
* `buffers_iff`: the buffers are large enough, but for a length of `2 ^ 32 - 1` and for long serial
  numbers. -/

namespace StNvs.Server.Handshake

open StNvs.Io.ReadFully StNvs.Server.Proto
open StNvs.Server.Model.Sys (quoted)

/-! ### The message -/

/-- What `FindElement` and `GetText` give: no such element, one without a text, or a text. -/
inductive Field
  | missing
  | empty
  | text (s : String)
  deriving DecidableEq, Repr

/-- `GetValueText`: `NULL` if there is no such element; `strdup(NULL)` if it has no text. -/
def Field.getValueText : Field → Option (Option String)
  | .missing => some none
  | .empty => none
  | .text s => some (some s)

/-- The elements that are looked for: `Type`, `SN` and `Sn`. -/
structure Fields where
  type : Field
  snUpper : Field
  snLower : Field
  deriving DecidableEq, Repr

/-- How the reads of the header and of the body go, and `st_write` of the reply if it has returned: whether
it has written everything. -/
structure Peer where
  head : List Read
  body : List Read
  written : Option Bool

/-- The header after `transfer_in`: 12 of its 16 bytes are read, the others are 0. -/
def header (p : Peer) : Header :=
  transferIn (ofMemory ((List.range 16).map (stReadFully 12 (fun _ => 0) p.head).mem))

/-- The body, read into memory that `memset` has cleared. -/
def body (p : Peer) : State := stReadFully (header p).bodylen.toNat (fun _ => 0) p.body

/-- `read_auth_type_wrap`: `some none` if it has closed the connection, or the C string in the buffer. With
a length of `2 ^ 32 - 1` the buffer has no room for what is stored. -/
def readAuthTypeWrap (p : Peer) : Option (Option (List UInt8)) := do
  let r ← (stReadFully 12 (fun _ => 0) p.head).ret
  if r < 0 then some none
  else if (header p).bodylen + 1 = 0 then none
  else
    let r ← (body p).ret
    if r < 0 then some none
    else some (some (((List.range (header p).bodylen.toNat).map (body p).mem).takeWhile (· ≠ 0)))

/-- The type and the serial number. -/
def texts (f : Fields) : Option (Option String × Option String) := do
  match ← f.type.getValueText with
  | none => some (none, none)
  | some type =>
    match ← f.snUpper.getValueText with
    | some sn => some (some type, some sn)
    | none => (f.snLower.getValueText).map fun sn => (some type, sn)

/-! ### The session -/

/-- An entry of `_device_map`: the proxy, and `is_video_open`. -/
structure Device where
  proxy : ℕ
  videoOpen : Bool
  deriving DecidableEq, Repr

/-- Whose `run` the descriptor goes to. -/
inductive Proxy
  | pu (proxy : ℕ)
  | cu
  deriving DecidableEq, Repr

/-- What is done with the descriptor and the buffer: the number of `st_netfd_close`, the proxies it is
handed to, and, if there is a buffer, whether it is freed. -/
structure Trace where
  closes : ℕ
  handed : List Proxy
  freed : Option Bool
  deriving DecidableEq, Repr

/-- `st_netfd_close(cli_fd); free(ptr); return NULL;`. -/
def dropped : Trace := ⟨1, [], some true⟩

variable (map map' : String → Option Device) (parse : List UInt8 → Fields) (p : Peer)

/-- A device: the result of `write_auth_wrap` is not looked at, and `operator[]` gives a null pointer for
an entry that is gone. -/
def login (sn : String) : Option Trace :=
  match map sn with
  -- `return NULL;`
  | some _ => some ⟨0, [], some false⟩
  | none => do
    let _ ← p.written
    (map' sn).map fun d => ⟨0, [.pu d.proxy], some true⟩

/-- A client. -/
def client (sn : String) : Option Trace :=
  match map sn with
  | none => some dropped
  | some d =>
    if d.videoOpen then p.written.map fun x => if x then ⟨0, [.cu], some true⟩ else dropped
    else some dropped

/-- `handle_session` with the texts of the handshake; `sn_tmp` has 20 characters. -/
def session (type sn : Option String) : Option Trace :=
  match type with
  | none => some dropped
  | some type =>
    if type = "\"10\"" then sn.bind (login map map' p)
    else if 20 ≤ (quoted sn).utf8ByteSize then none
    else if type = "10" then login map map' p (quoted sn)
    else client map p (quoted sn)

/-- `handle_session`. -/
def handleSession : Option Trace := do
  match ← readAuthTypeWrap p with
  | none => some ⟨1, [], none⟩
  | some ptr => (texts (parse ptr)).bind fun t => session map map' p t.1 t.2

/-! ### The descriptor -/

/-- The descriptor is closed once or handed to one proxy, and the buffer is freed if there is one. -/
structure Kept (t : Trace) : Prop where
  descriptor : (t.closes = 1 ∧ t.handed = []) ∨ (t.closes = 0 ∧ ∃ x, t.handed = [x])
  buffer : t.freed ≠ some false

/-- The serial number of a device that logs in. -/
def deviceKey (type sn : Option String) : Option String :=
  if type = some "\"10\"" then sn
  else if type = some "10" ∧ (quoted sn).utf8ByteSize < 20 then some (quoted sn)
  else none

/-- The serial number of a device that logs in with this handshake. -/
def loginKey : Option String := do
  let ptr ← (readAuthTypeWrap p).join
  let t ← texts (parse ptr)
  deviceKey t.1 t.2

variable {map map' : String → Option Device} {parse : List UInt8 → Fields} {p : Peer} {t : Trace}
  {type sn : Option String} {k : String}

theorem kept_dropped : Kept dropped := ⟨.inl ⟨rfl, rfl⟩, nofun⟩

theorem kept_login (h : login map map' p k = some t) : Kept t ↔ map k = none := by
  unfold login at h
  split at h
  · rename_i d hd
    obtain rfl := Option.some.inj h
    rw [hd]
    exact ⟨fun hk => absurd rfl hk.buffer, nofun⟩
  · rename_i hd
    obtain ⟨x, -, h⟩ := Option.bind_eq_some_iff.1 h
    obtain ⟨d, -, rfl⟩ := Option.map_eq_some_iff.1 h
    exact ⟨fun _ => hd, fun _ => ⟨.inr ⟨rfl, _, rfl⟩, nofun⟩⟩

theorem kept_client (h : client map p k = some t) : Kept t := by
  unfold client at h
  split at h
  · obtain rfl := Option.some.inj h
    exact kept_dropped
  · split_ifs at h
    · obtain ⟨x, -, rfl⟩ := Option.map_eq_some_iff.1 h
      cases x with
      | true => exact ⟨.inr ⟨rfl, _, rfl⟩, nofun⟩
      | false => exact kept_dropped
    · obtain rfl := Option.some.inj h
      exact kept_dropped

/-- A session does what it should, but for a device that is logged in already. -/
theorem kept_session (h : session map map' p type sn = some t) :
    Kept t ↔ ∀ k ∈ deviceKey type sn, map k = none := by
  unfold session at h
  split at h
  · obtain rfl := Option.some.inj h
    exact ⟨fun _ k hk => by simp [deviceKey] at hk, fun _ => kept_dropped⟩
  · rename_i type
    unfold deviceKey
    simp only [Option.some.injEq]
    split_ifs at h with h1 h2 h3
    · obtain ⟨k, rfl, h⟩ := Option.bind_eq_some_iff.1 h
      simpa [h1] using kept_login h
    · simpa [h1, h3, Nat.not_le.1 h2] using kept_login h
    · simpa [h1, h3] using kept_client h

/-- The second login of a device. -/
theorem session_duplicate {d : Device} (hk : k ∈ deviceKey type sn) (hd : map k = some d) :
    session map map' p type sn = some ⟨0, [], some false⟩ := by
  unfold deviceKey at hk
  split_ifs at hk with h1 h2
  · obtain rfl : sn = some k := hk
    simp [session, h1, login, hd]
  · obtain rfl : quoted sn = k := Option.some.inj hk
    simp [session, h2, login, hd, Nat.not_le.2 h2.2]
  · cases hk

/-- **The descriptor and the buffer are kept**, but for a device whose serial number is in `_device_map`
already. -/
theorem session_kept_iff (map map' : String → Option Device) (parse : List UInt8 → Fields) (p : Peer) :
    (∀ t, handleSession map map' parse p = some t → Kept t) ↔ ∀ k ∈ loginKey parse p, map k = none := by
  unfold handleSession loginKey
  cases hw : readAuthTypeWrap p with
  | none => simp
  | some w =>
    cases w with
    | none => simpa using (⟨.inl ⟨rfl, rfl⟩, nofun⟩ : Kept ⟨1, [], none⟩)
    | some ptr =>
      simp only [Option.bind_eq_bind, Option.bind_some, Option.join_some]
      cases ht : texts (parse ptr) with
      | none => simp
      | some x =>
        simp only [Option.bind_some]
        refine ⟨fun h k hk => ?_, fun h t he => (kept_session he).2 h⟩
        by_contra hne
        obtain ⟨d, hd⟩ := Option.ne_none_iff_exists'.1 hne
        have he : session map map' p x.1 x.2 = some ⟨0, [], some false⟩ := session_duplicate hk hd
        exact hne ((kept_session he).1 (h _ he) k hk)

/-- A device logs in over a connection that is read in full. -/
def device : Peer where
  head := [.data 0 [0, 0, 0, 0, 0, 0, 1, 0, 0, 0, 0]]
  body := [.data 65 []]
  written := some true

/-- **A device that logs in a second time** leaves its connection open and its message in memory. -/
theorem session_lost : ¬ ∀ (map map' : String → Option Device) (parse : List UInt8 → Fields) (p : Peer) t,
    handleSession map map' parse p = some t → Kept t := fun h =>
  (h (fun _ => some ⟨0, false⟩) (fun _ => none) (fun _ => ⟨.text "10", .text "7", .missing⟩) device
    ⟨0, [], some false⟩ (by decide +kernel)).buffer rfl

/-! ### The buffers -/

/-- `malloc(hdr.bodylen+1)`, in 32 bits. -/
def allocated (hdr : Header) : ℕ := (hdr.bodylen + 1).toNat

/-- How far from `ptr` the buffer is written: by `memset`, by the reads, and by the terminator if they have
not failed. -/
def extent (hdr : Header) (rs : List Read) : ℕ :=
  let s := stReadFully hdr.bodylen.toNat (fun _ => 0) rs
  max (hdr.bodylen + 1).toNat (max s.chunks.flatten.length
    (if ∃ r ∈ s.ret, 0 ≤ r then hdr.bodylen.toNat + 1 else 0))

/-- The serial number that `handle_session` puts in quotes. -/
def quotedSn (type sn : Option String) : Option String :=
  if type.isSome ∧ type ≠ some "\"10\"" then sn else none

/-- The buffers of the handshake are large enough: `ptr` for what is stored there, however the reads go,
and `sn_tmp` for the key and its terminator. -/
structure Roomy (hdr : Header) (type sn : Option String) : Prop where
  ptr : ∀ rs, extent hdr rs ≤ allocated hdr
  key : ∀ x ∈ quotedSn type sn, (quoted (some x)).utf8ByteSize + 1 ≤ 20

variable {hdr : Header}

theorem bodylen_succ (h : hdr.bodylen ≠ 0xFFFFFFFF) : (hdr.bodylen + 1).toNat = hdr.bodylen.toNat + 1 := by
  have hlt : hdr.bodylen.toNat < 2 ^ 32 := hdr.bodylen.toNat_lt
  have hne : hdr.bodylen.toNat ≠ 4294967295 := fun he => h (UInt32.toNat_inj.1 he)
  rw [UInt32.toNat_add, UInt32.toNat_one]
  omega

theorem extent_le (h : hdr.bodylen ≠ 0xFFFFFFFF) (rs : List Read) : extent hdr rs ≤ allocated hdr := by
  have hlt : hdr.bodylen.toNat < 2 ^ 32 := hdr.bodylen.toNat_lt
  have hc : (stReadFully hdr.bodylen.toNat (fun _ => 0) rs).chunks.flatten.length ≤ hdr.bodylen.toNat :=
    chunks_length_le hlt
  unfold extent allocated
  rw [bodylen_succ h]
  dsimp only
  split_ifs <;> omega

/-- With the largest length nothing is allocated, and the terminator is stored all the same. -/
theorem extent_wrapped (h : hdr.bodylen = 0xFFFFFFFF) : allocated hdr < extent hdr [.eof] := by
  have hret : (stReadFully hdr.bodylen.toNat (fun _ => 0) [.eof]).ret = some 0 := by
    rw [h]
    decide +kernel
  unfold allocated extent
  rw [h, ← h]
  dsimp only
  rw [hret, if_pos ⟨0, rfl, le_rfl⟩, h]
  decide

theorem quoted_size (x : String) : (quoted (some x)).utf8ByteSize = x.utf8ByteSize + 2 := by
  have h1 : ("\"" : String).utf8ByteSize = 1 := by decide
  simp only [quoted, Option.getD_some, String.utf8ByteSize_append, h1]
  omega

/-- **The buffers are large enough** just when the length is not the largest and the serial number that is
put in quotes has no more than 17 bytes. -/
theorem buffers_iff (hdr : Header) (type sn : Option String) :
    Roomy hdr type sn ↔ hdr.bodylen ≠ 0xFFFFFFFF ∧ ∀ x ∈ quotedSn type sn, x.utf8ByteSize ≤ 17 := by
  constructor
  · intro h
    refine ⟨fun he => ?_, fun x hx => ?_⟩
    · exact absurd (h.ptr [.eof]) (Nat.not_le.2 (extent_wrapped he))
    · have := h.key x hx
      rw [quoted_size] at this
      omega
  · rintro ⟨hne, hsn⟩
    refine ⟨extent_le hne, fun x hx => ?_⟩
    have := hsn x hx
    rw [quoted_size]
    omega

/-- **A body of `2 ^ 32 - 1` bytes** gets a buffer of none, and a serial number of 18 bytes does not fit. -/
theorem buffers_overrun : ¬ ∀ (hdr : Header) (type sn : Option String), Roomy hdr type sn := fun h =>
  absurd ((h ⟨0, 0xFFFFFFFF, 0, 0⟩ none none).ptr [.eof]) (Nat.not_le.2 (extent_wrapped rfl))

end StNvs.Server.Handshake
