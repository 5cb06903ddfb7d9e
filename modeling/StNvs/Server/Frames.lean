import StNvs.Lib.Runs
import StNvs.Server.Proto
import Mathlib.Data.List.Basic
import Mathlib.Algebra.BigOperators.Group.List.Basic

/-! # The receive loops and their stream

`handle_recv` of a device and of a client read a header with one `st_read` and the body with
`st_read_fully`. The stream is what `handle_send` wrote; a run is a sequence of reads, each of which
returns at least one byte and at most what was asked for. The connection stays up, and so does the
device of a client.

* `obtained_of_whole`: when every header comes in one read, the loop obtains the messages, but the one of a
  device cuts the commands of those with a body (`store_eq_iff`).
* `volume_apply`: a header that does not shifts the rest of the stream.
* `frames_iff`: the two together. -/

namespace StNvs.Server.Frames

open StNvs.Lib.Runs StNvs.Server.Proto

/-! ### The loops -/

/-- The loop of `pu_proxy_t` and that of `cu_proxy_t`. -/
inductive Loop
  | pu | cu
  deriving DecidableEq, Repr

/-- The header that goes with a body: the loop of a device keeps the low half of the command only. -/
def Loop.bodyHeader : Loop → Header → Header
  | .pu, hdr => { hdr with cmdno := hdr.cmdno &&& 0xFFFF }
  | .cu, hdr => hdr

/-- A message that can be sent: its header says how long it is. -/
structure Frame where
  hdr : Header
  body : List UInt8
  fits : body.length = hdr.bodylen.toNat
  deriving DecidableEq

/-- What `handle_send` writes. -/
def Frame.wire (f : Frame) : List UInt8 := memory (transferOut f.hdr) ++ f.body

/-- The message as a loop obtains it. -/
def Frame.store (loop : Loop) (f : Frame) : Header × List UInt8 :=
  (if f.hdr.bodylen = 0 then f.hdr else loop.bodyHeader f.hdr, f.body)

/-- Where the loop is: about to read a header, in `st_read_fully` with the bytes it has, or left: because
the body is too long, or after a command that it does not know. -/
inductive Phase
  | header
  | body (hdr : Header) (got : List UInt8)
  | refused
  | ended
  deriving DecidableEq, Repr

/-- The stream yet to be read, the loop, and the messages it has obtained. -/
structure Sys where
  loop : Loop
  stream : List UInt8
  phase : Phase
  obtained : List (Header × List UInt8)
  deriving DecidableEq, Repr

/-- An `st_read` that returns `size` bytes; `rest` is what stands in the header after them. -/
structure Read where
  size : ℕ
  rest : List UInt8
  deriving DecidableEq, Repr

namespace Sys

/-- A message is complete. -/
def onMessage (s : Sys) (hdr : Header) (body : List UInt8) : Sys :=
  { s with
    obtained := s.obtained ++ [(hdr, body)]
    phase :=
      match s.loop with
      | .pu => .header
      | .cu => if hdr.cmdno = hmcmdHeartbeat ∨ hdr.cmdno = hmcmdOpenVideo then .header else .ended }

/-- A header was read. -/
def onHeader (s : Sys) (hdr : Header) : Sys :=
  if hdr.bodylen = 0 then s.onMessage hdr []
  else if s.loop = .pu ∧ 1024 * 1024 < hdr.bodylen then { s with phase := .refused }
  else { s with phase := .body hdr [] }

/-- Bytes of the body were read. -/
def onBody (s : Sys) (hdr : Header) (got : List UInt8) : Sys :=
  if got.length = hdr.bodylen.toNat then s.onMessage (s.loop.bodyHeader hdr) got
  else { s with phase := .body hdr got }

/-- `handle_recv` of a device clears its header before it reads. -/
def Enabled (s : Sys) (r : Read) : Prop :=
  match s.phase with
  | .header => 1 ≤ r.size ∧ r.size ≤ headerSize ∧ r.size ≤ s.stream.length ∧
      r.rest.length = headerSize - r.size ∧ (s.loop = .pu → r.rest = List.replicate (headerSize - r.size) 0)
  | .body hdr got => 1 ≤ r.size ∧ r.size ≤ hdr.bodylen.toNat - got.length ∧ r.size ≤ s.stream.length
  | .refused | .ended => False

def apply (s : Sys) (r : Read) : Sys :=
  let s' := { s with stream := s.stream.drop r.size }
  match s.phase with
  | .header => s'.onHeader (transferIn (ofMemory (s.stream.take r.size ++ r.rest)))
  | .body hdr got => s'.onBody hdr (got ++ s.stream.take r.size)
  | .refused | .ended => s

/-- The messages are in the stream. -/
def start (loop : Loop) (msgs : List Frame) : Sys := ⟨loop, msgs.flatMap Frame.wire, .header, []⟩

instance decidableEnabled (s : Sys) (r : Read) : Decidable (s.Enabled r) := by
  unfold Enabled
  split <;> infer_instance

end Sys

def machine (loop : Loop) (msgs : List Frame) : Machine Sys Read where
  init s := s = Sys.start loop msgs
  enabled := Sys.Enabled
  apply := Sys.apply

instance decidableMachine {loop : Loop} {msgs : List Frame} (s : Sys) (r : Read) :
    Decidable ((machine loop msgs).enabled s r) := Sys.decidableEnabled s r

/-! ### What is asked of them -/

/-- There is nothing more to read. -/
def Complete (s : Sys) : Prop := s.stream = [] ∨ s.phase = .refused ∨ s.phase = .ended

/-- The loop has read the stream and obtained these messages, and nothing else. -/
def Obtained (msgs : List (Header × List UInt8)) (s : Sys) : Prop :=
  s.obtained = msgs ∧ s.stream = [] ∧ (s.phase = .header ∨ s.phase = .ended)

/-- It has obtained the messages that were sent. -/
def Received (msgs : List Frame) (s : Sys) : Prop := Obtained (msgs.map fun f => (f.hdr, f.body)) s

/-- A header comes in one read. -/
def Whole (s : Sys) (r : Read) : Prop := s.phase = .header → r.size = headerSize

/-- A command after which `handle_recv` goes on. -/
def Known (loop : Loop) (hdr : Header) : Prop :=
  loop = .cu → hdr.cmdno = hmcmdHeartbeat ∨ hdr.cmdno = hmcmdOpenVideo

/-- A message that a device sends with a body has a command of 16 bits. -/
def Plain (loop : Loop) (f : Frame) : Prop := loop = .pu → f.body ≠ [] → f.hdr.cmdno ≤ 0xFFFF

instance decidableWhole (s : Sys) (r : Read) : Decidable (Whole s r) :=
  inferInstanceAs (Decidable (_ → _))

instance decidableComplete (s : Sys) : Decidable (Complete s) := inferInstanceAs (Decidable (_ ∨ _))

instance decidableReceived (msgs : List Frame) (s : Sys) : Decidable (Received msgs s) :=
  inferInstanceAs (Decidable (_ ∧ _))

instance decidableKnown (loop : Loop) (hdr : Header) : Decidable (Known loop hdr) :=
  inferInstanceAs (Decidable (_ → _))

instance decidablePlain (loop : Loop) (f : Frame) : Decidable (Plain loop f) :=
  inferInstanceAs (Decidable (_ → _))

variable {loop : Loop} {msgs : List Frame} {reads : List Read} {s : Sys} {r : Read}

/-! ### The command of a message -/

theorem bodylen_eq_zero {f : Frame} : f.hdr.bodylen = 0 ↔ f.body = [] := by
  rw [← List.length_eq_zero_iff, f.fits, ← UInt32.toNat_inj]
  rfl

theorem and_eq_self_iff (x : UInt32) : x &&& 0xFFFF = x ↔ x ≤ 0xFFFF := by
  have hand : (x &&& 0xFFFF).toNat = x.toNat % 2 ^ 16 := by
    rw [UInt32.toNat_and]
    exact Nat.and_two_pow_sub_one_eq_mod x.toNat 16
  rw [← UInt32.toNat_inj, hand, UInt32.le_iff_toNat_le]
  change x.toNat % 2 ^ 16 = x.toNat ↔ x.toNat ≤ 65535
  omega

/-- **The loop of a device cuts the command** of a message with a body to 16 bits. -/
theorem store_eq_iff {f : Frame} : f.store loop = (f.hdr, f.body) ↔ Plain loop f := by
  unfold Frame.store Plain
  rw [Prod.mk.injEq, eq_self_iff_true, and_true, Ne, ← bodylen_eq_zero]
  cases loop with
  | cu => simp [Loop.bodyHeader]
  | pu =>
    split_ifs with h0
    · simp [h0]
    · have hcut : Loop.pu.bodyHeader f.hdr = f.hdr ↔ f.hdr.cmdno &&& 0xFFFF = f.hdr.cmdno := by
        cases f.hdr
        simp [Loop.bodyHeader]
      rw [hcut, and_eq_self_iff]
      simp [h0]

/-! ### Headers that come in one read -/

/-- The messages obtained so far are `done`, the others are still in the stream. -/
def Sound (loop : Loop) (msgs : List Frame) (s : Sys) : Prop :=
  s.loop = loop ∧ ∃ done rest, msgs = done ++ rest ∧ s.obtained = done.map (Frame.store loop) ∧
    match s.phase with
    | .header => s.stream = rest.flatMap Frame.wire
    | .body hdr got => ∃ f rest' left, rest = f :: rest' ∧ f.hdr = hdr ∧ f.body = got ++ left ∧ left ≠ [] ∧
        s.stream = left ++ rest'.flatMap Frame.wire
    | .refused => False
    | .ended => s.stream = rest.flatMap Frame.wire ∧ ∃ done' f, done = done' ++ [f] ∧ ¬ Known loop f.hdr

theorem sound_onMessage {done rest : List Frame} {f : Frame} (hl : s.loop = loop)
    (hm : msgs = done ++ f :: rest) (ho : s.obtained = done.map (Frame.store loop))
    (hs : s.stream = rest.flatMap Frame.wire) :
    Sound loop msgs (s.onMessage (f.store loop).1 (f.store loop).2) := by
  refine ⟨hl, done ++ [f], rest, by simp [hm], by simp [Sys.onMessage, ho], ?_⟩
  cases loop with
  | pu => simpa [Sys.onMessage, hl] using hs
  | cu =>
    have hstore : (f.store .cu).1 = f.hdr := by simp [Frame.store, Loop.bodyHeader]
    rw [hstore]
    by_cases hk : f.hdr.cmdno = hmcmdHeartbeat ∨ f.hdr.cmdno = hmcmdOpenVideo
    · simpa [Sys.onMessage, hl, hk] using hs
    · simp only [Sys.onMessage, hl, hk, if_false]
      exact ⟨hs, done, f, rfl, fun h => hk (h rfl)⟩

/-- **One read** of a header that comes whole, or of a part of a body. -/
theorem sound_apply (hmax : ∀ f ∈ msgs, f.hdr.bodylen ≤ 1024 * 1024) (h : Sound loop msgs s)
    (he : s.Enabled r) (hw : Whole s r) : Sound loop msgs (s.apply r) := by
  obtain ⟨hl, done, rest, hm, ho, hp⟩ := h
  unfold Sys.Enabled at he
  unfold Sys.apply
  cases hph : s.phase with
  | header =>
    simp only [hph] at he hp ⊢
    obtain ⟨-, -, hlen, hrest, -⟩ := he
    have hsize := hw hph
    obtain ⟨k, j⟩ := r
    obtain rfl : k = headerSize := hsize
    obtain rfl : j = [] := List.length_eq_zero_iff.1 (by simpa using hrest)
    cases rest with
    | nil => simp [hp, headerSize] at hlen
    | cons f rest =>
      have hstream : s.stream = memory (transferOut f.hdr) ++ (f.body ++ rest.flatMap Frame.wire) := by
        rw [hp, List.flatMap_cons, Frame.wire, List.append_assoc]
      rw [hstream, List.take_left' (memory_length _), List.drop_left' (memory_length _), List.append_nil,
        header_transfer]
      unfold Sys.onHeader
      split_ifs with h0 h1
      · have hb : f.body = [] := bodylen_eq_zero.1 h0
        have := sound_onMessage (s := { s with stream := rest.flatMap Frame.wire }) hl hm ho rfl
        simpa [Frame.store, h0, hb, hph] using this
      · exact absurd (hmax f (by simp [hm])) (UInt32.not_le.2 h1.2)
      · refine ⟨hl, done, f :: rest, hm, ho, f, rest, f.body, rfl, rfl, rfl, fun hb => h0 ?_, rfl⟩
        exact bodylen_eq_zero.2 hb
  | body hdr got =>
    simp only [hph] at he hp ⊢
    obtain ⟨f, rest', left, rfl, rfl, hb, hne, hs⟩ := hp
    have hleft : r.size ≤ left.length := by
      have hfit := f.fits
      rw [hb, List.length_append] at hfit
      omega
    have htake : s.stream.take r.size = left.take r.size := by rw [hs, List.take_append_of_le_length hleft]
    have hdrop : s.stream.drop r.size = left.drop r.size ++ rest'.flatMap Frame.wire := by
      rw [hs, List.drop_append_of_le_length hleft]
    rw [htake, hdrop]
    unfold Sys.onBody
    have hfit := f.fits
    rw [hb, List.length_append] at hfit
    split_ifs with hfull
    · have hall : left.length ≤ r.size := by
        rw [List.length_append, List.length_take] at hfull
        omega
      have h0 : f.hdr.bodylen ≠ 0 := by
        rw [Ne, bodylen_eq_zero, hb]
        exact fun h => hne (List.append_eq_nil_iff.1 h).2
      have := sound_onMessage (s := { s with stream := rest'.flatMap Frame.wire }) hl hm ho rfl
      simpa [Frame.store, h0, List.take_of_length_le hall, List.drop_of_length_le hall, ← hb, hph, hl]
        using this
    · refine ⟨hl, done, f :: rest', hm, ho, f, rest', left.drop r.size, rfl, rfl, ?_, ?_, rfl⟩
      · rw [hb, List.append_assoc, List.take_append_drop]
      · intro hd
        have hall := List.drop_eq_nil_iff.1 hd
        rw [List.length_append, List.length_take, Nat.min_eq_right hall] at hfull
        exact hfull hfit
  | refused => simp [hph] at he
  | ended => simp [hph] at he

theorem sound_foldl (hmax : ∀ f ∈ msgs, f.hdr.bodylen ≤ 1024 * 1024) (h : Sound loop msgs s)
    (he : Enables (machine loop msgs) Whole s reads) :
    Sound loop msgs (reads.foldl (machine loop msgs).apply s) := by
  induction reads generalizing s with
  | nil => exact h
  | cons r reads ih => exact ih (sound_apply hmax h he.1.1 he.1.2) he.2

/-- **Whole headers**: the loop obtains the messages. -/
theorem obtained_of_whole (h : Sound loop msgs s) (hc : Complete s)
    (hk : ∀ f ∈ msgs.dropLast, Known loop f.hdr) : Obtained (msgs.map (Frame.store loop)) s := by
  obtain ⟨-, done, rest, rfl, ho, hp⟩ := h
  cases hph : s.phase with
  | header =>
    simp only [hph] at hp
    have hs : s.stream = [] := by simpa [Complete, hph] using hc
    cases rest with
    | nil => exact ⟨by simpa using ho, hs, .inl hph⟩
    | cons f rest =>
      have := congrArg List.length (hp.symm.trans hs)
      simp [Frame.wire, memory_length, headerSize] at this
  | body hdr got =>
    simp only [hph] at hp
    obtain ⟨f, rest', left, -, -, -, hne, hs⟩ := hp
    have hs' : s.stream = [] := by simpa [Complete, hph] using hc
    exact absurd (List.append_eq_nil_iff.1 (hs.symm.trans hs')).1 hne
  | refused => simp [hph] at hp
  | ended =>
    simp only [hph] at hp
    obtain ⟨hs, done', f, rfl, hf⟩ := hp
    cases rest with
    | nil => exact ⟨by simpa using ho, hs, .inr hph⟩
    | cons g rest =>
      refine absurd (hk f ?_) hf
      rw [List.append_assoc, List.singleton_append,
        List.dropLast_append_of_ne_nil (List.cons_ne_nil _ _)]
      simp

/-! ### Headers that do not -/

/-- What the loop has made of the stream so far, and what is left of it, in bytes. -/
def volume (s : Sys) : ℕ :=
  (s.obtained.map fun m => headerSize + m.2.length).sum + s.stream.length +
    match s.phase with
    | .header | .ended => 0
    | .body _ got => headerSize + got.length
    | .refused => headerSize

theorem volume_onMessage {hdr : Header} {body : List UInt8} :
    volume (s.onMessage hdr body) =
      (s.obtained.map fun m => headerSize + m.2.length).sum + s.stream.length + headerSize + body.length := by
  have hph : (s.onMessage hdr body).phase = .header ∨ (s.onMessage hdr body).phase = .ended := by
    unfold Sys.onMessage
    cases s.loop with
    | pu => exact .inl rfl
    | cu => dsimp only; split_ifs <;> simp
  rcases hph with hph | hph <;>
  · simp only [volume, hph]
    simp only [Sys.onMessage, List.map_append, List.map_singleton, List.sum_append, List.sum_singleton]
    omega

/-- A header read in part is counted as a whole. -/
theorem volume_apply (he : s.Enabled r) :
    volume (s.apply r) = volume s + if s.phase = .header then headerSize - r.size else 0 := by
  unfold Sys.Enabled at he
  unfold Sys.apply
  cases hph : s.phase with
  | header =>
    simp only [hph] at he ⊢
    have hlen : (s.stream.drop r.size).length + r.size = s.stream.length := by
      rw [List.length_drop]
      omega
    unfold Sys.onHeader
    split_ifs
    · rw [volume_onMessage]
      simp only [volume, hph, List.length_nil]
      omega
    all_goals
      simp only [volume, hph, List.length_nil]
      omega
  | body hdr got =>
    simp only [hph, reduceCtorEq, if_false] at he ⊢
    have hlen : (s.stream.drop r.size).length + r.size = s.stream.length := by
      rw [List.length_drop]
      omega
    have htake : (s.stream.take r.size).length = r.size := by
      rw [List.length_take]
      omega
    unfold Sys.onBody
    split_ifs with hf
    · rw [volume_onMessage]
      simp only [volume, hph, List.length_append, htake]
      omega
    · simp only [volume, hph, List.length_append, htake]
      omega
  | refused => simp [hph] at he
  | ended => simp [hph] at he

/-- If nothing was counted twice, every header came in one read. -/
theorem whole_of_volume : ∀ {reads : List Read} {s : Sys},
    Enables (machine loop msgs) (fun _ _ => True) s reads →
      volume s ≤ volume (reads.foldl (machine loop msgs).apply s) ∧
      (volume (reads.foldl (machine loop msgs).apply s) = volume s →
        Enables (machine loop msgs) Whole s reads)
  | [], _, _ => ⟨le_rfl, fun _ => trivial⟩
  | r :: reads, s, he => by
    have hv : volume (s.apply r) = _ := volume_apply he.1.1
    obtain ⟨hle, hw⟩ := whole_of_volume (s := s.apply r) he.2
    refine ⟨le_trans (by omega) hle, fun hv' => ?_⟩
    have hv' : volume (reads.foldl (machine loop msgs).apply (s.apply r)) = volume s := hv'
    refine ⟨⟨he.1.1, fun hph => ?_⟩, hw (by omega)⟩
    have hsize : r.size ≤ headerSize := by
      have h := he.1.1
      simp only [machine, Sys.Enabled, hph] at h
      exact h.2.1
    rw [if_pos hph] at hv
    omega

/-- After a command it does not know the loop of a client obtains nothing more. -/
def Ends (loop : Loop) (s : Sys) : Prop :=
  s.loop = loop ∧ (∀ m ∈ s.obtained.dropLast, Known loop m.1) ∧
    (s.phase ≠ .ended → ∀ m ∈ s.obtained, Known loop m.1)

theorem ends_onMessage {hdr : Header} {body : List UInt8} (hl : s.loop = loop)
    (h : ∀ m ∈ s.obtained, Known loop m.1) : Ends loop (s.onMessage hdr body) := by
  refine ⟨hl, by simpa [Sys.onMessage] using h, fun hne m hm => ?_⟩
  rcases List.mem_append.1 hm with hm | hm
  · exact h m hm
  · obtain rfl := List.mem_singleton.1 hm
    rintro rfl
    by_contra hk
    exact hne (by simp [Sys.onMessage, hl, hk])

theorem ends_apply (h : Ends loop s) (he : s.Enabled r) : Ends loop (s.apply r) := by
  obtain ⟨hl, -, hk⟩ := h
  unfold Sys.Enabled at he
  unfold Sys.apply
  cases hph : s.phase with
  | header =>
    have hk := hk (by simp [hph])
    have hd : ∀ m ∈ s.obtained.dropLast, Known loop m.1 := fun m hm => hk m ((List.dropLast_sublist _).subset hm)
    dsimp only
    unfold Sys.onHeader
    split_ifs
    · exact ends_onMessage hl hk
    all_goals exact ⟨hl, hd, fun _ => hk⟩
  | body hdr got =>
    have hk := hk (by simp [hph])
    have hd : ∀ m ∈ s.obtained.dropLast, Known loop m.1 := fun m hm => hk m ((List.dropLast_sublist _).subset hm)
    dsimp only
    unfold Sys.onBody
    split_ifs
    · exact ends_onMessage hl hk
    · exact ⟨hl, hd, fun _ => hk⟩
  | refused => simp [hph] at he
  | ended => simp [hph] at he

theorem ends_foldl (h : Ends loop s) (he : Enables (machine loop msgs) (fun _ _ => True) s reads) :
    Ends loop (reads.foldl (machine loop msgs).apply s) := by
  induction reads generalizing s with
  | nil => exact h
  | cons r reads ih => exact ih (ends_apply h he.1.1) he.2

theorem volume_start : volume (Sys.start loop msgs) =
    ((msgs.map fun f => (f.hdr, f.body)).map fun m => headerSize + m.2.length).sum := by
  have : (msgs.flatMap Frame.wire).length =
      ((msgs.map fun f => (f.hdr, f.body)).map fun m => headerSize + m.2.length).sum := by
    rw [List.length_flatMap, List.map_map]
    exact congrArg List.sum (List.map_congr_left fun f _ => by simp [Frame.wire, memory_length])
  simp [volume, Sys.start, this]

theorem sound_start : Sound loop msgs (Sys.start loop msgs) := ⟨rfl, [], msgs, rfl, rfl, rfl⟩

/-- **Frames** are received as they were sent just when every header comes in one read and, for a client,
no message but the last has a command that the loop does not know, and, for a device, every message with
a body has a command of 16 bits. -/
theorem frames_iff (hmax : ∀ f ∈ msgs, f.hdr.bodylen ≤ 1024 * 1024)
    (he : Enables (machine loop msgs) (fun _ _ => True) (Sys.start loop msgs) reads)
    (hc : Complete (reads.foldl (machine loop msgs).apply (Sys.start loop msgs))) :
    Received msgs (reads.foldl (machine loop msgs).apply (Sys.start loop msgs)) ↔
      Enables (machine loop msgs) Whole (Sys.start loop msgs) reads ∧
        (∀ f ∈ msgs.dropLast, Known loop f.hdr) ∧ ∀ f ∈ msgs, Plain loop f := by
  constructor
  · rintro ⟨ho, hs, hph⟩
    have hw : Enables (machine loop msgs) Whole (Sys.start loop msgs) reads := by
      refine (whole_of_volume he).2 ?_
      rw [volume_start]
      rcases hph with hph | hph <;> simp [volume, ho, hs, hph]
    have hstart : Ends loop (Sys.start loop msgs) := ⟨rfl, by simp [Sys.start], by simp [Sys.start]⟩
    have hend := (ends_foldl hstart he).2.1
    rw [ho, ← List.map_dropLast] at hend
    have hk : ∀ f ∈ msgs.dropLast, Known loop f.hdr := fun f hf => hend _ (List.mem_map_of_mem hf)
    -- what the loop has obtained are the messages with their commands cut
    have hcut := (obtained_of_whole (sound_foldl hmax sound_start hw) hc hk).1
    rw [ho] at hcut
    exact ⟨hw, hk, fun f hf => store_eq_iff.1 (List.map_inj_left.1 hcut f hf).symm⟩
  · rintro ⟨hw, hk, hp⟩
    obtain ⟨ho, hs, hph⟩ := obtained_of_whole (sound_foldl hmax sound_start hw) hc hk
    exact ⟨ho.trans (List.map_congr_left fun f hf => store_eq_iff.2 (hp f hf)), hs, hph⟩

/-- A heartbeat and a video frame of three bytes. -/
def someFrames : List Frame :=
  [⟨⟨hmcmdHeartbeat, 0, 0, 7⟩, [], rfl⟩, ⟨⟨hmcmdRecvVideo, 3, 0, 8⟩, [1, 2, 3], rfl⟩]

/-- The body comes in two parts. -/
def wholeReads : List Read := [⟨16, []⟩, ⟨16, []⟩, ⟨2, []⟩, ⟨1, []⟩]

theorem wholeReads_received : Received someFrames
    (wholeReads.foldl (machine .cu someFrames).apply (Sys.start .cu someFrames)) :=
  (frames_iff (by decide) (by decide +kernel) (by decide +kernel)).2 (by decide +kernel)

/-- The first header comes in two parts. -/
def splitReads : List Read := [⟨8, List.replicate 8 0⟩, ⟨16, []⟩, ⟨7, []⟩, ⟨4, List.replicate 12 0⟩]

/-- The loop of the device takes it for two headers. -/
theorem frames_shifted : ¬ ∀ (loop : Loop) (msgs : List Frame) (reads : List Read),
    (∀ f ∈ msgs, f.hdr.bodylen ≤ 1024 * 1024) →
    Enables (machine loop msgs) (fun _ _ => True) (Sys.start loop msgs) reads →
    Complete (reads.foldl (machine loop msgs).apply (Sys.start loop msgs)) →
    Received msgs (reads.foldl (machine loop msgs).apply (Sys.start loop msgs)) := fun h =>
  absurd (h .pu someFrames splitReads (by decide) (by decide +kernel) (by decide +kernel))
    (by decide +kernel)

end StNvs.Server.Frames
