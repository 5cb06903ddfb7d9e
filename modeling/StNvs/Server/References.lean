import StNvs.Lib.Holders
import StNvs.Server.Model
import Mathlib.Tactic.Abel

/-! # The references of the server

A `Token` is a reference that somebody holds, or the right to do something once: a coroutine holds some
tokens at each of its points (`grants`), and so do the objects (`puGrants`, `cuGrants`). What a state holds
in all is `tokens`; the lemmas say how it changes with the parts of the state. -/

namespace StNvs.Server.References

open StNvs.Lib.Holders StNvs.Server.Model Function

/-- `pu`, `cu` and `msg` are references that are counted; `draft` is the only reference to a message.

The others are not counted. `opening p` is the right to set `_real_video_cmd`, `puSender p` and
`cuSender c batch` that to take messages from a queue, with the batch taken unless it has been given up.
`closing c` is what is left of the latter after `clear`: to call `close`. `right m` is that to make a message
a request, `waiter m` that to wait for its condition, `woken c` that to call `uninit`. `seat c` is held by a
coroutine that has entered `c` in `_pu_video_proxy_vec`, and `entry c` by the entry. -/
inductive Token
  | pu (p : PuPtr)
  | cu (c : CuPtr)
  | msg (m : MsgPtr)
  | draft (m : MsgPtr)
  | opening (p : PuPtr)
  | puSender (p : PuPtr)
  | cuSender (c : CuPtr) (batch : Option (List MsgPtr))
  | closing (c : CuPtr)
  | right (m : MsgPtr)
  | waiter (m : MsgPtr)
  | woken (c : CuPtr)
  | seat (c : CuPtr)
  | entry (c : CuPtr)
  deriving DecidableEq

/-- What is held and moved by the coroutine that runs. -/
abbrev Hand := Multiset Token

open Token

/-! ### Who holds what -/

/-- References to messages, one for each in a list. -/
def msgs (l : List MsgPtr) : Multiset Token := held (fun m => {msg m}) l

def grants : Task → Multiset Token
  | .connections | .accept | .session | .auth | .handshake _ _ | .client _ => 0
  | .login _ p | .puSend p => {pu p} + {opening p} + {puSender p}
  | .puRecv p | .puHeader p | .puLoad p _ _ | .puBody p _ _ | .puClose p | .beat p _ => {pu p}
  | .puFan p m _ => {pu p} + {msg m}
  | .puWait p | .puNotified p => {pu p} + {puSender p}
  | .puBatch p batch => {pu p} + {puSender p} + msgs batch
  | .puWrite p m batch => {pu p} + {puSender p} + msgs batch + {msg m}
  | .heart p | .openVideo p => {opening p}
  | .cuRecv c | .cuHeader c | .cuClose c => {cu c}
  | .cuLoad c _ m | .cuBody c _ m | .cuMessage c _ m => {cu c} + {right m} + {draft m}
  | .cuSend c | .cuWait c | .cuNotified c => {cu c} + {cuSender c (some [])}
  | .cuBatch c batch => {cu c} + {cuSender c (some batch)} + msgs batch
  | .cuWrite c _ m batch => {cu c} + msgs batch + {msg m} + {cuSender c (some (m :: batch))}
  | .cuExit c => {cu c} + {cuSender c none}
  | .openReal _ m => {draft m} + {waiter m}
  | .park c m => {cu c} + {msg m} + {seat c} + {waiter m}
  | .parted c m => {cu c} + {msg m} + {woken c} + {seat c}
  | .leave c m => {cu c} + {woken c} + {msg m}

/-- The reference of `_real_video_cmd`. -/
def videoGrants (o : PuProxy) : Multiset Token := o.video.elim 0 fun v => {msg v}

/-- A message in the queue has the reference of the queue and the one that its sender has left; an entry of
`_pu_video_proxy_vec` has one to the client and one to `_real_video_cmd`. -/
def puGrants (o : PuProxy) : Multiset Token :=
  msgs o.queue + msgs o.queue + held (fun c => {cu c} + {entry c} + videoGrants o) o.viewers +
    if o.ref = 0 then 0 else videoGrants o

def cuGrants (o : CuProxy) : Multiset Token :=
  msgs o.queue + msgs o.queue + o.puProxy.elim 0 fun p => {pu p}

/-- What is held in a state. -/
def tokens (s : Sys) : Multiset Token :=
  held grants s.tasks + slots puGrants s.pu s.pus + slots cuGrants s.cu s.cus + msgs s.log.lost

@[simp] theorem msgs_nil : msgs [] = 0 := rfl

@[simp] theorem msgs_cons {m : MsgPtr} {l : List MsgPtr} : msgs (m :: l) = {msg m} + msgs l := held_cons

@[simp] theorem msgs_append {l l' : List MsgPtr} : msgs (l ++ l') = msgs l + msgs l' := held_append

theorem mem_msgs {t : Token} {l : List MsgPtr} : t ∈ msgs l ↔ ∃ m ∈ l, t = msg m := by
  simp [msgs, mem_held]

/-! ### The other parts of a state -/

section

variable {s : Sys} {t u : Task} {k : Spot} {p : PuPtr} {c : CuPtr}

@[simp] theorem place_pu : (s.place t k).pu = s.pu := by cases k <;> rfl

@[simp] theorem place_pus : (s.place t k).pus = s.pus := by cases k <;> rfl

@[simp] theorem place_cu : (s.place t k).cu = s.cu := by cases k <;> rfl

@[simp] theorem place_cus : (s.place t k).cus = s.cus := by cases k <;> rfl

@[simp] theorem place_msg : (s.place t k).msg = s.msg := by cases k <;> rfl

@[simp] theorem place_deviceMap : (s.place t k).deviceMap = s.deviceMap := by cases k <;> rfl

@[simp] theorem place_log : (s.place t k).log = s.log := by cases k <;> rfl

@[simp] theorem place_bufs : (s.place t k).bufs = s.bufs := by cases k <;> rfl

@[simp] theorem place_fault : (s.place t k).fault = s.fault := by cases k <;> rfl

@[simp] theorem signal_pu : (s.signal t u).pu = s.pu := by
  unfold Sys.signal
  split <;> rfl

@[simp] theorem signal_pus : (s.signal t u).pus = s.pus := by
  unfold Sys.signal
  split <;> rfl

@[simp] theorem signal_cu : (s.signal t u).cu = s.cu := by
  unfold Sys.signal
  split <;> rfl

@[simp] theorem signal_cus : (s.signal t u).cus = s.cus := by
  unfold Sys.signal
  split <;> rfl

@[simp] theorem signal_msg : (s.signal t u).msg = s.msg := by
  unfold Sys.signal
  split <;> rfl

@[simp] theorem signal_deviceMap : (s.signal t u).deviceMap = s.deviceMap := by
  unfold Sys.signal
  split <;> rfl

@[simp] theorem signal_log : (s.signal t u).log = s.log := by
  unfold Sys.signal
  split <;> rfl

@[simp] theorem signal_bufs : (s.signal t u).bufs = s.bufs := by
  unfold Sys.signal
  split <;> rfl

@[simp] theorem signal_fault : (s.signal t u).fault = s.fault := by
  unfold Sys.signal
  split <;> rfl

@[simp] theorem signal_running : (s.signal t u).running = s.running := by
  unfold Sys.signal
  split <;> rfl

end

/-! ### Changes -/

variable {s : Sys} {p : PuPtr} {c : CuPtr} {m : MsgPtr} {t u : Task}

theorem held_tasks : held grants s.tasks =
    held grants s.running.toList + held grants s.runq + held grants s.io + held grants s.conds := by
  simp only [Sys.tasks, held_append]

/-- A coroutine is put where it goes on; none runs. -/
theorem tokens_place {k : Spot} (h : s.running = none) : tokens (s.place t k) = tokens s + grants t := by
  simp only [tokens, held_tasks]
  cases k <;> simp only [Sys.place, h, held_append, held_cons, held_nil, Option.toList_none,
    Option.toList_some] <;> abel

theorem tokens_fork : tokens (s.fork t) = tokens s + grants t := by
  simp only [tokens, held_tasks, Sys.fork, Sys.place, held_append, held_cons, held_nil]
  abel

theorem tokens_signal (h : t ∈ s.conds) : tokens (s.signal t u) + grants t = tokens s + grants u := by
  have herase := held_erase (g := grants) h
  simp only [Sys.signal, if_pos h, tokens, held_tasks, held_append, held_cons, held_nil, ← herase]
  abel

theorem tokens_notifyPu : tokens (s.notifyPu p) = tokens s := by
  by_cases h : .puWait p ∈ s.conds
  · exact add_right_cancel (tokens_signal (u := .puNotified p) h)
  · rw [Sys.notifyPu, Sys.signal, if_neg h]

theorem tokens_notifyCu : tokens (s.notifyCu c) = tokens s := by
  by_cases h : .cuWait c ∈ s.conds
  · exact add_right_cancel (tokens_signal (u := .cuNotified c) h)
  · rw [Sys.notifyCu, Sys.signal, if_neg h]

theorem tokens_modPu {f : PuProxy → PuProxy} (hp : p < s.pus) :
    tokens (s.modPu p f) + puGrants (s.pu p) = tokens s + puGrants (f (s.pu p)) := by
  have h := slots_update (g := puGrants) (f := s.pu) (v := f (s.pu p)) hp
  calc held grants s.tasks + slots puGrants (update s.pu p (f (s.pu p))) s.pus + slots cuGrants s.cu s.cus +
        msgs s.log.lost + puGrants (s.pu p)
      = held grants s.tasks + (slots puGrants (update s.pu p (f (s.pu p))) s.pus + puGrants (s.pu p)) +
        slots cuGrants s.cu s.cus + msgs s.log.lost := by abel
    _ = tokens s + puGrants (f (s.pu p)) := by
      rw [h, tokens]
      abel

theorem tokens_modPu_same {f : PuProxy → PuProxy} (h : puGrants (f (s.pu p)) = puGrants (s.pu p)) :
    tokens (s.modPu p f) = tokens s :=
  congrArg (held grants s.tasks + · + slots cuGrants s.cu s.cus + msgs s.log.lost) (slots_update_same h)

theorem tokens_modCu {f : CuProxy → CuProxy} (hc : c < s.cus) :
    tokens (s.modCu c f) + cuGrants (s.cu c) = tokens s + cuGrants (f (s.cu c)) := by
  have h := slots_update (g := cuGrants) (f := s.cu) (v := f (s.cu c)) hc
  calc held grants s.tasks + slots puGrants s.pu s.pus + slots cuGrants (update s.cu c (f (s.cu c))) s.cus +
        msgs s.log.lost + cuGrants (s.cu c)
      = held grants s.tasks + slots puGrants s.pu s.pus +
        (slots cuGrants (update s.cu c (f (s.cu c))) s.cus + cuGrants (s.cu c)) + msgs s.log.lost := by abel
    _ = tokens s + cuGrants (f (s.cu c)) := by
      rw [h, tokens]
      abel

theorem tokens_modCu_same {f : CuProxy → CuProxy} (h : cuGrants (f (s.cu c)) = cuGrants (s.cu c)) :
    tokens (s.modCu c f) = tokens s :=
  congrArg (held grants s.tasks + slots puGrants s.pu s.pus + · + msgs s.log.lost) (slots_update_same h)

variable {b : Bool} {n : ℕ} {serial : UInt32} {wrap : Option MsgPtr} {sn : String} {l : List MsgPtr}

theorem tokens_valid : tokens (s.modPu p fun o => { o with valid := b }) = tokens s := tokens_modPu_same rfl

theorem tokens_serial : tokens (s.modPu p fun o => { o with serial := serial }) = tokens s :=
  tokens_modPu_same rfl

theorem tokens_addPu (h : (s.pu p).ref ≠ 0) : tokens (s.addPu p) = tokens s :=
  tokens_modPu_same (by simp only [puGrants, videoGrants, if_neg h, if_neg (Nat.succ_ne_zero _)])

/-- A count goes down, but not to zero. -/
theorem tokens_dropPu (h0 : (s.pu p).ref ≠ 0) (h1 : (s.pu p).ref ≠ 1) :
    tokens (s.modPu p fun o => { o with ref := o.ref - 1 }) = tokens s :=
  tokens_modPu_same (by
    have : (s.pu p).ref - 1 ≠ 0 := by omega
    simp only [puGrants, videoGrants, if_neg h0, if_neg this])

theorem tokens_cuValid : tokens (s.modCu c fun o => { o with valid := b }) = tokens s :=
  tokens_modCu_same rfl

theorem tokens_cuSerial : tokens (s.modCu c fun o => { o with videoSerial := serial }) = tokens s :=
  tokens_modCu_same rfl

theorem tokens_cuWrap : tokens (s.modCu c fun o => { o with videoMsgWrap := wrap }) = tokens s :=
  tokens_modCu_same rfl

theorem tokens_addCu : tokens (s.modCu c fun o => { o with ref := o.ref + 1 }) = tokens s :=
  tokens_modCu_same rfl

theorem tokens_dropCu : tokens (s.modCu c fun o => { o with ref := o.ref - 1 }) = tokens s :=
  tokens_modCu_same rfl

theorem tokens_lose : tokens (s.lose l) = tokens s + msgs l := by
  have : tokens (s.lose l) = held grants s.tasks + slots puGrants s.pu s.pus + slots cuGrants s.cu s.cus +
    msgs (l ++ s.log.lost) := rfl
  rw [this, msgs_append, tokens]
  abel

theorem add_tokens_lose {X : Hand} : X + tokens (s.lose l) = X + msgs l + tokens s := by
  rw [tokens_lose]
  abel

theorem tokens_unregister : tokens (s.unregister sn) = tokens s := rfl

theorem tokens_newPu : tokens (s.newPu sn) = tokens s := by
  have : puGrants ⟨sn, 1, false, [], [], none, 1⟩ = 0 := rfl
  have hslots := slots_push (g := puGrants) (f := s.pu) (n := s.pus) (v := ⟨sn, 1, false, [], [], none, 1⟩)
  rw [this, add_zero] at hslots
  exact congrArg (held grants s.tasks + · + slots cuGrants s.cu s.cus + msgs s.log.lost) hslots

/-- What is held is held by a coroutine or an object, or has been lost. -/
theorem mem_tokens {x : Token} : x ∈ tokens s ↔ (∃ t ∈ s.tasks, x ∈ grants t) ∨
    (∃ p < s.pus, x ∈ puGrants (s.pu p)) ∨ (∃ c < s.cus, x ∈ cuGrants (s.cu c)) ∨ x ∈ msgs s.log.lost := by
  simp only [tokens, Multiset.mem_add, mem_held, mem_slots, or_assoc]

/-- What a device holds: references to messages and to clients, and entries. -/
theorem mem_puGrants {o : PuProxy} {x : Token} (h : x ∈ puGrants o) : (∃ m ∈ o.queue, x = msg m) ∨
    (∃ v, o.video = some v ∧ x = msg v) ∨ (∃ c ∈ o.viewers, x = cu c) ∨ ∃ c ∈ o.viewers, x = entry c := by
  have hvideo (hx : x ∈ videoGrants o) : ∃ v, o.video = some v ∧ x = msg v := by
    cases hv : o.video with
    | none => simp [videoGrants, hv] at hx
    | some v => exact ⟨v, rfl, by simpa [videoGrants, hv] using hx⟩
  simp only [puGrants, Multiset.mem_add, mem_msgs, mem_held, Multiset.mem_singleton] at h
  obtain (hq | ⟨c, hc, (hx | hx) | hx⟩) | hx := h
  · exact .inl (or_self_iff.1 hq)
  · exact .inr (.inr (.inl ⟨c, hc, hx⟩))
  · exact .inr (.inr (.inr ⟨c, hc, hx⟩))
  · exact .inr (.inl (hvideo hx))
  · split at hx
    · exact absurd hx (Multiset.notMem_zero x)
    · exact .inr (.inl (hvideo hx))

/-- What a client holds: references to messages, and its device. -/
theorem mem_cuGrants {o : CuProxy} {x : Token} (h : x ∈ cuGrants o) :
    (∃ m ∈ o.queue, x = msg m) ∨ ∃ p, o.puProxy = some p ∧ x = pu p := by
  simp only [cuGrants, Multiset.mem_add, mem_msgs, or_self_iff] at h
  refine h.imp_right fun hx => ?_
  cases hp : o.puProxy with
  | none => simp [hp] at hx
  | some p => exact ⟨p, rfl, by simpa [hp] using hx⟩

/-- The other tokens are held by coroutines. -/
theorem held_by_task {x : Token} (h : x ∈ tokens s) (hmsg : ∀ m, x ≠ msg m) (hcu : ∀ c, x ≠ cu c)
    (hentry : ∀ c, x ≠ entry c) (hpu : ∀ p, x ≠ pu p) : ∃ t ∈ s.tasks, x ∈ grants t := by
  obtain h | ⟨p, -, hp⟩ | ⟨c, -, hc⟩ | hl := mem_tokens.1 h
  · exact h
  · obtain ⟨m, -, rfl⟩ | ⟨v, -, rfl⟩ | ⟨c, -, rfl⟩ | ⟨c, -, rfl⟩ := mem_puGrants hp
    · exact absurd rfl (hmsg m)
    · exact absurd rfl (hmsg v)
    · exact absurd rfl (hcu c)
    · exact absurd rfl (hentry c)
  · obtain ⟨m, -, rfl⟩ | ⟨p, -, rfl⟩ := mem_cuGrants hc
    · exact absurd rfl (hmsg m)
    · exact absurd rfl (hpu p)
  · obtain ⟨m, -, rfl⟩ := mem_msgs.1 hl
    exact absurd rfl (hmsg m)

end StNvs.Server.References
