import StNvs.Lib.History
import StNvs.Sched.Calls

/-! # The history of a thread

The events about one thread, read newest first: what it is in the middle of (`openCall`), what has
happened since (`seg`), who woke it (`wakes`), whether an interrupt is pending (`pending`), which mutexes
it holds (`holds`). `Just` says why a call may return what it returns, in terms of the events before the
return: for a wait for a condition `CondOutcome`, for locking a mutex `LockOutcome`. -/

namespace StNvs.Sched.History

open StNvs.Lib.History StNvs.Sched.Sleep StNvs.Sched.Model StNvs.Sched.Moves StNvs.Sched.Threads
open StNvs.Sched.Invariant Function

/-! ### Reading the events about a thread -/

/-- The events about `t`, newest first. -/
def own (t : ThreadPtr) (tr : List Event) : List Event := tr.filter (subject · = t)

/-- Those since it last entered a call. -/
def seg : List Event → List Event
  | [] | .created _ :: _ | .called _ _ _ :: _ => []
  | .woken t w :: l => .woken t w :: seg l
  | .interrupted t :: l => .interrupted t :: seg l
  | .returned t op r :: l => .returned t op r :: seg l
  | .stackFreed t :: l => .stackFreed t :: seg l

/-- Who woke it, last first. -/
def wakes : List Event → List Wake
  | [] => []
  | .woken _ w :: l => w :: wakes l
  | .created _ :: l | .called _ _ _ :: l | .interrupted _ :: l | .returned _ _ _ :: l
  | .stackFreed _ :: l => wakes l

/-- The return from a call that clears `_ST_FL_INTERRUPT`. -/
def consumes : Op → Ret → Bool
  | .io k o _, _ => Vp.waits k o
  | _, r => r = .fail .eintr

/-- Whether an interrupt has arrived that no call has returned yet. -/
def pending : List Event → Bool
  | [] | .created _ :: _ => false
  | .interrupted _ :: _ => true
  | .returned _ op r :: l => if consumes op r then false else pending l
  | .called _ _ _ :: l | .woken _ _ :: l | .stackFreed _ :: l => pending l

/-- An interrupt arrived while the thread had not been woken yet. -/
def Early (t : ThreadPtr) (sg : List Event) : Prop :=
  ∃ a b, sg = a ++ .interrupted t :: b ∧ wakes b = []

/-- It has locked `m` and not called to unlock it since. -/
def holds (m : ℕ) : List Event → Bool
  | [] => false
  | .called _ (.mutexUnlock m') _ :: l => if m' = m then false else holds m l
  | .returned _ (.mutexLock m') .ok :: l => if m' = m then true else holds m l
  | .returned _ (.mutexTrylock m') .ok :: l => if m' = m then true else holds m l
  | _ :: l => holds m l

/-- What a wait for a condition returns, entered with the flag `p` and with the events `sg` since. -/
structure CondOutcome (t : ThreadPtr) (p : Bool) (sg : List Event) (r : Ret) : Prop where
  woken : (wakes sg).length ≤ 1
  eintr : r = .fail .eintr ↔ p = true ∨ .interrupted t ∈ sg
  etime : r = .fail .etime ↔ ¬ (p = true ∨ .interrupted t ∈ sg) ∧ .woken t .clock ∈ sg
  ok : r = .ok ↔ ¬ (p = true ∨ .interrupted t ∈ sg) ∧ .woken t .signal ∈ sg

/-- What locking a mutex returns. -/
structure LockOutcome (t : ThreadPtr) (p : Bool) (sg : List Event) (r : Ret) : Prop where
  woken : (wakes sg).length ≤ 1
  entry : p = true → r = .fail .eintr
  early : Early t sg → r = .fail .eintr ∧ .woken t .unlock ∉ sg
  handed : .woken t .unlock ∈ sg → r = .ok

/-- Why an event may come after the events `pre` about the thread. -/
def Just (t : ThreadPtr) : Event → List Event → Prop
  | .called _ _ p, pre => p = pending pre
  | .returned _ (.condTimedwait c u) r, pre => ∃ p,
    openCall pre = some (.condTimedwait c u, p) ∧ CondOutcome t p (seg pre) r
  | .returned _ (.mutexLock m) r, pre => ∃ p,
    openCall pre = some (.mutexLock m, p) ∧ LockOutcome t p (seg pre) r
  | _, _ => True

variable {s s' : Vp} {t u : ThreadPtr} {l : List Event} {op : Op} {p : Bool}

/-- Since it entered its call, an interrupt is pending if one was at entry or has arrived. -/
theorem pending_of_open : ∀ {l : List Event}, (∀ e ∈ l, subject e = t) → Justified (Just t) l →
    openCall l = some (op, p) → (pending l = true ↔ p = true ∨ .interrupted t ∈ seg l)
  | [], _, _, ho => by simp [openCall] at ho
  | .created _ :: l, _, _, ho => by simp [openCall] at ho
  | .returned _ _ _ :: l, _, _, ho => by simp [openCall] at ho
  | .called _ op' p' :: l, _, hj, ho => by
    obtain ⟨-, rfl⟩ : op' = op ∧ p' = p := by simpa [openCall] using ho
    have hp : p' = pending l := hj.1
    simp [pending, seg, hp]
  | .woken _ w :: l, hs, hj, ho => by
    simpa [pending, seg] using pending_of_open (fun e he => hs e (by simp [he])) hj.2 ho
  | .stackFreed _ :: l, hs, hj, ho => by
    simpa [pending, seg] using pending_of_open (fun e he => hs e (by simp [he])) hj.2 ho
  | .interrupted x :: l, hs, hj, ho => by
    have hx : x = t := hs (.interrupted x) (by simp)
    simp [pending, seg, hx]

theorem wakes_of_mem {w : Wake} : ∀ {l : List Event}, .woken t w ∈ l → w ∈ wakes l
  | e :: l, h => by
    rcases List.mem_cons.mp h with rfl | h
    · simp [wakes]
    · have := wakes_of_mem h
      cases e <;> simp [wakes, this]

theorem mem_of_wakes {w : Wake} : ∀ {l : List Event}, (∀ e ∈ l, subject e = t) → w ∈ wakes l →
    .woken t w ∈ l
  | e :: l, hs, h => by
    have ih := mem_of_wakes (l := l) (w := w) fun e he => hs e (by simp [he])
    cases e with
    | woken x w' =>
      have hx : x = t := hs (.woken x w') (by simp)
      rcases List.mem_cons.mp h with rfl | h
      · simp [hx]
      · exact List.mem_cons_of_mem _ (ih h)
    | _ => exact List.mem_cons_of_mem _ (ih h)

theorem subject_seg : ∀ {l : List Event}, (∀ e ∈ l, subject e = t) → ∀ e ∈ seg l, subject e = t
  | [], _, e, he => by simp [seg] at he
  | x :: l, hs, e, he => by
    have ih := subject_seg (l := l) fun e he => hs e (by simp [he])
    cases x <;> simp only [seg, List.not_mem_nil, List.mem_cons] at he
    all_goals
      rcases he with rfl | he
      · exact hs _ (by simp)
      · exact ih e he

theorem Early.mem (h : Early t l) : .interrupted t ∈ l := by
  obtain ⟨a, b, rfl, -⟩ := h
  simp

theorem early_cons {e : Event} (he : e ≠ .interrupted t) : Early t (e :: l) ↔ Early t l := by
  constructor
  · rintro ⟨a, b, hab, hb⟩
    rcases a with _ | ⟨x, a⟩
    · exact absurd (List.cons.inj hab).1 he
    · exact ⟨a, b, (List.cons.inj hab).2, hb⟩
  · rintro ⟨a, b, rfl, hb⟩
    exact ⟨e :: a, b, rfl, hb⟩

theorem early_interrupted : Early t (.interrupted t :: l) ↔ wakes l = [] ∨ Early t l := by
  constructor
  · rintro ⟨a, b, hab, hb⟩
    rcases a with _ | ⟨x, a⟩
    · exact .inl ((List.cons.inj hab).2 ▸ hb)
    · exact .inr ⟨a, b, (List.cons.inj hab).2, hb⟩
  · rintro (h | ⟨a, b, rfl, hb⟩)
    · exact ⟨[], l, rfl, h⟩
    · exact ⟨.interrupted t :: a, b, rfl, hb⟩

end StNvs.Sched.History
