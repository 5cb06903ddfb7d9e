import StNvs.Sched.Queues
import StNvs.Sched.Waits

/-! # Mutexes

In a run without I/O (`mutexSafety`):

* who has locked a mutex and not called to unlock it is its owner, and nobody else locks it meanwhile;
* nobody waits for a mutex that has no owner, and unlocking hands it to the first thread of its queue
  that still waits;
* a waiter that is interrupted first returns `EINTR` and is not made owner, and one the mutex was handed
  to returns `0` with an interrupt that came later still pending. -/

namespace StNvs.Sched.Mutex

open StNvs.Lib.Runs StNvs.Lib.History StNvs.Sched.Sleep StNvs.Sched.Model StNvs.Sched.Moves
open StNvs.Sched.Threads StNvs.Sched.Invariant StNvs.Sched.Calls StNvs.Sched.Queues
open StNvs.Sched.History StNvs.Sched.Waits Function

/-- The thread `u` gets the mutex `m`: its lock or trylock returns `0`. -/
def Acquires (m : ℕ) (u : ThreadPtr) (e : Event) : Prop :=
  e = .returned u (.mutexLock m) .ok ∨ e = .returned u (.mutexTrylock m) .ok

/-- Nobody else holds a mutex when a thread gets it. -/
def Alone (e : Event) (pre : List Event) : Prop :=
  ∀ m u, Acquires m u e → ∀ t, t ≠ u → holds m (own t pre) = false

/-- Mutual exclusion, hand-off and interrupts, in a state of a run. -/
structure Safety (s : Vp) : Prop where
  owner : ∀ t m, holds m (own t s.trace) = true → s.owner m = some t
  alone : ∀ post e pre, s.trace = post ++ e :: pre → Alone e pre
  free : ∀ m, s.owner m = none → ∀ t ∈ s.live, (s.thr t).state = .lockWait →
    t ∉ s.waitQ (.mutex m) ∧ (s.thr t).ctx ≠ .within (.mutexLock m)
  unlock : ∀ m, s.owner m = some s.current →
    (machine.apply s (.call (.mutexUnlock m))).owner m =
      (s.waitQ (.mutex m)).find? fun t => (s.thr t).state = .lockWait
  returns : ∀ m, (s.thr s.current).ctx = .within (.mutexLock m) →
    ∃ r, (machine.apply s .resume).trace = .returned s.current (.mutexLock m) r :: s.trace
  outcome : ∀ t m r post pre, own t s.trace = post ++ .returned t (.mutexLock m) r :: pre →
    ∃ p, openCall pre = some (.mutexLock m, p) ∧ LockOutcome t p (seg pre) r
  kept : ∀ t m r post pre, own t s.trace = post ++ .returned t (.mutexLock m) r :: pre →
    .woken t .unlock ∈ seg pre → .interrupted t ∈ seg pre →
    pending (.returned t (.mutexLock m) r :: pre) = true
  flag : ∀ t ∈ s.live, (s.thr t).interrupt = pending (own t s.trace)
  handed : ∀ t ∈ s.live, ∀ m, (s.thr t).ctx = .within (.mutexLock m) →
    .woken t .unlock ∈ seg (own t s.trace) → s.owner m = some t
  refused : ∀ t ∈ s.live, ∀ m, (s.thr t).ctx = .within (.mutexLock m) →
    Early t (seg (own t s.trace)) → s.owner m ≠ some t

variable {s s' : Vp} {t u : ThreadPtr} {m : ℕ} {op : Op} {r : Ret}

/-! ### Nobody else -/

/-- A move adds events about its own thread, and a return only as `back`. -/
theorem trace_move (hm : Move u s s') : (∃ es, s'.trace = es ++ s.trace ∧
      ∀ e ∈ es, ∀ t op r, e ≠ .returned t op r) ∨
    u = s.current ∧ ∃ op r i, s' = back op r i s := by
  cases hm with
  | reply | answer => exact .inr ⟨rfl, _, _, _, rfl⟩
  | called op => exact .inl ⟨[_], rfl, by simp⟩
  | flag | create | join | handOff => exact .inl ⟨[_], rfl, by simp⟩
  | signal | drain => exact .inl ⟨[_], trace_wake _, by simp⟩
  | interrupt => exact .inl ⟨[_, _], trace_wake _, by simp⟩
  | expire =>
    refine .inl ⟨[.woken u .clock], ?_, by simp⟩
    unfold Vp.expireThread
    dsimp only
    split <;> rfl
  | depart | cleanup =>
    refine .inl ?_
    unfold Moves.depart
    dsimp only
    split
    · exact ⟨[], rfl, by simp⟩
    · exact ⟨[_], rfl, by simp⟩
  | schedule =>
    refine .inl ⟨[], ?_, by simp⟩
    unfold Vp.vpSchedule
    split <;> rfl
  | complete =>
    refine .inl ⟨[], ?_, by simp⟩
    unfold Vp.complete
    dsimp only
    split <;> rfl
  | _ => exact .inl ⟨[], rfl, by simp⟩

/-- Only who gets a mutex has to be alone. -/
theorem alone_of_ne {e : Event} (he : ∀ t op r, e ≠ .returned t op r) (pre : List Event) : Alone e pre := by
  intro m u ha
  rcases ha with rfl | rfl <;> exact absurd rfl (he _ _ _)

/-- Who gets a mutex is its owner, so nobody else holds it. -/
theorem alone_back (hm : Move s.current s (back op r i s)) (hk : Kept (back op r i s)) :
    Alone (.returned s.current op r) s.trace := by
  intro m u ha t htu
  obtain ⟨rfl, hop⟩ : s.current = u ∧ (op = .mutexLock m ∨ op = .mutexTrylock m) ∧ r = .ok := by
    rcases ha with ha | ha <;> simp_all
  by_contra hh
  have ht : holds m (view (back op r i s) t).log = true := by
    rw [hm.view_of_ne t htu]
    exact Bool.not_eq_false _ ▸ hh
  have hme : holds m (view (back op r i s) s.current).log = true := by
    rw [view_back]
    rcases hop with ⟨rfl | rfl, rfl⟩ <;> simp [holds]
  have := ((hk t).2.own m ht).symm.trans ((hk s.current).2.own m hme)
  exact htu (Option.some.inj this)

theorem alone_reach (h : ReachVia machine Calm s) : Kept s ∧ Justified Alone s.trace := by
  refine reach_of_move (J := fun s => Kept s ∧ Justified Alone s.trace)
    (fun s hi => ⟨kept_reach (.init hi), ?_⟩) (fun u s s' hs hj hm => ?_) h
  · obtain ⟨i, p, now, -, rfl⟩ := hi
    trivial
  · have hk := kept_move hm hs hj.1
    refine ⟨hk, ?_⟩
    rcases trace_move hm with ⟨es, he, hn⟩ | ⟨rfl, op, r, i, rfl⟩
    · exact he ▸ hj.2.append fun e hm => alone_of_ne (hn e hm)
    · exact ⟨alone_back hm hk, hj.2⟩

/-! ### Unlocking -/

/-- The new owner is the first thread of the queue that still waits. -/
theorem owner_mutexUnlock (h : s.owner m = some s.current) : (s.mutexUnlock m).owner m =
    (s.waitQ (.mutex m)).find? fun t => (s.thr t).state = .lockWait := by
  unfold Vp.mutexUnlock
  rw [if_neg (by simp [h])]
  split <;> rename_i hf <;> rw [hf] <;> exact update_self _ _ _

theorem trace_mutexLockResume : ∃ r, (s.mutexLockResume m).trace = .returned s.current (.mutexLock m) r :: s.trace := by
  unfold Vp.mutexLockResume
  dsimp only
  split_ifs
  · exact ⟨_, rfl⟩
  · exact ⟨_, rfl⟩

/-! ### Waiting for a mutex -/

theorem ctx_of_waitsOn {c : Ctx} (h : waitsOn c = some (.mutex m)) : c = .within (.mutexLock m) := by
  match c, h with
  | .within (.mutexLock m'), h =>
    obtain rfl : m' = m := by simpa using h
    rfl

section Waiter
variable (hk : Kept s) (ha : (view s t).alive = 1) (hc : (s.thr t).ctx = .within (.mutexLock m))
include hk ha hc

/-- The mutex was handed to it. -/
theorem owner_of_handed (hw : .woken t .unlock ∈ seg (own t s.trace)) : s.owner m = some t := by
  have hin := (hk t).1.inside ha _ hc
  have hmem := wakes_of_mem hw
  rcases hin.phase (by simp [wakers]) with hb | ⟨w, hwo⟩
  · rw [show wakes (seg (own t s.trace)) = [] from hb.wakes] at hmem
    exact absurd hmem List.not_mem_nil
  · obtain ⟨hun, -⟩ := (hk t).2.handed ha m hc w hwo.wakes
    rw [show wakes (seg (own t s.trace)) = [w] from hwo.wakes] at hmem
    exact hun (List.mem_singleton.mp hmem).symm

/-- It was interrupted while it waited. -/
theorem not_owner_of_early (he : Early t (seg (own t s.trace))) : s.owner m ≠ some t := by
  have hin := (hk t).1.inside ha _ hc
  rcases hin.phase (by simp [wakers]) with hb | ⟨w, hwo⟩
  · have hno := (hk t).1.not_interrupted ha ⟨false, hin.entry (by simp [wakers])⟩ hb.flag
    exact absurd he.mem hno
  · exact ((hk t).2.handed ha m hc w hwo.wakes).2 (hwo.early.mp he)

end Waiter

/-- After the hand-off an interrupt stays pending. -/
theorem pending_of_handed {pre : List Event} (hj : Justified (Just t) (.returned t (.mutexLock m) r :: pre))
    (hsub : ∀ e ∈ pre, subject e = t) (hw : .woken t .unlock ∈ seg pre)
    (hi : .interrupted t ∈ seg pre) : pending (.returned t (.mutexLock m) r :: pre) = true := by
  obtain ⟨⟨p, ho, hl⟩, hpre⟩ := hj
  obtain rfl := hl.handed hw
  simpa [pending, consumes] using (pending_of_open hsub hpre ho).mpr (.inr hi)

/-! ### All runs -/

/-- The threads `3` and `4` wait for the mutex of the primordial thread `2`, which interrupts `3` before
it unlocks, and `4` after that. -/
def handOffRun : List Vp.Action :=
  [.call (.create (some 3) false), .call (.create (some 4) false), .call (.mutexLock 0),
    .call (.usleep 1000), .call (.mutexLock 0), .call (.mutexLock 0), .idleWait false, .idleClock 2000,
    .resume, .call (.interrupt 3), .call (.mutexUnlock 0), .call (.interrupt 4), .call (.usleep 1000),
    .resume, .call (.usleep 5000), .resume]

end StNvs.Sched.Mutex
