import StNvs.Sched.Queues
import StNvs.Sched.Waits

/-! # Condition variables

In a run without I/O (`condExactness`):

* a signal wakes the first thread of the queue that still waits, a broadcast all of them, and they are
  threads nobody has woken yet;
* a wait is woken once at most, and what it returns is decided by the interrupts and the waker since it
  began; afterwards neither flag is set. -/

namespace StNvs.Sched.Cond

open StNvs.Lib.Runs StNvs.Lib.History StNvs.Sched.Sleep StNvs.Sched.Model StNvs.Sched.Moves
open StNvs.Sched.Threads StNvs.Sched.Invariant StNvs.Sched.Calls StNvs.Sched.Queues
open StNvs.Sched.History StNvs.Sched.Waits Function

/-- Who `st_cond_signal` (or `st_cond_broadcast`) has to wake. -/
def wokenBy (broadcast : Bool) (q : List ThreadPtr) (s : Vp) : List ThreadPtr :=
  if broadcast then q.filter fun t => (s.thr t).state = .condWait
  else (q.filter fun t => (s.thr t).state = .condWait).take 1

/-- The threads `ws`, and no others, are woken by the call `condSignal c b` of the current thread. -/
structure Wakes (s : Vp) (c : ℕ) (b : Bool) (ws : List ThreadPtr) (s' : Vp) : Prop where
  runnable : ∀ t ∈ ws, (s'.thr t).state = .runnable
  others : ∀ t ∉ ws, s'.thr t = s.thr t
  runQ : s'.runQ = s.runQ ++ ws
  trace : s'.trace = .returned s.current (.condSignal c b) .ok ::
    ((ws.map (Event.woken · .signal)).reverse ++
      .called s.current (.condSignal c b) (s.thr s.current).interrupt :: s.trace)

/-- The conditions, in a state of a run. -/
structure Exactness (s : Vp) : Prop where
  signal : ∀ c b, (s.thr s.current).ctx = .user →
    Wakes s c b (wokenBy b (s.waitQ (.cond c)) s) (machine.apply s (.call (.condSignal c b)))
  fresh : ∀ c b, ∀ t ∈ wokenBy b (s.waitQ (.cond c)) s,
    (∃ u, (s.thr t).ctx = .within (.condTimedwait c u)) ∧ wakes (seg (own t s.trace)) = []
  once : ∀ t ∈ s.live, ∀ c u, (s.thr t).ctx = .within (.condTimedwait c u) →
    (wakes (seg (own t s.trace))).length ≤ 1
  entered : ∀ t op p post pre, own t s.trace = post ++ .called t op p :: pre → p = pending pre
  outcome : ∀ t c u r post pre, own t s.trace = post ++ .returned t (.condTimedwait c u) r :: pre →
    ∃ p, openCall pre = some (.condTimedwait c u, p) ∧ CondOutcome t p (seg pre) r
  returns : ∀ c u, (s.thr s.current).ctx = .within (.condTimedwait c u) →
    (∃ r, (machine.apply s .resume).trace = .returned s.current (.condTimedwait c u) r :: s.trace) ∧
      ((machine.apply s .resume).thr s.current).timedOut = false ∧
      ((machine.apply s .resume).thr s.current).interrupt = false
  refused : ∀ c u, (s.thr s.current).interrupt = true →
    (machine.apply s (.call (.condTimedwait c u))).trace =
        .returned s.current (.condTimedwait c u) (.fail .eintr) ::
          .called s.current (.condTimedwait c u) true :: s.trace ∧
      ((machine.apply s (.call (.condTimedwait c u))).thr s.current).interrupt = false
  timedOut : ∀ t ∈ s.live, (s.thr t).timedOut = true →
    (∃ c u, (s.thr t).ctx = .within (.condTimedwait c u)) ∧ wakes (seg (own t s.trace)) = [.clock]

variable {s s' : Vp} {t u : ThreadPtr} {c : ℕ} {x : UTime} {b : Bool} {q ws : List ThreadPtr}

/-! ### The loop of `_st_cond_signal` -/

/-- Waking a thread leaves the fields of the others alone. -/
theorem thr_wake_of_ne (h : t ≠ u) (w : Wake) : (s.wake u w).thr t = s.thr t :=
  congrArg View.th (view_wake_of_ne h w)

theorem runQ_wake (w : Wake) : (s.wake u w).runQ = s.runQ ++ [u] := by
  unfold Vp.wake; split <;> rfl

theorem filter_wake (hu : u ∉ q) (w : Wake) :
    (q.filter fun t => ((s.wake u w).thr t).state = .condWait) =
      q.filter fun t => (s.thr t).state = .condWait := by
  refine List.filter_congr fun t ht => ?_
  have hne : t ≠ u := fun he => hu (he ▸ ht)
  rw [thr_wake_of_ne hne]

/-- The loop wakes those it has to, from the head of the queue. -/
theorem condSignalLoop_eq (b : Bool) : ∀ (q : List ThreadPtr) (s : Vp), q.Nodup →
    s.condSignalLoop b q = (wokenBy b q s).foldl (fun s t => s.wake t .signal) s
  | [], s, _ => by cases b <;> rfl
  | t :: q, s, hq => by
    obtain ⟨ht, hq⟩ := List.nodup_cons.mp hq
    unfold Vp.condSignalLoop
    by_cases hst : (s.thr t).state = .condWait
    · cases b with
      | false => simp [hst, wokenBy]
      | true =>
        have ih := condSignalLoop_eq true q (s.wake t .signal) hq
        simpa [hst, wokenBy, filter_wake ht] using ih
    · have ih := condSignalLoop_eq b q s hq
      simpa [hst, wokenBy] using ih

/-! ### Waking several threads -/

theorem foldl_wake : ∀ (ws : List ThreadPtr) (s : Vp),
    ((ws.foldl (fun s t => s.wake t .signal) s).runQ = s.runQ ++ ws) ∧
    ((ws.foldl (fun s t => s.wake t .signal) s).trace =
      (ws.map (Event.woken · .signal)).reverse ++ s.trace) ∧
    ((ws.foldl (fun s t => s.wake t .signal) s).current = s.current) ∧
    (∀ t ∉ ws, (ws.foldl (fun s t => s.wake t .signal) s).thr t = s.thr t) ∧
    ∀ t ∈ ws, ((ws.foldl (fun s t => s.wake t .signal) s).thr t).state = .runnable
  | [], s => by simp
  | u :: ws, s => by
    obtain ⟨hr, htr, hcur, hne, hmem⟩ := foldl_wake ws (s.wake u .signal)
    simp only [List.foldl_cons]
    refine ⟨by rw [hr, runQ_wake]; simp, by rw [htr, trace_wake]; simp, hcur.trans (current_wake _),
      fun t ht => ?_, fun t ht => ?_⟩
    · have htu : t ≠ u := fun he => ht (he ▸ List.mem_cons_self)
      rw [hne t fun h => ht (List.mem_cons_of_mem _ h), thr_wake_of_ne htu]
    · by_cases htw : t ∈ ws
      · exact hmem t htw
      · obtain rfl : t = u := (List.mem_cons.mp ht).resolve_right htw
        rw [hne t htw, thr_wake]

/-- The call `st_cond_signal` or `st_cond_broadcast`. -/
theorem wakes_condSignal (hq : (s.waitQ (.cond c)).Nodup) (hc : (s.thr s.current).ctx = .user)
    (hrun : (s.thr s.current).state ≠ .condWait) :
    Wakes s c b (wokenBy b (s.waitQ (.cond c)) s) (machine.apply s (.call (.condSignal c b))) := by
  set s1 := s.log (.called s.current (.condSignal c b) (s.thr s.current).interrupt)
  have he : machine.apply s (.call (.condSignal c b)) =
      ((wokenBy b (s.waitQ (.cond c)) s).foldl (fun s t => s.wake t .signal) s1).ret
        (.condSignal c b) .ok := by
    change (s1.condSignalLoop b (s.waitQ (.cond c))).ret _ _ = _
    rw [condSignalLoop_eq b _ s1 hq]
    rfl
  set ws := wokenBy b (s.waitQ (.cond c)) s
  have hme : s.current ∉ ws := by
    intro hm
    have hm' : s.current ∈ (s.waitQ (.cond c)).filter fun t => (s.thr t).state = .condWait := by
      cases b
      · exact List.mem_of_mem_take hm
      · exact hm
    exact hrun (by simpa using (List.mem_filter.mp hm').2)
  obtain ⟨hr, htr, hcur, hne, hmem⟩ := foldl_wake ws s1
  have hcur' : (ws.foldl (fun s t => s.wake t .signal) s1).current = s.current := hcur
  have hthr (t : ThreadPtr) : ((ws.foldl (fun s t => s.wake t .signal) s1).ret (.condSignal c b) .ok).thr t =
      (ws.foldl (fun s t => s.wake t .signal) s1).thr t := by
    simp only [Vp.ret, Vp.log, Vp.setCtx, Vp.modify, hcur']
    by_cases htc : t = s.current
    · subst htc
      rw [update_self, hne _ hme]
      have hc1 : (s1.thr s.current).ctx = .user := hc
      rw [← hc1]
    · rw [update_of_ne htc]
  rw [he]
  refine ⟨fun t ht => ?_, fun t ht => ?_, hr, ?_⟩
  · rw [hthr]; exact hmem t ht
  · rw [hthr]; exact hne t ht
  · change Event.returned (ws.foldl (fun s t => s.wake t .signal) s1).current _ _ :: _ = _
    rw [hcur', show (Vp.setCtx _ _ _).trace = _ from htr]
    rfl

/-! ### Waiting for a condition -/

theorem mem_wokenBy (h : t ∈ wokenBy b q s) : t ∈ q ∧ (s.thr t).state = .condWait := by
  have hm : t ∈ q.filter fun t => (s.thr t).state = .condWait := by
    cases b
    · exact List.mem_of_mem_take h
    · exact h
  simpa using List.mem_filter.mp hm

theorem ctx_of_waitsOn {y : Ctx} (h : waitsOn y = some (.cond c)) :
    ∃ u, y = .within (.condTimedwait c u) := by
  match y, h with
  | .within (.condTimedwait c' u), h =>
    obtain rfl : c' = c := by simpa using h
    exact ⟨u, rfl⟩

/-- The rest of a wait returns, and leaves neither flag set. -/
theorem condTimedwaitResume_spec :
    (∃ r, (s.condTimedwaitResume c x).trace = .returned s.current (.condTimedwait c x) r :: s.trace) ∧
      ((s.condTimedwaitResume c x).thr s.current).timedOut = false ∧
      ((s.condTimedwaitResume c x).thr s.current).interrupt = false := by
  refine ⟨⟨_, rfl⟩, ?_, ?_⟩ <;>
    simp [Vp.condTimedwaitResume, Vp.condTimedwaitLeave, Vp.ret, Vp.setCtx, Vp.modify, Vp.log,
      Vp.delWaitQ]

/-- A wait is refused while an interrupt is pending. -/
theorem condTimedwait_refused (h : (s.thr s.current).interrupt = true) :
    (machine.apply s (.call (.condTimedwait c x))).trace =
        .returned s.current (.condTimedwait c x) (.fail .eintr) ::
          .called s.current (.condTimedwait c x) true :: s.trace ∧
      ((machine.apply s (.call (.condTimedwait c x))).thr s.current).interrupt = false := by
  have he : machine.apply s (.call (.condTimedwait c x)) =
      ((s.log (.called s.current (.condTimedwait c x) true)).clearInterrupt s.current).ret
        (.condTimedwait c x) (.fail .eintr) := by
    change Vp.condTimedwait _ _ _ (s.log (.called _ _ (s.thr s.current).interrupt)) = _
    rw [h]
    exact if_pos h
  rw [he]
  refine ⟨rfl, ?_⟩
  simp [Vp.ret, Vp.setCtx, Vp.modify, Vp.log, Vp.clearInterrupt]

section Waiter
variable (hk : Kept s) (hs : Sound s) (ht : t ∈ s.live)
include hk hs ht

/-- A thread that waits for a condition has not been woken. -/
theorem fresh_of_condWait (hc : (s.thr t).ctx = .within (.condTimedwait c x))
    (hst : (s.thr t).state = .condWait) : wakes (seg (own t s.trace)) = [] :=
  (((hk t).1.inside ((hs.good t).alive_eq ht) _ hc).blocked (by simp [wakers])
    (by simp [th_view, hst])).wakes

theorem length_wakes_le (hc : (s.thr t).ctx = .within (.condTimedwait c x)) :
    (wakes (seg (own t s.trace))).length ≤ 1 := by
  rcases ((hk t).1.inside ((hs.good t).alive_eq ht) _ hc).phase (by simp [wakers]) with hb | ⟨w, hw⟩
  · rw [show wakes (seg (own t s.trace)) = [] from hb.wakes]; exact zero_le_one
  · rw [show wakes (seg (own t s.trace)) = [w] from hw.wakes]; exact le_rfl

/-- The flag `_ST_FL_TIMEDOUT` is the clock's. -/
theorem clock_of_timedOut (hto : (s.thr t).timedOut = true) :
    (∃ c x, (s.thr t).ctx = .within (.condTimedwait c x)) ∧ wakes (seg (own t s.trace)) = [.clock] := by
  obtain ⟨hst, c, x, hc⟩ := ((hs.good t).of_mem ht).timedOut hto
  refine ⟨⟨c, x, hc⟩, ?_⟩
  obtain ⟨w, hw⟩ := ((hk t).1.inside ((hs.good t).alive_eq ht) _ hc).woken (by simp [wakers]) hst
  obtain rfl := (hw.timedOut ⟨c, x, rfl⟩).mp hto
  exact hw.wakes

end Waiter

/-! ### All runs -/

/-- The threads `3`, `4` and `5` wait; `3` times out, `4` is signalled and interrupted, `5` is left. -/
def signalRun : List Vp.Action :=
  [.call (.create (some 3) false), .call (.create (some 4) false), .call (.create (some 5) false),
    .call (.usleep 1000), .call (.condTimedwait 0 500), .call (.condTimedwait 0 noTimeout),
    .call (.condTimedwait 0 5000), .idleWait false, .idleClock 1000, .resume, .call (.usleep 3000),
    .resume, .call (.condSignal 0 false), .call (.interrupt 4), .call (.usleep 100), .resume]

end StNvs.Sched.Cond
