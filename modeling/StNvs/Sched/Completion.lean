import StNvs.Sched.Queues

/-! # Completions and the threads that wait for them

`_st_vp_idle` makes the thread of every finished operation runnable without looking at its state. In a
calm run that thread always waits for just this operation (`completion_matching`). A run is not calm when
a thread in `_ST_ST_IO_WAIT` is interrupted, or has an interrupt pending when it would start to wait, or
leaves `st_accept` although the operation was started: its operation stays in flight, and the completion
hits whatever the thread does by then (`strayRun`). -/

namespace StNvs.Sched.Completion

open StNvs.Sched.Sleep StNvs.Sched.Model StNvs.Sched.Moves StNvs.Sched.Threads StNvs.Sched.Invariant
open StNvs.Sched.Calls StNvs.Sched.Queues StNvs.Lib.Runs Function

/-- The thread of the entry waits for exactly the operation that produced it. -/
def Matched (s : Vp) (e : Entry) : Prop :=
  (s.thr e.thread).state = .ioWait ∧ ∃ o, (s.thr e.thread).ctx = .within (.io e.kind o e.num)

/-- `e` is the entry the drain loop takes next. -/
def Drains (s : Vp) (e : Entry) : Prop :=
  (s.thr s.current).ctx = .idle .drain ∧ s.readyQ.head? = some e

/-- **Completion matching**: in a calm run, an entry that is drained finds its thread in `_ST_ST_IO_WAIT`
for the operation that produced the entry, and no thread is on the run queue twice. -/
theorem completion_matching {s : Vp} (h : ReachVia machine Calm s) :
    (∀ e, Drains s e → Matched s e) ∧ s.runQ.Nodup := by
  obtain ⟨hs, -⟩ := sound_reach h
  refine ⟨fun e ⟨_, he⟩ => ?_, List.nodup_iff_count.mpr fun t => ?_⟩
  · obtain ⟨-, hst, hc⟩ := hs.posted.waiter e
      (List.mem_append_right _ (List.mem_of_mem_head? he))
    exact ⟨hst, hc⟩
  · have hr := (hs.good t).runs
    change (view s t).runs ≤ 1
    split_ifs at hr <;> omega

instance decidableCalm (s : Vp) : ∀ a, Decidable (Calm s a)
  | .call (.interrupt t) => inferInstanceAs (Decidable ((s.thr t).state ≠ .ioWait))
  | .call (.io k o _) => inferInstanceAs (Decidable (Vp.posted k o = true → _))
  | .call (.create _ _) | .call (.exit _) | .call (.join _) | .call (.usleep _)
  | .call (.condTimedwait _ _) | .call (.condSignal _ _) | .call (.mutexLock _)
  | .call (.mutexUnlock _) | .call (.mutexTrylock _)
  | .resume | .idleWait _ | .idleDrain | .idleClock _ | .complete _ _ => .isTrue trivial

/-- Thread `3` reads and the primordial thread waits for a query; the query is finished first. -/
def readRun : List Vp.Action :=
  [.call (.create (some 3) false), .call (.io .db ⟨false, false⟩ 0), .call (.io .read ⟨false, true⟩ 1),
    .complete ⟨2, .db, 0⟩ 0, .complete ⟨3, .read, 1⟩ 16, .idleWait true, .idleDrain]

theorem readRun_matching :
    Drains (readRun.foldl machine.apply (Vp.stInit 1 2 0)) ⟨3, .read, 1⟩ ∧
      Matched (readRun.foldl machine.apply (Vp.stInit 1 2 0)) ⟨3, .read, 1⟩ := by
  have hinit : machine.init (Vp.stInit 1 2 0) := ⟨1, 2, 0, by decide, rfl⟩
  have hr : ReachVia machine Calm (readRun.foldl machine.apply (Vp.stInit 1 2 0)) :=
    (ReachVia.init hinit).foldl readRun (by decide +kernel)
  have hd : Drains (readRun.foldl machine.apply (Vp.stInit 1 2 0)) ⟨3, .read, 1⟩ := by
    unfold Drains; decide +kernel
  exact ⟨hd, (completion_matching hr).1 _ hd⟩

/-- Thread `3` reads, is interrupted, and reads again; then both reads finish. -/
def strayRun : List Vp.Action :=
  [.call (.create (some 3) false), .call (.usleep 1000), .call (.io .read ⟨false, true⟩ 0),
    .idleWait false, .idleClock 2000, .resume, .call (.interrupt 3), .call (.usleep 5000), .resume,
    .call (.io .read ⟨false, true⟩ 1), .complete ⟨3, .read, 0⟩ 16, .complete ⟨3, .read, 1⟩ 16,
    .idleWait true]

/-- The first completion finds thread `3` waiting for the second read, and the second puts it on the run
queue again. -/
theorem completion_mismatch :
    (¬ ∀ s, Reach machine s → ∀ e, Drains s e → Matched s e) ∧
      ¬ ∀ s, Reach machine s → s.runQ.Nodup := by
  have hinit : machine.init (Vp.stInit 1 2 0) := ⟨1, 2, 0, by decide, rfl⟩
  have hr : Reach machine (strayRun.foldl machine.apply (Vp.stInit 1 2 0)) :=
    (ReachVia.init hinit).foldl strayRun (by decide +kernel)
  refine ⟨fun hall => ?_, fun hall => ?_⟩
  · have hd : Drains (strayRun.foldl machine.apply (Vp.stInit 1 2 0)) ⟨3, .read, 0⟩ := by
      unfold Drains; decide +kernel
    obtain ⟨-, o, ho⟩ := hall _ hr _ hd
    have hc : ((strayRun.foldl machine.apply (Vp.stInit 1 2 0)).thr 3).ctx =
        .within (.io .read ⟨false, true⟩ 1) := by decide +kernel
    have hne := hc.symm.trans ho
    simp at hne
  · have hr2 := hr.foldl [Vp.Action.idleDrain, Vp.Action.idleDrain] (by decide +kernel)
    have hq : ([Vp.Action.idleDrain, Vp.Action.idleDrain].foldl machine.apply
        (strayRun.foldl machine.apply (Vp.stInit 1 2 0))).runQ = [3, 3] := by decide +kernel
    have hn := hall _ hr2
    rw [hq] at hn
    exact absurd hn (by decide)

/-! ### Steps that are not calm -/

theorem threadInterrupt_ioWait {s : Vp} {t : ThreadPtr} (hst : (s.thr t).state = .ioWait) :
    s.threadInterrupt t = (flag t s).wake t .interrupt := by
  simp [Vp.threadInterrupt, hst, flag, Vp.modify, Vp.log]

/-- An interrupt takes a thread away from the operation it waits for. -/
theorem unmatched_interrupt {s : Vp} (hs : Sound s) (hw : Awake s) {t : ThreadPtr} (ht : t ∈ s.live)
    (hst : (s.thr t).state = .ioWait) :
    ∃ e ∈ (machine.apply s (.call (.interrupt t))).inflight ++
      (machine.apply s (.call (.interrupt t))).readyQ,
      ¬ Matched (machine.apply s (.call (.interrupt t))) e := by
  have hne : t ≠ s.current := fun hx => by simp [hx, hw.2] at hst
  obtain ⟨e, hm, rfl⟩ := List.mem_map.mp (hs.posted.posted t ht hst)
  have hap : machine.apply s (.call (.interrupt e.thread)) =
      ((flag e.thread (s.log (.called s.current (.interrupt e.thread)
        (s.thr s.current).interrupt))).wake e.thread .interrupt).ret (.interrupt e.thread) .ok := by
    rw [← threadInterrupt_ioWait (by exact hst)]
    rfl
  rw [hap]
  generalize hs1 : flag e.thread (s.log _) = s1
  have hc1 : s1.current = s.current := by rw [← hs1]; rfl
  obtain ⟨hi, hq⟩ := io_wake (s := s1) (u := e.thread) .interrupt
  refine ⟨e, ?_, fun ⟨hx, _⟩ => ?_⟩
  · change e ∈ (s1.wake e.thread .interrupt).inflight ++ (s1.wake e.thread .interrupt).readyQ
    rw [hi, hq, ← hs1]
    exact hm
  · have hrun : ((s1.wake e.thread .interrupt).thr e.thread).state = .runnable := by simp
    have hne' : e.thread ≠ (s1.wake e.thread .interrupt).current := by rw [current_wake, hc1]; exact hne
    have hsame : ((s1.wake e.thread .interrupt).ret (.interrupt e.thread) .ok).thr e.thread =
        (s1.wake e.thread .interrupt).thr e.thread := update_of_ne hne' _ _
    rw [hsame, hrun] at hx
    exact TState.noConfusion hx

/-- A thread that does not wait for the operation it started. -/
theorem unmatched_io {s : Vp} {k : IoKind} {o : Submit} {n : ℕ} (hp : Vp.posted k o = true)
    (hn : ¬ (Vp.waits k o = true ∧ (s.thr s.current).interrupt = false)) :
    ∃ e ∈ (machine.apply s (.call (.io k o n))).inflight ++
      (machine.apply s (.call (.io k o n))).readyQ,
      ¬ Matched (machine.apply s (.call (.io k o n))) e := by
  refine ⟨⟨s.current, k, n⟩, ?_⟩
  change _ ∈ (Vp.ioCall k o n (s.log _)).inflight ++ _ ∧ ¬ Matched (Vp.ioCall k o n (s.log _)) _
  unfold Vp.ioCall
  by_cases hw : Vp.waits k o = true
  · have hint : (s.thr s.current).interrupt = true := by
      by_contra hx
      exact hn ⟨hw, by simpa using hx⟩
    simp [hp, hw, Vp.log, hint, Vp.ret, Vp.clearInterrupt, Vp.setCtx, Vp.modify, Matched]
  · simp [hp, hw, Vp.log, Vp.ret, Vp.setCtx, Vp.modify, Matched]

/-- **A step that is not calm** leaves an operation behind that its thread does not wait for: calmness
is what completion matching takes. -/
theorem unmatched_of_not_calm {s : Vp} (h : ReachVia machine Calm s) {a : Vp.Action}
    (he : machine.enabled s a) (hcalm : ¬ Calm s a) :
    ∃ e ∈ (machine.apply s a).inflight ++ (machine.apply s a).readyQ,
      ¬ Matched (machine.apply s a) e := by
  obtain ⟨hs, hw⟩ := sound_reach h
  cases a with
  | call op =>
    cases op with
    | interrupt t => exact unmatched_interrupt hs hw he.2.1 (not_not.mp hcalm)
    | io k o n =>
      obtain ⟨hp, hn⟩ := Classical.not_imp.mp hcalm
      exact unmatched_io hp hn
    | _ => exact absurd trivial hcalm
  | _ => exact absurd trivial hcalm

end StNvs.Sched.Completion
