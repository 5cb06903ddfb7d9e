import StNvs.Sched.Calls

/-! # The queue discipline

In a run without I/O every thread is, between operations, on exactly the queues its state says
(`queueDiscipline`), whatever the order of calls, interrupts and clock ticks. Such runs are calm
(`calm_of_noIo`), since nobody ever waits for I/O in them. -/

namespace StNvs.Sched.Queues

open StNvs.Sched.Sleep StNvs.Sched.Model StNvs.Sched.Moves StNvs.Sched.Threads StNvs.Sched.Invariant
open StNvs.Sched.Calls StNvs.Lib.Runs Function

variable {s s' : Vp} {t u : ThreadPtr} {op : Op}

/-! ### Runs without I/O -/

/-- No step of the run is an I/O or database call. -/
def NoIo (_ : Vp) : Vp.Action → Prop
  | .call (.io _ _ _) => False
  | _ => True

instance decidableNoIo (s : Vp) : ∀ a, Decidable (NoIo s a)
  | .call (.io _ _ _) => .isFalse id
  | .call (.create _ _) | .call (.exit _) | .call (.join _) | .call (.usleep _)
  | .call (.condTimedwait _ _) | .call (.condSignal _ _) | .call (.mutexLock _)
  | .call (.mutexUnlock _) | .call (.mutexTrylock _) | .call (.interrupt _)
  | .resume | .idleWait _ | .idleDrain | .idleClock _ | .complete _ _ => .isTrue trivial

/-- The operations in flight and the finished ones. -/
def ios (s : Vp) : List Entry × List Entry := (s.inflight, s.readyQ)

@[simp] theorem ios_wake (w : Wake) : ios (s.wake u w) = ios s := by
  obtain ⟨h1, h2⟩ := io_wake (s := s) (u := u) w
  rw [ios, h1, h2, ios]

@[simp] theorem ios_vpSchedule : ios s.vpSchedule = ios s := by
  obtain ⟨h1, h2⟩ := io_vpSchedule (s := s)
  rw [ios, h1, h2, ios]

@[simp] theorem ios_expireThread : ios (s.expireThread u) = ios s := by
  obtain ⟨h1, h2⟩ := io_expireThread (s := s) (u := u)
  rw [ios, h1, h2, ios]

@[simp] theorem ios_ret (r : Ret) : ios (s.ret op r) = ios s := rfl

@[simp] theorem ios_switchContext : ios (s.switchContext op) = ios s := ios_vpSchedule

theorem ios_condSignalLoop (b : Bool) : ∀ (q : List ThreadPtr) (s : Vp),
    ios (s.condSignalLoop b q) = ios s
  | [], s => rfl
  | t :: q, s => by
    unfold Vp.condSignalLoop
    split_ifs
    · rw [ios_condSignalLoop b q, ios_wake]
    · exact ios_wake _
    · exact ios_condSignalLoop b q s

theorem ios_checkClockLoop : ∀ (q : List ThreadPtr) (e : UTime) (s : Vp),
    ios (s.checkClockLoop e q) = ios s
  | [], e, s => rfl
  | t :: q, e, s => by
    unfold Vp.checkClockLoop
    split_ifs
    · rfl
    · rw [ios_checkClockLoop q, ios_expireThread]

@[simp] theorem ios_condTimedwait (w : WaitQ) (x : UTime) : ios (s.condTimedwait w x op) = ios s := by
  unfold Vp.condTimedwait
  dsimp only
  split_ifs <;> first | rfl | exact ios_vpSchedule

@[simp] theorem ios_joinLoop : ios (s.joinLoop t) = ios s := by
  unfold Vp.joinLoop
  split_ifs
  · rfl
  · exact ios_condTimedwait _ _

@[simp] theorem ios_threadGone : ios s.threadGone = ios s := by
  unfold Vp.threadGone
  dsimp only
  split_ifs <;> exact ios_vpSchedule

/-- Only an I/O call starts an operation. -/
theorem ios_callOp (hop : ∀ k o n, op ≠ .io k o n) : ios (s.callOp op) = ios s := by
  cases op with
  | create a j => cases a <;> rfl
  | exit v =>
    simp only [Vp.callOp, Vp.threadExit]
    split_ifs
    · rw [ios_vpSchedule, Vp.condSignal, ios_condSignalLoop]; rfl
    · exact ios_threadGone
  | join t =>
    simp only [Vp.callOp, Vp.threadJoin]
    split_ifs <;> first | rfl | exact ios_joinLoop
  | usleep u =>
    simp only [Vp.callOp, Vp.usleep]
    split_ifs
    · rfl
    · exact ios_vpSchedule
  | condTimedwait c u => exact ios_condTimedwait _ _
  | condSignal c b => exact ios_condSignalLoop b _ s
  | mutexLock m =>
    simp only [Vp.callOp, Vp.mutexLock]
    split_ifs <;> first | rfl | exact ios_vpSchedule
  | mutexUnlock m =>
    simp only [Vp.callOp, Vp.mutexUnlock]
    split_ifs
    · rfl
    · split <;> rfl
  | mutexTrylock m =>
    simp only [Vp.callOp, Vp.mutexTrylock]
    split_ifs <;> rfl
  | interrupt t =>
    simp only [Vp.callOp, Vp.threadInterrupt]
    split_ifs
    · rfl
    · rfl
    · exact ios_wake .interrupt
  | io k o n => exact absurd rfl (hop k o n)

theorem ios_resumeOp : ios (s.resumeOp op) = ios s := by
  cases op with
  | exit v => exact ios_threadGone
  | join t =>
    simp only [Vp.resumeOp, Vp.threadJoinResume]
    split
    · rfl
    · exact ios_joinLoop
  | usleep | mutexLock | io =>
    simp only [Vp.resumeOp, Vp.usleepResume, Vp.mutexLockResume, Vp.ioResume]
    split_ifs <;> rfl
  | _ => rfl

theorem ios_apply {a : Vp.Action} (he : machine.enabled s a) (hn : NoIo s a) (hs : ios s = ([], [])) :
    ios (machine.apply s a) = ([], []) := by
  obtain ⟨hi, hq⟩ := Prod.mk.inj hs
  cases a with
  | call op =>
    refine (ios_callOp fun k o n hop => ?_).trans hs
    subst hop
    exact hn
  | resume =>
    obtain ⟨op, hc⟩ := he
    rw [apply_resume hc]
    exact ios_resumeOp.trans hs
  | idleWait b => exact hs
  | idleDrain =>
    change ios s.idleDrain = _
    rw [Vp.idleDrain, hq]
    exact hs
  | idleClock now =>
    change ios (((s.vpCheckClock now).setState s.current .runnable).setCtx s.current _).vpSchedule = _
    rw [ios_vpSchedule]
    exact (ios_checkClockLoop _ _ _).trans hs
  | complete e n =>
    have hm : e ∈ s.inflight := he
    simp [hi] at hm

/-- **A run without I/O is calm**, and has no operation in flight. -/
theorem calm_of_noIo (h : ReachVia machine NoIo s) : ReachVia machine Calm s ∧ ios s = ([], []) := by
  induction h with
  | init h =>
    refine ⟨.init h, ?_⟩
    obtain ⟨i, p, now, -, rfl⟩ := h
    rfl
  | @step s a _ he hn ih =>
    obtain ⟨hr, hs⟩ := ih
    refine ⟨.step hr he ?_, ios_apply he hn hs⟩
    -- nobody waits for I/O
    match a, he, hn with
    | .call (.interrupt t), he, _ =>
      intro hst
      have hm := (sound_reach hr).1.posted.posted t he.2.1 hst
      obtain ⟨hi, hq⟩ := Prod.mk.inj hs
      simp [hi, hq] at hm
    | .call (.io _ _ _), _, hn => exact absurd hn id
    | .call (.create _ _), _, _ | .call (.exit _), _, _ | .call (.join _), _, _
    | .call (.usleep _), _, _ | .call (.condTimedwait _ _), _, _ | .call (.condSignal _ _), _, _
    | .call (.mutexLock _), _, _ | .call (.mutexUnlock _), _, _ | .call (.mutexTrylock _), _, _
    | .resume, _, _ | .idleWait _, _, _ | .idleDrain, _, _ | .idleClock _, _, _
    | .complete _ _, _, _ => trivial

/-! ### The discipline -/

/-- Between operations: the current thread is in its own code, or in the idle loop. -/
def AtRest (s : Vp) : Prop := ∀ op, (s.thr s.current).ctx ≠ .within op

/-- The queue discipline, between operations. Threads that do not exist are on no queue. -/
structure Discipline (s : Vp) : Prop where
  running : s.current ∈ s.live ∧ ∀ t ∈ s.live, (s.thr t).state = .running ↔ t = s.current
  runQ : ∀ t ∈ s.live, t ≠ s.idle → s.runQ.count t = if (s.thr t).state = .runnable then 1 else 0
  sleepQ : ∀ t ∈ s.live, s.sq.links.count t = if (s.thr t).onSleepQ = true then 1 else 0
  onSleepQ : ∀ t ∈ s.live, (s.thr t).onSleepQ = true →
    (s.thr t).state = .sleeping ∨ (s.thr t).state = .condWait
  sleeping : ∀ t ∈ s.live, (s.thr t).state = .sleeping → (s.thr t).onSleepQ = true
  zombieQ : ∀ t ∈ s.live, s.zombieQ.count t = if (s.thr t).state = .zombie then 1 else 0
  once : ∀ t, s.runQ.count t + s.sq.links.count t + s.zombieQ.count t ≤ 1
  idle : s.idle ∉ s.runQ ∧ s.idle ∉ s.sq.links ∧ s.idle ∉ s.zombieQ ∧ ∀ w, s.idle ∉ s.waitQ w
  waiting : ∀ t ∈ s.live, (s.thr t).state = .lockWait ∨ (s.thr t).state = .condWait →
    ∃ w, ∀ w', (s.waitQ w').count t = if w' = w then 1 else 0
  timedOut : ∀ t ∈ s.live, (s.thr t).timedOut = true → (s.thr t).state = .runnable ∧
    ∃ c u, (s.thr t).ctx = .within (.condTimedwait c u)
  activeCount : s.activeCount = (s.live.countP fun t => Active s t : ℕ)
  dead : ∀ t ∉ s.live, t ∉ s.runQ ∧ t ∉ s.sq.links ∧ t ∉ s.zombieQ ∧ ∀ w, t ∉ s.waitQ w

/-- A thread that waits for a lock or a condition is on one wait queue. -/
theorem exists_waitsOn {th : Thread} {b : Bool} {l : List Event} (h : Steady th b l)
    (hs : th.state = .lockWait ∨ th.state = .condWait) : ∃ w, waitsOn th.ctx = some w := by
  have hb : blockState th.ctx = some .lockWait ∨ blockState th.ctx = some .condWait := by
    have hbl := h.blocked
    rcases hs with hs | hs <;> simp_all
  match hc : th.ctx, hb with
  | .within (.condTimedwait _ _), _ | .within (.join _), _ | .within (.mutexLock _), _ => exact ⟨_, rfl⟩
  | .within (.usleep _), hb | .within (.io _ _ _), hb | .within (.exit _), hb => simp [blockState] at hb

/-- A thread is on one of the three queues that share `links`, at most. -/
theorem Good.once {v : View} (h : Good v) : v.runs + v.sleeps + v.zombies ≤ 1 := by
  rw [h.runs, h.sleeps, h.zombies]
  by_cases ha : v.alive = 1
  · by_cases ho : v.th.onSleepQ = true
    · rcases (h.steady ha).onSleepQ ho with hs | ⟨hs, -⟩ <;> simp [ha, ho, hs]
    · by_cases hz : v.th.state = .zombie
      · simp [ha, ho, hz]
      · have hs : ¬ (v.alive = 1 ∧ v.th.onSleepQ = true) := fun hx => ho hx.2
        have hd : ¬ (v.alive = 1 ∧ v.th.state = .zombie) := fun hx => hz hx.2
        rw [if_neg hs, if_neg hd]
        split_ifs <;> simp
  · simp [ha]

/-- Who does not exist is on no queue, and an idle thread that does not wait is on none. -/
theorem nowhere (h : Good (view s t)) (h0 : (view s t).alive = 0 ∨ (view s t).isIdle = true ∧
    (s.thr t).onSleepQ ≠ true ∧ (s.thr t).state ≠ .zombie ∧ waitsOn (s.thr t).ctx = none) :
    t ∉ s.runQ ∧ t ∉ s.sq.links ∧ t ∉ s.zombieQ ∧ ∀ w, t ∉ s.waitQ w := by
  have hr : (view s t).runs = 0 := by rw [h.runs]; rcases h0 with h0 | h0 <;> simp [h0]
  have hs : (view s t).sleeps = 0 := by rw [h.sleeps]; rcases h0 with h0 | h0 <;> simp [h0]
  have hz : (view s t).zombies = 0 := by rw [h.zombies]; rcases h0 with h0 | h0 <;> simp [h0]
  have hw (w : WaitQ) : (view s t).waits w = 0 := by
    rw [h.waits]; rcases h0 with h0 | h0 <;> simp [h0]
  exact ⟨List.count_eq_zero.mp hr, List.count_eq_zero.mp hs, List.count_eq_zero.mp hz,
    fun w => List.count_eq_zero.mp (hw w)⟩

/-- **The queue discipline** of the scheduler: in every state of a run without I/O, between operations. -/
theorem queueDiscipline (h : ReachVia machine NoIo s) (hr : AtRest s) : Discipline s := by
  obtain ⟨hs, hl, hrun⟩ := sound_reach (calm_of_noIo h).1
  have hst {t : ThreadPtr} (ht : t ∈ s.live) := (hs.good t).of_mem ht
  have hone {t : ThreadPtr} (ht : t ∈ s.live) : (view s t).alive = 1 := (hs.good t).alive_eq ht
  -- the idle thread is in its loop: running, or ready to
  obtain ⟨p, hp⟩ := (hst hs.idleLive).idle.mp (by simp [view])
  have hidle : (s.thr s.idle).state = .running ∨ (s.thr s.idle).state = .runnable := by
    have hb := (hst hs.idleLive).blocked
    simpa [hp, blockState] using hb
  exact
  { running := ⟨hl, fun t ht => ⟨hs.only t ht, fun he => he ▸ hrun⟩⟩
    runQ := fun t ht hne => by
      have hi : (view s t).isIdle = false := by simpa [view] using hne
      have := (hs.good t).runs
      simp only [hone ht, hi, true_and, and_true] at this
      exact this
    sleepQ := fun t ht => by
      have := (hs.good t).sleeps
      simp only [hone ht, true_and] at this
      exact this
    onSleepQ := fun t ht ho => ((hst ht).onSleepQ ho).imp id And.left
    sleeping := fun t ht => (hst ht).asleep
    zombieQ := fun t ht => by
      have := (hs.good t).zombies
      simp only [hone ht, true_and] at this
      exact this
    once := fun t => Good.once (hs.good t)
    idle := nowhere (hs.good s.idle) <| .inr <| by
      refine ⟨by simp [view], fun ho => ?_, fun hz => ?_, by simp [hp]⟩
      · rcases (hst hs.idleLive).onSleepQ ho with hx | ⟨hx, -⟩ <;>
          rcases hidle with hi | hi <;> simp [hi] at hx
      · rcases hidle with hi | hi <;> simp [hi] at hz
    waiting := fun t ht hw => by
      obtain ⟨w, hw⟩ := exists_waitsOn (hst ht) hw
      refine ⟨w, fun w' => ?_⟩
      have := (hs.good t).waits w'
      simp only [hone ht, true_and, th_view, hw, Option.some.injEq, eq_comm (a := w)] at this
      exact this
    timedOut := fun t ht hto => by
      obtain ⟨hst', c, u, hc⟩ := (hst ht).timedOut hto
      refine ⟨hst'.resolve_left fun hx => ?_, c, u, hc⟩
      -- who runs is between operations
      exact hr _ (hs.only t ht hx ▸ hc)
    activeCount := hs.active
    dead := fun t ht => nowhere (hs.good t) (.inl (List.count_eq_zero.mpr ht)) }

/-- The threads `3` and `4` wait for condition `0`; the clock goes on by `500`, and `3` times out. -/
def timeoutRun : List Vp.Action :=
  [.call (.create (some 3) true), .call (.create (some 4) false), .call (.usleep 1000),
    .call (.condTimedwait 0 500), .call (.condTimedwait 0 noTimeout), .idleWait false, .idleClock 500,
    .resume]

theorem timeoutRun_discipline : Discipline (timeoutRun.foldl machine.apply (Vp.stInit 1 2 0)) := by
  have hinit : machine.init (Vp.stInit 1 2 0) := ⟨1, 2, 0, by decide, rfl⟩
  refine queueDiscipline ((ReachVia.init hinit).foldl timeoutRun ?_) fun op => ?_
  · decide +kernel
  · have hc : ((timeoutRun.foldl machine.apply (Vp.stInit 1 2 0)).thr
        (timeoutRun.foldl machine.apply (Vp.stInit 1 2 0)).current).ctx = .user := by decide +kernel
    rw [hc]
    exact Ctx.noConfusion

end StNvs.Sched.Queues
