import StNvs.Sched.Completion

/-! # In which order threads get the processor

A thread that is made runnable goes to the end of the run queue, and `_st_vp_schedule` takes the first
thread of it, or the idle thread if there is none. So much is said here once for each call (`turn_apply`).
`Log` is the scheduler with the threads it has switched to; the idle thread is left out.

* `dispatched_fifo`: the threads are switched to in the order in which they were made runnable, once each
  time; the idle thread gets the processor only when no thread is left.
* `bounded_wait`: a thread in the run queue waits for those before it, each of them once. -/

namespace StNvs.Sched.Dispatch

open StNvs.Sched.Sleep StNvs.Sched.Model StNvs.Sched.Moves StNvs.Sched.Threads StNvs.Sched.Invariant
  StNvs.Sched.Calls
open StNvs.Lib.Runs Function

variable {s s' : Vp} {t : ThreadPtr} {op : Op} {l l' : List ThreadPtr}

/-- The threads that were made runnable, in order. -/
def readied : List Event → List ThreadPtr
  | [] => []
  | .created t :: l | .woken t _ :: l => readied l ++ [t]
  | .called _ _ _ :: l | .interrupted _ :: l | .returned _ _ _ :: l | .stackFreed _ :: l => readied l

/-- The threads `l` are made runnable, while the current thread goes on. -/
structure Queues (s s' : Vp) (l : List ThreadPtr) : Prop where
  runQ : s'.runQ = s.runQ ++ l
  trace : readied s'.trace = readied s.trace ++ l
  current : s'.current = s.current
  idle : s'.idle = s.idle

/-- The thread neither runs nor is runnable. -/
def Blocked (s : Vp) (t : ThreadPtr) : Prop := (s.thr t).state ≠ .running ∧ (s.thr t).state ≠ .runnable

/-- What a step comes to: threads are made runnable, and then another thread may be switched to. In the
second case the threads made runnable were blocked. -/
inductive Turn (s : Vp) : Vp → Prop
  | stays {s' : Vp} {l : List ThreadPtr} : Queues s s' l → Turn s s'
  | switches {s' : Vp} {l : List ThreadPtr} : Queues s s' l → (∀ t ∈ l, Blocked s t) → Turn s s'.vpSchedule

/-! ### The parts of a call -/

/-- Nothing is made runnable. -/
theorem Queues.same (hq : s'.runQ = s.runQ) (ht : readied s'.trace = readied s.trace)
    (hc : s'.current = s.current) (hi : s'.idle = s.idle) : Queues s s' [] :=
  ⟨by rw [hq, List.append_nil], by rw [ht, List.append_nil], hc, hi⟩

theorem Queues.trans {s'' : Vp} (h : Queues s s' l) (h' : Queues s' s'' l') : Queues s s'' (l ++ l') :=
  ⟨by rw [h'.runQ, h.runQ, List.append_assoc], by rw [h'.trace, h.trace, List.append_assoc],
    h'.current.trans h.current, h'.idle.trans h.idle⟩

theorem queues_wake (t : ThreadPtr) (w : Wake) : Queues s (s.wake t w) [t] := by
  unfold Vp.wake
  split <;> exact ⟨rfl, rfl, rfl, rfl⟩

theorem queues_expireThread (t : ThreadPtr) : Queues s (s.expireThread t) [t] := by
  unfold Vp.expireThread
  dsimp only
  split <;> exact ⟨rfl, rfl, rfl, rfl⟩

/-- The signal makes threads runnable that waited for a condition. -/
theorem queues_condSignalLoop (b : Bool) : ∀ (q : List ThreadPtr) (s : Vp),
    ∃ l, Queues s (s.condSignalLoop b q) l ∧ ∀ t ∈ l, (s.thr t).state = .condWait
  | [], _ => ⟨[], .same rfl rfl rfl rfl, fun _ h => absurd h List.not_mem_nil⟩
  | x :: q, s => by
    have hx := queues_wake (s := s) x .signal
    rw [Vp.condSignalLoop]
    split_ifs with hc hb
    · obtain ⟨l, hl, hw⟩ := queues_condSignalLoop b q (s.wake x .signal)
      refine ⟨[x] ++ l, hx.trans hl, fun t ht => ?_⟩
      by_cases htx : t = x
      · exact htx ▸ hc
      · have htl : t ∈ l := (List.mem_cons.mp ht).resolve_left htx
        rw [← thr_of_view (view_wake_of_ne htx .signal)]
        exact hw t htl
    · exact ⟨[x], hx, fun t ht => List.mem_singleton.mp ht ▸ hc⟩
    · exact queues_condSignalLoop b q s

/-- The clock makes sleepers runnable. -/
theorem queues_checkClockLoop : ∀ (q : List ThreadPtr) (e : UTime) (s : Vp),
    ∃ l, Queues s (s.checkClockLoop e q) l ∧ ∀ t ∈ l, t ∈ q
  | [], _, _ => ⟨[], .same rfl rfl rfl rfl, fun _ h => h⟩
  | x :: q, e, s => by
    rw [Vp.checkClockLoop]
    split_ifs
    · exact ⟨[], .same rfl rfl rfl rfl, fun _ h => absurd h List.not_mem_nil⟩
    · obtain ⟨l, hl, hq⟩ := queues_checkClockLoop q (e - s.sq.sleep x) (s.expireThread x)
      refine ⟨[x] ++ l, (queues_expireThread x).trans hl, fun t ht => ?_⟩
      exact List.mem_cons.mpr ((List.mem_cons.mp ht).imp_right (hq t))

/-- A call that ends without a switch. -/
theorem Turn.same (hq : s'.runQ = s.runQ) (ht : readied s'.trace = readied s.trace)
    (hc : s'.current = s.current) (hi : s'.idle = s.idle) : Turn s s' :=
  .stays (.same hq ht hc hi)

/-- A call that ends with a switch and makes nothing runnable. -/
theorem Turn.yields (hq : s'.runQ = s.runQ) (ht : readied s'.trace = readied s.trace)
    (hc : s'.current = s.current) (hi : s'.idle = s.idle) : Turn s s'.vpSchedule :=
  .switches (.same hq ht hc hi) fun _ h => absurd h List.not_mem_nil

theorem Turn.of_queues (h : Queues s s' l) (op : Op) (r : Ret) : Turn s (s'.ret op r) :=
  .stays (h.trans (.same rfl rfl rfl rfl))

/-- Before the call something else happens that makes nothing runnable. -/
theorem Turn.after {s₀ : Vp} (h : Turn s s') (hq : s.runQ = s₀.runQ) (ht : readied s.trace = readied s₀.trace)
    (hc : s.current = s₀.current) (hi : s.idle = s₀.idle)
    (hb : ∀ t, Blocked s t → Blocked s₀ t) : Turn s₀ s' := by
  have h₀ : Queues s₀ s [] := .same hq ht hc hi
  cases h with
  | stays h => exact .stays (h₀.trans h)
  | switches h hl => exact .switches (h₀.trans h) fun t htl => hb t (hl t htl)

/-! ### The calls -/

theorem turn_condTimedwait (w : WaitQ) (y : UTime) : Turn s (s.condTimedwait w y op) := by
  unfold Vp.condTimedwait
  dsimp only
  split_ifs
  · exact .same rfl rfl rfl rfl
  · exact .yields rfl rfl rfl rfl
  · exact .yields rfl rfl rfl rfl

theorem turn_threadGone : Turn s s.threadGone := by
  unfold Vp.threadGone
  dsimp only
  split_ifs
  · exact .yields rfl rfl rfl rfl
  · exact .yields rfl rfl rfl rfl

theorem turn_joinLoop (t : ThreadPtr) : Turn s (s.joinLoop t) := by
  unfold Vp.joinLoop
  split_ifs
  · have hz : Queues s ((s.delZombieQ t).makeRunnable t .join) [t] := ⟨rfl, rfl, rfl, rfl⟩
    exact .of_queues hz _ _
  · exact turn_condTimedwait _ _

theorem turn_threadExit (v : ℕ) : Turn s (s.threadExit v) := by
  by_cases ht : (s.thr s.current).term = true
  · have he : s.threadExit v = ((die v s).condSignal (.term s.current) false).vpSchedule := by
      rw [← die_eq, Vp.threadExit]
      exact if_pos (by simpa [Vp.modify] using ht)
    obtain ⟨l, hl, hw⟩ := queues_condSignalLoop false ((die v s).waitQ (.term s.current)) (die v s)
    have hd : Queues s (die v s) [] := .same rfl rfl rfl rfl
    rw [he]
    refine .switches (hd.trans hl) fun t htl => ?_
    have hst := hw t htl
    -- the current thread is a zombie by then
    have hne : t ≠ s.current := by
      rintro rfl
      simp [die] at hst
    have hthr : (die v s).thr t = s.thr t := by simp [die, hne]
    rw [hthr] at hst
    exact ⟨by rw [hst]; rintro ⟨⟩, by rw [hst]; rintro ⟨⟩⟩
  · have he : s.threadExit v = { s.modify s.current fun th => { th with retval := v } with
        activeCount := s.activeCount - 1 }.threadGone := by
      rw [Vp.threadExit]
      exact if_neg (by simpa [Vp.modify] using ht)
    rw [he, threadGone_eq]
    refine .yields rfl ?_ rfl rfl
    unfold depart
    dsimp only
    split_ifs <;> rfl

theorem turn_ioCall (k : IoKind) (o : Submit) (n : ℕ) : Turn s (s.ioCall k o n) := by
  unfold Vp.ioCall
  dsimp only
  split_ifs
  all_goals first
    | exact .same rfl rfl rfl rfl
    | exact .yields rfl rfl rfl rfl

theorem turn_mutexLock (m : ℕ) : Turn s (s.mutexLock m) := by
  unfold Vp.mutexLock
  dsimp only
  split_ifs
  · exact .same rfl rfl rfl rfl
  · exact .same rfl rfl rfl rfl
  · exact .same rfl rfl rfl rfl
  · exact .yields rfl rfl rfl rfl

theorem turn_mutexUnlock (m : ℕ) : Turn s (s.mutexUnlock m) := by
  unfold Vp.mutexUnlock
  split_ifs
  · exact .same rfl rfl rfl rfl
  · split
    · rename_i t _
      have hw : Queues s ({ s with owner := update s.owner m (some t) }.makeRunnable t .unlock) [t] :=
        ⟨rfl, rfl, rfl, rfl⟩
      exact .of_queues hw _ _
    · exact .same rfl rfl rfl rfl

theorem turn_threadInterrupt (t : ThreadPtr) : Turn s ((s.threadInterrupt t).ret (.interrupt t) .ok) := by
  unfold Vp.threadInterrupt
  dsimp only
  split_ifs
  · exact .same rfl rfl rfl rfl
  · exact .same rfl rfl rfl rfl
  · have hf : Queues s (flag t s) [] := .same rfl rfl rfl rfl
    exact .of_queues (hf.trans (queues_wake t .interrupt)) _ _

/-- A call, up to its first switch. -/
theorem turn_callOp : Turn s (s.callOp op) := by
  cases op with
  | create a j =>
    cases a with
    | none => exact .same rfl rfl rfl rfl
    | some a =>
      have hn : Queues s (s.threadCreate a j .user) [a] := ⟨rfl, rfl, rfl, rfl⟩
      exact .of_queues hn _ _
  | exit v => exact turn_threadExit v
  | join t =>
    change Turn s (s.threadJoin t)
    unfold Vp.threadJoin
    split_ifs
    · exact .same rfl rfl rfl rfl
    · exact .same rfl rfl rfl rfl
    · exact .same rfl rfl rfl rfl
    · exact turn_joinLoop t
  | usleep y =>
    change Turn s (s.usleep y)
    unfold Vp.usleep
    dsimp only
    split_ifs
    · exact .same rfl rfl rfl rfl
    · exact .yields rfl rfl rfl rfl
  | condTimedwait c y => exact turn_condTimedwait _ _
  | condSignal c b =>
    obtain ⟨l, hl, -⟩ := queues_condSignalLoop b (s.waitQ (.cond c)) s
    exact .of_queues hl _ _
  | mutexLock m => exact turn_mutexLock m
  | mutexUnlock m => exact turn_mutexUnlock m
  | mutexTrylock m =>
    change Turn s (s.mutexTrylock m)
    unfold Vp.mutexTrylock
    split_ifs
    · exact .same rfl rfl rfl rfl
    · exact .same rfl rfl rfl rfl
  | interrupt t => exact turn_threadInterrupt t
  | io k o n => exact turn_ioCall k o n

/-- The rest of a call. -/
theorem turn_resumeOp : Turn s (s.resumeOp op) := by
  cases op with
  | exit v =>
    refine Turn.after (s := s.modify s.current fun th => { th with term := false }) turn_threadGone rfl rfl rfl rfl
      fun t ht => ?_
    obtain rfl | hne := eq_or_ne t s.current
    · simpa [Blocked, Vp.modify] using ht
    · simpa [Blocked, Vp.modify, hne] using ht
  | join t =>
    change Turn s (s.threadJoinResume t)
    unfold Vp.threadJoinResume
    split
    · exact .same rfl rfl rfl rfl
    · refine (turn_joinLoop (s := s.condTimedwaitLeave (.term t)) t).after rfl rfl rfl rfl fun x hx => ?_
      obtain rfl | hne := eq_or_ne x s.current
      · simpa [Blocked, Vp.condTimedwaitLeave, Vp.delWaitQ, Vp.modify] using hx
      · simpa [Blocked, Vp.condTimedwaitLeave, Vp.delWaitQ, Vp.modify, hne] using hx
  | usleep y =>
    change Turn s (s.usleepResume y)
    unfold Vp.usleepResume
    dsimp only
    split_ifs
    · exact .same rfl rfl rfl rfl
    · exact .same rfl rfl rfl rfl
  | condTimedwait c y => exact .same rfl rfl rfl rfl
  | mutexLock m =>
    change Turn s (s.mutexLockResume m)
    unfold Vp.mutexLockResume
    dsimp only
    split_ifs
    · exact .same rfl rfl rfl rfl
    · exact .same rfl rfl rfl rfl
  | io k o n =>
    change Turn s (s.ioResume k o n)
    unfold Vp.ioResume
    dsimp only
    split_ifs
    · exact .same rfl rfl rfl rfl
    · exact .same rfl rfl rfl rfl
  | create | condSignal | mutexUnlock | mutexTrylock | interrupt => exact .same rfl rfl rfl rfl

/-- Who sleeps is blocked. -/
theorem blocked_of_sleeps (h : Sound s) (ht : t ∈ s.sq.links) : Blocked s t := by
  obtain ⟨hl, ho⟩ := (h.good t).of_mem_links ht
  rcases ((h.good t).of_mem hl).onSleepQ ho with hst | ⟨hst, -⟩
  · exact ⟨by rw [hst]; rintro ⟨⟩, by rw [hst]; rintro ⟨⟩⟩
  · exact ⟨by rw [hst]; rintro ⟨⟩, by rw [hst]; rintro ⟨⟩⟩

/-- **A step.** -/
theorem turn_apply (h : Sound s) {a : Vp.Action} (he : Vp.Enabled s a) : Turn s (Vp.apply s a) := by
  cases a with
  | call op => exact turn_callOp.after rfl rfl rfl rfl fun _ ht => ht
  | resume =>
    obtain ⟨op, hc⟩ := he
    change Turn s (machine.apply s .resume)
    rw [apply_resume hc]
    exact turn_resumeOp
  | idleWait b => exact .same rfl rfl rfl rfl
  | idleDrain =>
    change Turn s s.idleDrain
    unfold Vp.idleDrain
    split
    · exact .same rfl rfl rfl rfl
    · rename_i e q _
      have hq : Queues s { s with readyQ := q } [] := .same rfl rfl rfl rfl
      exact .stays (hq.trans (queues_wake e.thread .io))
  | idleClock now =>
    obtain ⟨l, hl, hq⟩ := queues_checkClockLoop s.sq.links (now - s.lastClock) { s with lastClock := now }
    have hn : Queues s { s with lastClock := now } [] := .same rfl rfl rfl rfl
    have hy : Queues (s.vpCheckClock now)
        (((s.vpCheckClock now).setState s.current .runnable).setCtx s.current (.idle .wait)) [] :=
      .same rfl rfl rfl rfl
    refine .switches ((hn.trans hl).trans hy) fun t ht => blocked_of_sleeps h (hq t ?_)
    simpa using ht
  | complete e n =>
    change Turn s (s.complete e n)
    unfold Vp.complete
    dsimp only
    split_ifs
    · exact .same rfl rfl rfl rfl
    · exact .same rfl rfl rfl rfl

/-! ### The order of the switches -/

/-- The scheduler, with the threads it has switched to. -/
structure Log where
  vp : Vp
  ran : List ThreadPtr

/-- Whom a step switches to, if that is not the idle thread. -/
def switched (s s' : Vp) : List ThreadPtr :=
  if s'.current = s.current ∨ s'.current = s'.idle then [] else [s'.current]

def Log.apply (s : Log) (a : Vp.Action) : Log :=
  ⟨Vp.apply s.vp a, s.ran ++ switched s.vp (Vp.apply s.vp a)⟩

def machine : Machine Log Vp.Action where
  init s := Model.machine.init s.vp ∧ s.ran = []
  enabled s := Vp.Enabled s.vp
  apply := Log.apply

/-- The I/O of the run is calm. -/
def Calm (s : Log) : Vp.Action → Prop := Calls.Calm s.vp

variable {r r' : Log} {a : Vp.Action}

theorem reachVia_vp (h : ReachVia machine Calm r) : ReachVia Model.machine Calls.Calm r.vp := by
  induction h with
  | init hi => exact .init hi.1
  | step _ he hok ih => exact .step ih he hok

/-- Who is in the run queue is runnable and is not the idle thread. -/
theorem of_mem_runQ (h : Sound s) (ht : t ∈ s.runQ) :
    t ∈ s.live ∧ (s.thr t).state = .runnable ∧ t ≠ s.idle := by
  have hc : 0 < (view s t).runs := List.count_pos_iff.mpr ht
  rw [(h.good t).runs] at hc
  by_cases hr : (view s t).alive = 1 ∧ (view s t).th.state = .runnable ∧ (view s t).isIdle = false
  · exact ⟨live_of_alive hr.1, hr.2.1, by simpa [view] using hr.2.2⟩
  · rw [if_neg hr] at hc
    exact absurd hc (lt_irrefl 0)

/-- The idle thread is never blocked. -/
theorem not_blocked_idle (h : Sound s) : ¬ Blocked s s.idle := by
  rintro ⟨hr, hn⟩
  have hg := (h.good s.idle).of_mem h.idleLive
  obtain ⟨p, hp⟩ := hg.idle.mp (by simp [view])
  rcases hg.blocked with hst | hst | hst
  · exact hr hst
  · exact hn hst
  · rw [hp] at hst
    cases hst

/-- `_st_vp_schedule`. -/
theorem vpSchedule_spec (s : Vp) : readied s.vpSchedule.trace = readied s.trace ∧ s.vpSchedule.idle = s.idle ∧
    (s.runQ = s.vpSchedule.current :: s.vpSchedule.runQ ∨
      s.runQ = [] ∧ s.vpSchedule.runQ = [] ∧ s.vpSchedule.current = s.idle) := by
  unfold Vp.vpSchedule
  split
  · rename_i x q hq
    have hdel : (s.delRunQ x).runQ = q := by simp [Vp.delRunQ, hq]
    refine ⟨rfl, rfl, .inl ?_⟩
    change s.runQ = x :: (s.delRunQ x).runQ
    rw [hdel, hq]
  · rename_i hq
    exact ⟨rfl, rfl, .inr ⟨hq, hq, rfl⟩⟩

/-- A step of the scheduler: the threads made runnable go behind those in the run queue, and the first of
all these is the one that is switched to. -/
theorem switched_turn (h : Sound s) (hw : Awake s) (ht : Turn s s') :
    ∃ l, readied s'.trace = readied s.trace ++ l ∧ s.runQ ++ l = switched s s' ++ s'.runQ ∧
      (s'.current = s'.idle → s.current ≠ s'.idle → s'.runQ = []) := by
  cases ht with
  | stays hq =>
    refine ⟨_, hq.trace, ?_, fun hi hne => absurd (hq.current.symm.trans hi) hne⟩
    rw [switched, if_pos (.inl hq.current), hq.runQ]
    rfl
  | @switches s₁ l hq hl =>
    obtain ⟨htr, hid, hnext⟩ := vpSchedule_spec s₁
    refine ⟨l, htr.trans hq.trace, ?_⟩
    rcases hnext with hrun | ⟨hrun, hrun', hcur⟩
    · -- who is switched to was in the run queue or blocked, and so is neither of these two
      have hmem : s₁.vpSchedule.current ∈ s.runQ ++ l := by
        rw [← hq.runQ, hrun]
        exact List.mem_cons_self
      have hne : s₁.vpSchedule.current ≠ s.current ∧ s₁.vpSchedule.current ≠ s.idle := by
        rcases List.mem_append.mp hmem with hm | hm
        · obtain ⟨-, hst, hni⟩ := of_mem_runQ h hm
          refine ⟨fun he => ?_, hni⟩
          rw [he, hw.2] at hst
          cases hst
        · exact ⟨fun he => (hl _ hm).1 (he ▸ hw.2), fun he => not_blocked_idle h (he ▸ hl _ hm)⟩
      rw [hid, hq.idle]
      refine ⟨?_, fun hi => absurd hi hne.2⟩
      rw [switched, if_neg (not_or.mpr ⟨hne.1, by rw [hid, hq.idle]; exact hne.2⟩), ← hq.runQ, hrun]
      rfl
    · refine ⟨?_, fun _ _ => hrun'⟩
      rw [switched, if_pos (.inr (hcur.trans hid.symm)), ← hq.runQ, hrun, hrun']
      rfl

/-- Those that were switched to, and those that are going to be, are all that were made runnable. -/
def InOrder (r : Log) : Prop := r.ran ++ r.vp.runQ = readied r.vp.trace

theorem inOrder_apply (h : Sound r.vp ∧ Awake r.vp) (hr : InOrder r) (he : Vp.Enabled r.vp a) :
    InOrder (r.apply a) := by
  obtain ⟨l, htr, hq, -⟩ := switched_turn h.1 h.2 (turn_apply h.1 he)
  calc (r.ran ++ switched r.vp (Vp.apply r.vp a)) ++ (Vp.apply r.vp a).runQ
      = r.ran ++ (r.vp.runQ ++ l) := by rw [List.append_assoc, hq]
    _ = readied r.vp.trace ++ l := by rw [← List.append_assoc, hr]
    _ = readied (Vp.apply r.vp a).trace := htr.symm

theorem inOrder_reach (h : ReachVia machine Calm r) : InOrder r := by
  refine h.invariant_of (I := fun r => Sound r.vp ∧ Awake r.vp) (fun r hr => sound_reach (reachVia_vp hr)) ?_
    fun r a hr ho he _ => inOrder_apply hr ho he
  rintro r ⟨⟨i, p, now, -, hvp⟩, hran⟩
  have hrun : r.vp.runQ = [] := by
    rw [hvp]
    simp [Vp.stInit, Vp.threadCreate, Vp.addRunQ, Vp.delRunQ, Vp.log, Vp.modify, Vp.blank]
  have htr : r.vp.trace = [] := by rw [hvp]; rfl
  rw [InOrder, hran, hrun, htr]
  rfl

/-- **Threads run in the order in which they are made runnable**: those that were switched to, and then
those in the run queue, are all that were made runnable, in order; and a step that switches to the idle
thread leaves nobody in the run queue. -/
theorem dispatched_fifo (h : ReachVia machine Calm r) :
    r.ran ++ r.vp.runQ = readied r.vp.trace ∧
      ∀ a, Vp.Enabled r.vp a → r.vp.current ≠ (r.apply a).vp.idle →
        (r.apply a).vp.current = (r.apply a).vp.idle → (r.apply a).vp.runQ = [] := by
  obtain ⟨hs, hw⟩ := sound_reach (reachVia_vp h)
  refine ⟨inOrder_reach h, fun a he hne hcur => ?_⟩
  obtain ⟨-, -, -, hidle⟩ := switched_turn hs hw (turn_apply hs he)
  exact hidle hcur hne

/-- What a run adds to the threads that were switched to and to those that were made runnable. -/
theorem extends_foldl : ∀ (as : List Vp.Action) {r : Log}, ReachVia machine Calm r → Enables machine Calm r as →
    ∃ d l, (as.foldl machine.apply r).ran = r.ran ++ d ∧
      readied (as.foldl machine.apply r).vp.trace = readied r.vp.trace ++ l
  | [], r, _, _ => ⟨[], [], by simp, by simp⟩
  | a :: as, r, h, ⟨⟨he, hok⟩, has⟩ => by
    obtain ⟨hs, hw⟩ := sound_reach (reachVia_vp h)
    obtain ⟨l, htr, -, -⟩ := switched_turn hs hw (turn_apply hs he)
    obtain ⟨d', l', hran, hrd⟩ := extends_foldl as (h.step he hok) has
    refine ⟨switched r.vp (Vp.apply r.vp a) ++ d', l ++ l', ?_, ?_⟩
    · rw [List.foldl_cons, hran, ← List.append_assoc]
      rfl
    · rw [List.foldl_cons, hrd, ← List.append_assoc, ← htr]
      rfl

theorem nodup_runQ (h : Sound s) : s.runQ.Nodup := by
  refine List.nodup_iff_count.mpr fun t => ?_
  have hr : (view s t).runs ≤ 1 := by
    rw [(h.good t).runs]
    split_ifs <;> omega
  exact hr

/-- **A runnable thread waits for those before it**, fewer than there are threads, each of them once: in
whatever goes on from there, only they are switched to before it. -/
theorem bounded_wait (h : ReachVia machine Calm r) (hq : r.vp.runQ = l ++ t :: l') (as : List Vp.Action)
    (he : Enables machine Calm r as) :
    l.Nodup ∧ l.length + 1 < r.vp.live.length ∧
      ∃ d, (as.foldl machine.apply r).ran = r.ran ++ d ∧ (d <+: l ∨ l ++ [t] <+: d) := by
  have hs := (sound_reach (reachVia_vp h)).1
  have hnd : (l ++ t :: l').Nodup := hq ▸ nodup_runQ hs
  refine ⟨hnd.of_append_left, ?_, ?_⟩
  · -- the threads up to `t` and the idle thread are different threads that exist
    have hidle : r.vp.idle ∉ l ++ t :: l' := fun hm => (of_mem_runQ hs (hq ▸ hm)).2.2 rfl
    have hsub : (r.vp.idle :: (l ++ t :: l')).Subperm r.vp.live := by
      refine (List.nodup_cons.mpr ⟨hidle, hnd⟩).subperm fun x hx => ?_
      rcases List.mem_cons.mp hx with rfl | hx
      · exact hs.idleLive
      · exact (of_mem_runQ hs (hq ▸ hx)).1
    have hlen := hsub.length_le
    simp only [List.length_cons, List.length_append] at hlen
    omega
  · obtain ⟨d, m, hran, hrd⟩ := extends_foldl as h he
    refine ⟨d, hran, ?_⟩
    have h₀ : r.ran ++ r.vp.runQ = readied r.vp.trace := inOrder_reach h
    have h₁ : (as.foldl machine.apply r).ran ++ (as.foldl machine.apply r).vp.runQ =
        readied (as.foldl machine.apply r).vp.trace := inOrder_reach (h.foldl as he)
    rw [hran, hrd, ← h₀, hq, List.append_assoc, List.append_assoc] at h₁
    have hd : d ++ (as.foldl machine.apply r).vp.runQ = (l ++ [t]) ++ (l' ++ m) := by
      rw [List.append_cancel_left h₁]
      simp
    have hp : d <+: (l ++ [t]) ++ (l' ++ m) := ⟨_, hd⟩
    have hp' : l ++ [t] <+: (l ++ [t]) ++ (l' ++ m) := List.prefix_append _ _
    rcases List.prefix_or_prefix_of_prefix hp hp' with hdl | hdl
    · rcases List.prefix_concat_iff.mp hdl with rfl | hdl
      · exact .inr (List.prefix_refl _)
      · exact .inl hdl
    · exact .inr hdl

/-! ### A run -/

/-- The primordial thread creates two others and sleeps; the first of them does so too. -/
def sleepRun : List Vp.Action :=
  [.call (.create (some 3) false), .call (.create (some 4) false), .call (.usleep 100), .call (.usleep 50)]

def start : Log := ⟨Vp.stInit 1 2 0, []⟩

theorem reach_start : ReachVia machine Calm start := .init ⟨⟨1, 2, 0, by decide, rfl⟩, rfl⟩

instance decidableLog (r : Log) (a : Vp.Action) : Decidable (machine.enabled r a) :=
  inferInstanceAs (Decidable (Vp.Enabled r.vp a))

instance decidableCalmLog (r : Log) (a : Vp.Action) : Decidable (Calm r a) :=
  inferInstanceAs (Decidable (Calls.Calm r.vp a))

theorem sleepRun_fifo :
    (sleepRun.foldl machine.apply start).ran ++ (sleepRun.foldl machine.apply start).vp.runQ =
      readied (sleepRun.foldl machine.apply start).vp.trace :=
  (dispatched_fifo (reach_start.foldl sleepRun (by decide +kernel))).1

theorem sleepRun_waits :
    ∃ d, (sleepRun.foldl machine.apply start).ran = ((sleepRun.take 2).foldl machine.apply start).ran ++ d ∧
      (d <+: [3] ∨ [3] ++ [4] <+: d) := by
  have hq : ((sleepRun.take 2).foldl machine.apply start).vp.runQ = [3] ++ 4 :: [] := by decide +kernel
  exact (bounded_wait (reach_start.foldl (sleepRun.take 2) (by decide +kernel)) hq
    (sleepRun.drop 2) (by decide +kernel)).2.2

end StNvs.Sched.Dispatch
