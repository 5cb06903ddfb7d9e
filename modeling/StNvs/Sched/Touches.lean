import StNvs.Sched.Calls

/-! # What the code of a call touches

A call, or the rest of one, is a chain of small changes (`Touch`): fields of threads, where only the
current thread changes the place it continues at; lists nobody's field depends on; and threads that leave
the sleep queue. What a call does beyond that is its own (`Special`): a sleep, a thread or an operation is
begun, a thread is interrupted, or the current thread is gone. The clock is not among it.

Unlike the moves, the touches are there in every state, whether anything is known of it or not. -/

namespace StNvs.Sched.Touches

open StNvs.Sched.Sleep StNvs.Sched.Model StNvs.Sched.Moves StNvs.Sched.Calls Function

variable {s s' : Vp} {t u x : ThreadPtr} {op : Op} {R : Vp → Vp → Prop} {c : Option Op}

/-- What any code may do to the fields of a thread. -/
structure Mild (f : Thread → Thread) : Prop where
  onSleepQ : ∀ th, (f th).onSleepQ = th.onSleepQ
  primordial : ∀ th, (f th).primordial = th.primordial
  validLen : ∀ th, (f th).validLen = th.validLen
  interrupt : ∀ th, (f th).interrupt = true → th.interrupt = true

/-- The history grows, and what returns is the call `c` of the thread `u`. -/
structure Grows (c : Option Op) (u : ThreadPtr) (s s' : Vp) : Prop where
  events : ∃ l, s'.trace = l ++ s.trace ∧ ∀ t op r, .returned t op r ∈ l → t = u ∧ c = some op
  nextIo : s.nextIo ≤ s'.nextIo

/-- One change by the code of the thread `u`, inside the call `c`; `R` is what is special about it. -/
inductive Touch (R : Vp → Vp → Prop) (c : Option Op) (u : ThreadPtr) : Vp → Vp → Prop
  | own {s : Vp} (f : Thread → Thread) : Mild f →
      (∀ th op, (f th).ctx = .within op → th.ctx = .within op ∨ c = some op) → Touch R c u s (s.modify u f)
  | other {s : Vp} (t : ThreadPtr) (f : Thread → Thread) : Mild f → (∀ th, (f th).ctx = th.ctx) →
      Touch R c u s (s.modify t f)
  | lists {s s' : Vp} : s'.thr = s.thr → s'.live = s.live → s'.sq = s.sq → s'.lastClock = s.lastClock →
      s'.inflight = s.inflight → Grows c u s s' → Touch R c u s s'
  | awaken {s : Vp} {t : ThreadPtr} : (s.thr t).onSleepQ = true → Touch R c u s (s.delSleepQ t false)
  | special {s s' : Vp} : R s s' → Touch R c u s s'

abbrev Touched (R : Vp → Vp → Prop) (c : Option Op) (u : ThreadPtr) : Vp → Vp → Prop :=
  Relation.ReflTransGen (Touch R c u)

theorem Grows.same (h : s'.trace = s.trace) (hn : s.nextIo ≤ s'.nextIo) : Grows c u s s' :=
  ⟨⟨[], h, by simp⟩, hn⟩

theorem Grows.log {e : Event} (he : ∀ t op r, e = .returned t op r → t = u ∧ c = some op) :
    Grows c u s (s.log e) :=
  ⟨⟨[e], rfl, fun t op r hm => he t op r (List.mem_singleton.mp hm).symm⟩, le_rfl⟩

theorem Grows.trans {s'' : Vp} (h : Grows c u s s') (h' : Grows c u s' s'') : Grows c u s s'' := by
  obtain ⟨⟨l, hl, hr⟩, hn⟩ := h
  obtain ⟨⟨l', hl', hr'⟩, hn'⟩ := h'
  refine ⟨⟨l' ++ l, by rw [hl', hl, List.append_assoc], fun t op r hm => ?_⟩, hn.trans hn'⟩
  exact (List.mem_append.mp hm).elim (hr' t op r) (hr t op r)

/-- The change that is special about a call of the thread `u`. -/
def Special (op : Op) (u : ThreadPtr) (s s' : Vp) : Prop :=
  match op with
  | .usleep y => s' = s.addSleepQ u y
  | .condTimedwait _ y => y ≠ noTimeout ∧ s' = s.addSleepQ u y
  | .create (some a) j =>
    s' = { s with thr := update s.thr a (Vp.newThread j .user), live := a :: s.live }
  | .exit _ => s' = { s with live := s.live.erase u }
  | .interrupt t => s' = s.modify t fun th => { th with interrupt := true }
  | .io k _ n => s' = { s with inflight := s.inflight ++ [⟨u, k, n⟩] }
  | _ => False

/-- What the current thread does inside the call `op`. -/
abbrev InCall (op : Op) (s : Vp) : Vp → Prop := Touched (Special op s.current) (some op) s.current s

/-! ### The parts of a call -/

theorem touches_lists (h : s'.thr = s.thr) (hl : s'.live = s.live) (hq : s'.sq = s.sq)
    (hc : s'.lastClock = s.lastClock) (hi : s'.inflight = s.inflight) (hg : Grows c u s s') :
    Touched R c u s s' :=
  .single (.lists h hl hq hc hi hg)

/-- An event that is not the return from a call. -/
theorem touches_log {e : Event} (he : ∀ t op r, e ≠ .returned t op r) : Touched R c u s (s.log e) :=
  touches_lists rfl rfl rfl rfl rfl (.log fun t op r h => absurd h (he t op r))

theorem touches_modify {f : Thread → Thread} (hf : Mild f) (hc : ∀ th, (f th).ctx = th.ctx) :
    Touched R c u s (s.modify t f) :=
  .single (.other t f hf hc)

theorem touches_setState (st : TState) : Touched R c u s (s.setState t st) :=
  touches_modify ⟨fun _ => rfl, fun _ => rfl, fun _ => rfl, fun _ h => h⟩ fun _ => rfl

theorem touches_setCtx (hu : s.current = u) {x : Ctx} (hx : ∀ op, x = .within op → c = some op) :
    Touched R c u s (s.setCtx s.current x) :=
  hu ▸ .single (.own _ ⟨fun _ => rfl, fun _ => rfl, fun _ => rfl, fun _ h => h⟩ fun _ op hop => .inr (hx op hop))

theorem touches_ret (hu : s.current = u) (r : Ret) : Touched R (some op) u s (s.ret op r) := by
  refine (touches_setCtx hu (x := .user) (by simp)).trans (touches_lists rfl rfl rfl rfl rfl (.log ?_))
  rintro t op' r' he
  obtain ⟨rfl, rfl, -⟩ := Event.returned.inj he
  exact ⟨hu, rfl⟩

theorem touches_clear : Touched R c u s (s.clearInterrupt t) :=
  touches_modify ⟨fun _ => rfl, fun _ => rfl, fun _ => rfl, fun _ h => nomatch h⟩ fun _ => rfl

theorem touches_clear_ret (hu : s.current = u) (r : Ret) :
    Touched R (some op) u s ((s.clearInterrupt s.current).ret op r) :=
  touches_clear.trans (touches_ret (s := s.clearInterrupt s.current) hu r)

theorem touches_makeRunnable (w : Wake) : Touched R c u s (s.makeRunnable t w) := by
  have hq : Touched R c u s ((s.setState t .runnable).addRunQ t) :=
    (touches_setState .runnable).trans (touches_lists rfl rfl rfl rfl rfl (.same rfl le_rfl))
  exact hq.trans (touches_log (by simp))

theorem touches_wake (w : Wake) : Touched R c u s (s.wake t w) := by
  unfold Vp.wake
  split
  · exact .head (.awaken ‹_›) (touches_makeRunnable w)
  · exact touches_makeRunnable w

theorem touches_vpSchedule : Touched R c u s s.vpSchedule := by
  unfold Vp.vpSchedule
  split
  · rename_i x _ _
    exact (touches_setState (t := x) .running).trans (touches_lists rfl rfl rfl rfl rfl (.same rfl le_rfl))
  · exact (touches_setState (t := s.idle) .running).trans (touches_lists rfl rfl rfl rfl rfl (.same rfl le_rfl))

theorem touches_switchContext (hu : s.current = u) : Touched R (some op) u s (s.switchContext op) :=
  (touches_setCtx hu (by simp)).trans touches_vpSchedule

theorem touches_condSignalLoop (b : Bool) : ∀ (q : List ThreadPtr) {s : Vp},
    Touched R c u s (s.condSignalLoop b q)
  | [], _ => .refl
  | t :: q, s => by
    rw [Vp.condSignalLoop]
    split_ifs
    · exact (touches_wake .signal).trans (touches_condSignalLoop b q)
    · exact touches_wake .signal
    · exact touches_condSignalLoop b q

theorem current_condSignalLoop (b : Bool) : ∀ (q : List ThreadPtr) {s : Vp},
    (s.condSignalLoop b q).current = s.current
  | [], _ => rfl
  | t :: q, s => by
    rw [Vp.condSignalLoop]
    split_ifs
    · exact (current_condSignalLoop b q).trans (Invariant.current_wake .signal)
    · exact Invariant.current_wake .signal
    · exact current_condSignalLoop b q

theorem touches_addWaitQ (w : WaitQ) : Touched R c u s (s.addWaitQ w t) :=
  touches_lists rfl rfl rfl rfl rfl (.same rfl le_rfl)

/-- To wait for a condition: without a timeout, nothing special. -/
theorem touches_condTimedwait (hu : s.current = u) (w : WaitQ) (y : UTime)
    (hR : y ≠ noTimeout → ∀ s : Vp, R s (s.addSleepQ u y)) :
    Touched R (some op) u s (s.condTimedwait w y op) := by
  subst hu
  unfold Vp.condTimedwait
  dsimp only
  split_ifs with h1 h2
  · exact touches_clear_ret rfl _
  · exact ((touches_setState .condWait).trans (touches_addWaitQ w)).trans
      (touches_switchContext (s := (s.setState s.current .condWait).addWaitQ w s.current) rfl)
  · have hq : Touched R (some op) s.current s ((s.setState s.current .condWait).addWaitQ w s.current) :=
      (touches_setState .condWait).trans (touches_addWaitQ w)
    exact (hq.tail (.special (hR h2 _))).trans (touches_switchContext (s :=
      ((s.setState s.current .condWait).addWaitQ w s.current).addSleepQ s.current y) rfl)

theorem touches_leave (hu : s.current = u) (w : WaitQ) : Touched R c u s (s.condTimedwaitLeave w) := by
  have hd : Touched R c u s (s.delWaitQ w s.current) :=
    touches_lists rfl rfl rfl rfl rfl (.same rfl le_rfl)
  subst hu
  exact hd.tail (.own _ ⟨fun _ => rfl, fun _ => rfl, fun _ => rfl, fun _ h => nomatch h⟩ (by simp))

theorem touches_joinLoop (hu : s.current = u) : Touched R (some (.join t)) u s (s.joinLoop t) := by
  unfold Vp.joinLoop
  split_ifs
  · have hz : Touched R (some (.join t)) u s (s.delZombieQ t) :=
      touches_lists rfl rfl rfl rfl rfl (.same rfl le_rfl)
    exact (hz.trans (touches_makeRunnable .join)).trans
      (touches_ret (s := (s.delZombieQ t).makeRunnable t .join) hu _)
  · exact touches_condTimedwait hu _ _ fun hy => absurd rfl hy

/-- The current thread ceases to exist. -/
theorem touches_threadGone (hu : s.current = u) (hR : ∀ s : Vp, R s { s with live := s.live.erase u }) :
    Touched R c u s s.threadGone := by
  unfold Vp.threadGone
  dsimp only
  rw [hu]
  split_ifs
  · exact .head (.special (hR s)) touches_vpSchedule
  · have hl : Touched R c u s (s.log (.stackFreed u)) := touches_log (by simp)
    exact (hl.tail (.special (hR _))).trans touches_vpSchedule

theorem touches_owner (m : ℕ) (o : Option ThreadPtr) :
    Touched R c u s { s with owner := update s.owner m o } :=
  touches_lists rfl rfl rfl rfl rfl (.same rfl le_rfl)

theorem touches_owner_ret (hu : s.current = u) (m : ℕ) (o : Option ThreadPtr) (r : Ret) :
    Touched R (some op) u s ({ s with owner := update s.owner m o }.ret op r) :=
  (touches_owner m o).trans (touches_ret (s := { s with owner := update s.owner m o }) hu r)

/-! ### The calls -/

theorem touches_threadExit (v : ℕ) : InCall (.exit v) s (s.threadExit v) := by
  by_cases ht : (s.thr s.current).term = true
  · have he : s.threadExit v = ((die v s).condSignal (.term s.current) false).vpSchedule := by
      rw [← die_eq, Vp.threadExit]
      exact if_pos (by simpa [Vp.modify] using ht)
    have hd : InCall (.exit v) s (die v s) :=
      .head (.own (fun th => { th with retval := v, state := .zombie, ctx := .within (.exit v) })
        ⟨fun _ => rfl, fun _ => rfl, fun _ => rfl, fun _ h => h⟩ (by simp))
          (touches_lists rfl rfl rfl rfl rfl (.same rfl le_rfl))
    rw [he]
    exact (hd.trans (touches_condSignalLoop _ _)).trans touches_vpSchedule
  · have hm : InCall (.exit v) s
        (s.modify s.current fun th => { th with retval := v }) :=
      touches_modify ⟨fun _ => rfl, fun _ => rfl, fun _ => rfl, fun _ h => h⟩ fun _ => rfl
    have hd : InCall (.exit v) s
        { s.modify s.current fun th => { th with retval := v } with activeCount := s.activeCount - 1 } :=
      hm.trans (touches_lists rfl rfl rfl rfl rfl (.same rfl le_rfl))
    have he : s.threadExit v = { s.modify s.current fun th => { th with retval := v } with
        activeCount := s.activeCount - 1 }.threadGone := by
      rw [Vp.threadExit]
      exact if_neg (by simpa [Vp.modify] using ht)
    rw [he]
    exact hd.trans (touches_threadGone rfl fun _ => rfl)

theorem touches_ioCall {k : IoKind} {o : Submit} {n : ℕ} :
    InCall (.io k o n) s (s.ioCall k o n) := by
  -- what follows the system call
  have hx : ∀ s' : Vp, s'.current = s.current → InCall (.io k o n) s s' →
      InCall (.io k o n) s (if Vp.waits k o then
        if (s'.thr s.current).interrupt then
          (s'.clearInterrupt s.current).ret (.io k o n) (Vp.ioResult (s'.thr s.current) k)
        else (s'.setState s.current .ioWait).switchContext (.io k o n)
      else s'.ret (.io k o n) (Vp.ioFailed k)) := by
    intro s' hcur hs
    split_ifs
    · exact hs.trans (touches_clear.trans (touches_ret (s := s'.clearInterrupt s.current) hcur _))
    · exact (hs.trans (touches_setState .ioWait)).trans (touches_switchContext hcur)
    · exact hs.trans (touches_ret hcur _)
  have hn : InCall (.io k o n) s { s with nextIo := s.nextIo + 1 } :=
    touches_lists rfl rfl rfl rfl rfl (.same rfl (Nat.le_succ _))
  refine hx (if Vp.posted k o then { s with
    nextIo := s.nextIo + 1, inflight := s.inflight ++ [⟨s.current, k, n⟩] } else
    { s with nextIo := s.nextIo + 1 }) ?_ ?_ <;> split_ifs
  · rfl
  · rfl
  · exact hn.tail (.special rfl)
  · exact hn

/-- **A call** is made of touches. -/
theorem touches_callOp : InCall op s (s.callOp op) := by
  cases op with
  | create a j =>
    cases a with
    | none => exact touches_ret rfl _
    | some a =>
      have hb : InCall (.create (some a) j) s (s.threadCreate a j .user) :=
        .head (.special rfl) (touches_lists rfl rfl rfl rfl rfl ⟨⟨[.created a], rfl, by simp⟩, le_rfl⟩)
      exact hb.trans (touches_ret (s := s.threadCreate a j .user) rfl _)
  | exit v => exact touches_threadExit v
  | join t =>
    change Touched _ _ _ _ (s.threadJoin t)
    unfold Vp.threadJoin
    split_ifs
    · exact touches_ret rfl _
    · exact touches_ret rfl _
    · exact touches_ret rfl _
    · exact touches_joinLoop rfl
  | usleep y =>
    change Touched _ _ _ _ (s.usleep y)
    unfold Vp.usleep
    dsimp only
    split_ifs
    · exact touches_clear_ret rfl _
    · have hq : InCall (.usleep y) s
          ((s.setState s.current .sleeping).addSleepQ s.current y) :=
        (touches_setState .sleeping).tail (.special rfl)
      exact hq.trans
        (touches_switchContext (s := (s.setState s.current .sleeping).addSleepQ s.current y) rfl)
  | condTimedwait c y => exact touches_condTimedwait rfl _ _ fun hy _ => ⟨hy, rfl⟩
  | condSignal c b =>
    exact (touches_condSignalLoop b _).trans (touches_ret (current_condSignalLoop b _) _)
  | mutexLock m =>
    change Touched _ _ _ _ (s.mutexLock m)
    unfold Vp.mutexLock
    dsimp only
    split_ifs
    · exact touches_clear_ret rfl _
    · exact touches_owner_ret rfl m _ _
    · exact touches_ret rfl _
    · exact ((touches_setState .lockWait).trans (touches_addWaitQ (.mutex m))).trans
        (touches_switchContext (s := (s.setState s.current .lockWait).addWaitQ (.mutex m) s.current) rfl)
  | mutexUnlock m =>
    change Touched _ _ _ _ (s.mutexUnlock m)
    unfold Vp.mutexUnlock
    split_ifs
    · exact touches_ret rfl _
    · split
      · refine ((touches_owner m _).trans (touches_makeRunnable .unlock)).trans (touches_ret ?_ _)
        rfl
      · exact touches_owner_ret rfl m _ _
  | mutexTrylock m =>
    change Touched _ _ _ _ (s.mutexTrylock m)
    unfold Vp.mutexTrylock
    split_ifs
    · exact touches_ret rfl _
    · exact touches_owner_ret rfl m _ _
  | interrupt t =>
    have hm : InCall (.interrupt t) s
        (s.modify t fun th => { th with interrupt := true }) := .single (.special rfl)
    have hf : InCall (.interrupt t) s (flag t s) :=
      hm.trans (touches_log (by simp))
    change Touched _ _ _ _ ((s.threadInterrupt t).ret _ _)
    unfold Vp.threadInterrupt
    dsimp only
    split_ifs
    · exact touches_ret rfl _
    · exact hf.trans (touches_ret (s := flag t s) rfl _)
    · exact (hf.trans (touches_wake .interrupt)).trans
        (touches_ret (s := (flag t s).wake t .interrupt) (Invariant.current_wake _) _)
  | io k o n => exact touches_ioCall

/-- **The rest of a call** is made of touches. -/
theorem touches_resumeOp (hx : ∀ v, op ≠ .exit v) : Touched R (some op) s.current s (s.resumeOp op) := by
  cases op with
  | exit v => exact absurd rfl (hx v)
  | join t =>
    change Touched _ _ _ _ (s.threadJoinResume t)
    unfold Vp.threadJoinResume
    split
    · exact (touches_leave rfl _).trans (touches_ret (s := s.condTimedwaitLeave (.term t)) rfl _)
    · exact (touches_leave rfl _).trans (touches_joinLoop (s := s.condTimedwaitLeave (.term t)) rfl)
  | usleep y =>
    change Touched _ _ _ _ (s.usleepResume y)
    unfold Vp.usleepResume
    dsimp only
    split_ifs
    · exact touches_clear_ret rfl _
    · exact touches_ret rfl _
  | condTimedwait c y =>
    exact (touches_leave rfl _).trans (touches_ret (s := s.condTimedwaitLeave (.cond c)) rfl _)
  | mutexLock m =>
    change Touched _ _ _ _ (s.mutexLockResume m)
    have hq : Touched R (some (.mutexLock m)) s.current s (s.delWaitQ (.mutex m) s.current) :=
      touches_lists rfl rfl rfl rfl rfl (.same rfl le_rfl)
    unfold Vp.mutexLockResume
    dsimp only
    split_ifs
    · exact hq.trans (touches_clear_ret (s := s.delWaitQ (.mutex m) s.current) rfl _)
    · exact hq.trans (touches_ret (s := s.delWaitQ (.mutex m) s.current) rfl _)
  | io k o n =>
    change Touched _ _ _ _ (s.ioResume k o n)
    unfold Vp.ioResume
    dsimp only
    split_ifs
    · exact touches_clear_ret rfl _
    · exact touches_ret rfl _
  | create | condSignal | mutexUnlock | mutexTrylock | interrupt => exact .refl

theorem touches_threadExitResume {v : ℕ} (hR : ∀ s₁ s₂, Special (.exit v) s.current s₁ s₂ → R s₁ s₂) :
    Touched R c s.current s s.threadExitResume := by
  have hm : Touched R c s.current s (s.modify s.current fun th => { th with term := false }) :=
    touches_modify ⟨fun _ => rfl, fun _ => rfl, fun _ => rfl, fun _ h => h⟩ fun _ => rfl
  exact hm.trans (touches_threadGone (s := s.modify s.current fun th => { th with term := false }) rfl
    fun _ => hR _ _ rfl)

/-! ### The steps -/

/-- What is special about a step, but for the clock and for completions. -/
def SpecialStep (s : Vp) : Vp.Action → Vp → Vp → Prop
  | .call op => Special op s.current
  | .resume => fun s₁ s₂ => ∃ v, (s.thr s.current).ctx = .within (.exit v) ∧
      Special (.exit v) s.current s₁ s₂
  | _ => fun _ _ => False

/-- The call a step is part of. -/
def callOf (s : Vp) : Vp.Action → Option Op
  | .call op => some op
  | .resume =>
    match (s.thr s.current).ctx with
    | .within op => some op
    | _ => none
  | _ => none

/-- **A step** is made of touches, but for the clock and for completions. -/
theorem touches_apply {a : Vp.Action} (hcl : ∀ now, a ≠ .idleClock now) (hco : ∀ e n, a ≠ .complete e n) :
    Touched (SpecialStep s a) (callOf s a) s.current s (Vp.apply s a) := by
  cases a with
  | call op =>
    have hl : InCall op s
        (s.log (.called s.current op (s.thr s.current).interrupt)) := touches_log (by simp)
    exact hl.trans (touches_callOp (s := s.log (.called s.current op (s.thr s.current).interrupt)))
  | resume =>
    rcases hc : (s.thr s.current).ctx with _ | op | p <;> simp only [Vp.apply, callOf, hc]
    · exact .refl
    · by_cases hx : ∃ v, op = .exit v
      · obtain ⟨v, rfl⟩ := hx
        exact touches_threadExitResume (v := v) fun _ _ hs => ⟨v, hc, hs⟩
      · exact touches_resumeOp fun v hv => hx ⟨v, hv⟩
    · exact .refl
  | idleWait b => exact touches_setCtx rfl (by simp)
  | idleDrain =>
    change Touched _ _ _ _ s.idleDrain
    unfold Vp.idleDrain
    split
    · exact touches_setCtx rfl (by simp)
    · rename_i e q _
      have hq : Touched (SpecialStep s .idleDrain) none s.current s { s with readyQ := q } :=
        touches_lists rfl rfl rfl rfl rfl (.same rfl le_rfl)
      exact hq.trans (touches_wake .io)
  | idleClock now => exact absurd rfl (hcl now)
  | complete e n => exact absurd rfl (hco e n)

end StNvs.Sched.Touches
