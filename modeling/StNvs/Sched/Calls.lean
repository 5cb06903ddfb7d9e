import StNvs.Sched.Invariant
import StNvs.Sched.SleepTimes
import Mathlib.Logic.Relation

/-! # The calls are made of moves

Each call of the library, and each rest of a call after a switch, is a chain of moves (`Steps`) at the
end of which the current thread runs (`made_apply`). Hence every invariant of the moves holds in every
state of a calm run (`reach_of_move`), the one of `Sched.Invariant` among them (`sound_reach`).

A run is *calm* if no operation in flight is left behind: a thread that waits for I/O is not
interrupted, and a call that starts an operation goes on to wait for it. -/

namespace StNvs.Sched.Calls

open StNvs.Sched.Sleep StNvs.Sched.Model StNvs.Sched.Moves StNvs.Sched.Threads StNvs.Sched.Invariant
  StNvs.Sched.SleepTimes
open StNvs.Lib.Runs Function

variable {s s' : Vp} {t u : ThreadPtr} {op : Op}

/-- One or more moves, about whichever threads. -/
abbrev Steps : Vp → Vp → Prop := Relation.ReflTransGen fun s s' => ∃ u, Move u s s'

theorem Steps.sound (h : Steps s s') (hi : Sound s) : Sound s' := by
  induction h with
  | refl => exact hi
  | tail _ hm ih => exact sound_move hm.choose_spec ih

theorem Steps.of_move (h : Move u s s') : Steps s s' := .single ⟨u, h⟩

/-- The current thread runs. -/
def Awake (s : Vp) : Prop := s.current ∈ s.live ∧ (s.thr s.current).state = .running

/-! ### The code of a call, as moves -/

theorem timedOut_of_runs {c : Ctx} (hi : Sound s) (hr : Runs c s) (hc : ∀ n u, c ≠ .within (.condTimedwait n u)) :
    (s.thr s.current).timedOut = false := by
  by_contra ht
  obtain ⟨-, n, u, hcc⟩ := ((hi.good _).of_mem hr.live).timedOut (by simpa using ht)
  exact hc n u (hr.ctx ▸ hcc)

theorem ret_eq_back {c : Ctx} (hi : Sound s) (hr : Runs c s) (hc : waitsOn c = none) (r : Ret) :
    s.ret op r = back op r (s.thr s.current).interrupt s := by
  have ht := timedOut_of_runs hi hr (by rintro n u rfl; simp at hc)
  simp [Vp.ret, Vp.setCtx, Vp.modify, Vp.log, back, hr.ctx, hc, ← ht]

theorem clear_ret_eq_back {c : Ctx} (hi : Sound s) (hr : Runs c s) (hc : waitsOn c = none) (r : Ret) :
    (s.clearInterrupt s.current).ret op r = back op r false s := by
  have ht := timedOut_of_runs hi hr (by rintro n u rfl; simp at hc)
  simp [Vp.ret, Vp.setCtx, Vp.modify, Vp.clearInterrupt, Vp.log, back, hr.ctx, hc, ← ht]

theorem usleep_eq (u : UTime) : ((s.setState s.current .sleeping).addSleepQ s.current u).switchContext (.usleep u) =
    (pause (.usleep u) .sleeping (some u) s).vpSchedule := by
  simp [Vp.switchContext, Vp.setState, Vp.addSleepQ, Vp.setCtx, Vp.modify, pause]

theorem addWaitQ_eq {c : Ctx} {w : WaitQ} (hw : waitsOn c = some w) : (s.addWaitQ w t).waitQ =
    fun w' => if waitsOn c = some w' then s.waitQ w' ++ [t] else s.waitQ w' := by
  funext w'
  by_cases he : w' = w
  · subst he; simp [Vp.addWaitQ, hw]
  · simp [Vp.addWaitQ, hw, update_of_ne he, Ne.symm he]

theorem condTimedwait_eq {w : WaitQ} (hw : waitsOn (.within op) = some w) (u : UTime)
    (hint : (s.thr s.current).interrupt = false) :
    s.condTimedwait w u op = (pause op .condWait (if u = noTimeout then none else some u) s).vpSchedule := by
  have := addWaitQ_eq (s := s) (t := s.current) hw
  unfold Vp.condTimedwait
  simp only [hint, Bool.false_eq_true, if_false]
  unfold Vp.addWaitQ at this
  split <;>
  simp_all [Vp.switchContext, Vp.setState, Vp.addSleepQ, Vp.addWaitQ, Vp.setCtx, Vp.modify, pause]

theorem delWaitQ_eq {c : Ctx} {w : WaitQ} (hw : waitsOn c = some w) : (s.delWaitQ w t).waitQ =
    fun w' => if waitsOn c = some w' then (s.waitQ w').erase t else s.waitQ w' := by
  funext w'
  by_cases he : w' = w
  · subst he; simp [Vp.delWaitQ, hw]
  · simp [Vp.delWaitQ, hw, update_of_ne he, Ne.symm he]

/-- Leaving a wait for a condition and returning. -/
theorem leave_ret_eq_back {w : WaitQ} (hw : waitsOn (s.thr s.current).ctx = some w) (r : Ret) :
    (s.condTimedwaitLeave w).ret op r = back op r false s := by
  have := delWaitQ_eq (s := s) (t := s.current) hw
  unfold Vp.delWaitQ at this
  simp_all [Vp.condTimedwaitLeave, Vp.ret, Vp.setCtx, Vp.modify, Vp.delWaitQ, Vp.log, back]

/-! ### Moves one after the other -/

/-- What a call comes to: moves, after which the current thread runs. -/
def Made (s s' : Vp) : Prop := Steps s s' ∧ Awake s'

theorem Steps.trans_made {s'' : Vp} (h : Steps s s') (hm : Made s' s'') : Made s s'' :=
  ⟨h.trans hm.1, hm.2⟩

/-- The current thread returns. -/
theorem made_reply {r : Ret} {i : Bool} (hi : In op s) (hr : Replies s op r i) :
    Made s (back op r i s) :=
  ⟨.of_move (.reply hi hr), hi.live, (congrArg Thread.state (thr_back op r i)).trans hi.state⟩

theorem made_answer {r : Ret} {i : Bool} (hr : Runs (.within op) s) (ha : Answers s op r i) :
    Made s (back op r i s) :=
  ⟨.of_move (.answer hr ha), hr.live, (congrArg Thread.state (thr_back op r i)).trans hr.state⟩

/-- The current thread has stopped running, and another is scheduled. -/
theorem made_schedule (h : Sound s) (hs : s.current ∈ s.live → (s.thr s.current).state ≠ .running) :
    Made s s.vpSchedule := by
  have hn : ∀ t ∈ s.live, (s.thr t).state ≠ .running := fun t ht hst => by
    have he := h.only t ht hst
    subst he
    exact hs ht hst
  obtain ⟨hl, -, -⟩ := scheduled_runnable h.good h.idleLive hn
  exact ⟨.of_move (.schedule hn), live_vpSchedule.symm ▸ hl, by simp⟩

theorem made_move_schedule (h : Sound s) (hm : Move u s s')
    (hs : s'.current ∈ s'.live → (s'.thr s'.current).state ≠ .running) :
    Made s s'.vpSchedule :=
  (Steps.of_move hm).trans_made (made_schedule (sound_move hm h) hs)

/-- Moves about other threads than the current one. -/
structure Aside (s s' : Vp) : Prop where
  steps : Steps s s'
  current : s'.current = s.current
  view : view s' s.current = view s s.current

theorem Aside.refl (s : Vp) : Aside s s := ⟨.refl, rfl, rfl⟩

theorem Aside.of_move (hm : Move u s s') (hu : u ≠ s.current) (hc : s'.current = s.current) :
    Aside s s' :=
  ⟨.of_move hm, hc, hm.view_of_ne s.current hu.symm⟩

theorem Aside.trans {s'' : Vp} (h : Aside s s') (h' : Aside s' s'') : Aside s s'' := by
  refine ⟨h.steps.trans h'.steps, h'.current.trans h.current, ?_⟩
  have hv := h'.view
  rw [h.current] at hv
  exact hv.trans h.view

theorem Aside.runs {c : Ctx} (h : Aside s s') (hr : Runs c s) : Runs c s' := by
  obtain ⟨hl, hs, hx⟩ := hr
  have ht := thr_of_view h.view
  exact ⟨h.current ▸ (live_of_view h.view).mpr hl, h.current ▸ ht ▸ hs, h.current ▸ ht ▸ hx⟩

/-- They leave the current thread in its call. -/
theorem Aside.in (h : Aside s s') (hi : In op s) : In op s' :=
  ⟨h.runs hi.toRuns, by rw [h.current, h.view]; exact hi.opened⟩

theorem Aside.made {s'' : Vp} (h : Aside s s') (hm : Made s' s'') : Made s s'' :=
  h.steps.trans_made hm

/-! ### The calls, from the start -/

section Calls
variable (h : Sound s)
include h

theorem made_ret (hi : In op s) {r : Ret} (hr : Replies s op r (s.thr s.current).interrupt) :
    Made s (s.ret op r) := by
  rw [ret_eq_back h hi.toRuns rfl]
  exact made_reply hi hr

theorem made_intr (hi : In op s) (hc : checksInterrupt op = true) (hint : (s.thr s.current).interrupt = true) :
    Made s ((s.clearInterrupt s.current).ret op (.fail .eintr)) := by
  rw [clear_ret_eq_back h hi.toRuns rfl]
  exact made_reply hi (.intr hint hc)

theorem made_pause {st : TState} {x : Option UTime} (hi : In op s)
    (hint : (s.thr s.current).interrupt = false) (hp : Pauses s op st x) :
    Made s (pause op st x s).vpSchedule := by
  refine made_move_schedule h (.pause hi hint hp) fun _ => ?_
  cases hp <;> simp [pause]

theorem made_usleep {u : UTime} (hi : In (.usleep u) s) : Made s (s.usleep u) := by
  unfold Vp.usleep
  dsimp only
  split_ifs with hint
  · exact made_intr h hi rfl hint
  · rw [usleep_eq]
    exact made_pause h hi (by simpa using hint) (.usleep u)

theorem made_condTimedwait {c : ℕ} {u : UTime} (hi : In (.condTimedwait c u) s) :
    Made s (s.condTimedwait (.cond c) u (.condTimedwait c u)) := by
  by_cases hint : (s.thr s.current).interrupt = true
  · simp only [Vp.condTimedwait, hint, if_true]
    exact made_intr h hi rfl hint
  · rw [condTimedwait_eq rfl u (by simpa using hint)]
    refine made_pause h hi (by simpa using hint) ?_
    split_ifs with hu
    · exact hu ▸ .condForever c
    · exact .cond c hu

theorem made_joinLoop {t : ThreadPtr} (hi : In (.join t) s) (ht : t ∈ s.live) (htm : (s.thr t).term = true)
    (hj : ¬ s.Joined t) (hne : t ≠ s.current)
    (hw : s.waitQ (.term t) = []) : Made s (s.joinLoop t) := by
  by_cases hz : (s.thr t).state = .zombie
  · simp only [Vp.joinLoop, hz, if_true]
    have hm := Move.join hi ht hz hw
    have ha := Aside.of_move hm hne rfl
    refine ha.made (made_ret (sound_move hm h) (ha.in hi) ?_)
    have hx := ((h.good t).of_mem ht).exiting hz
    have hret : (s.thr t).retval = (((s.delZombieQ t).makeRunnable t .join).thr t).retval := by simp [Vp.delZombieQ]
    rw [hret]
    exact .joined ht ⟨by simpa [Vp.delZombieQ] using hx, by simp⟩
  · simp only [Vp.joinLoop, hz, if_false]
    by_cases hint : (s.thr s.current).interrupt = true
    · simp only [Vp.condTimedwait, hint, if_true]
      exact made_intr h hi rfl hint
    · rw [condTimedwait_eq rfl _ (by simpa using hint)]
      exact made_pause h hi (by simpa using hint) (.join hne ht htm hj hw)

theorem made_threadJoin {t : ThreadPtr} (hi : In (.join t) s) (ht : t ∈ s.live) (hj : ¬ s.Joined t) :
    Made s (s.threadJoin t) := by
  unfold Vp.threadJoin
  split_ifs with htm hme hw
  · exact made_ret h hi (.notJoined (.inl rfl))
  · exact made_ret h hi (.notJoined (.inr rfl))
  · exact made_ret h hi (.notJoined (.inl rfl))
  · exact made_joinLoop h hi ht (by simpa using htm) hj (Ne.symm hme) (by simpa using hw)

theorem made_mutexLock {m : ℕ} (hi : In (.mutexLock m) s) : Made s (s.mutexLock m) := by
  unfold Vp.mutexLock
  dsimp only
  split_ifs with hint hfree hme
  · exact made_intr h hi rfl hint
  · have hm := Move.acquire (.inl hi) hfree
    refine (Steps.of_move hm).trans_made (made_ret (sound_move hm h) ⟨⟨hi.live, hi.state, hi.ctx⟩, hi.opened⟩ ?_)
    have hint' : (s.thr s.current).interrupt = false := by simpa using hint
    rw [hint']
    exact .lock hint' (by simp) (.inl rfl)
  · have hint' : (s.thr s.current).interrupt = false := by simpa using hint
    refine made_ret h hi ?_
    rw [hint']
    exact .lock hint' hme (.inr rfl)
  · have he : ((s.setState s.current .lockWait).addWaitQ (.mutex m) s.current).switchContext (.mutexLock m) =
        (pause (.mutexLock m) .lockWait none s).vpSchedule := by
      have := addWaitQ_eq (s := s) (t := s.current) (waitsOn_mutexLock m)
      unfold Vp.addWaitQ at this
      simp_all [Vp.switchContext, Vp.setState, Vp.addWaitQ, Vp.setCtx, Vp.modify, pause]
    rw [he]
    obtain ⟨x, hx⟩ := Option.ne_none_iff_exists'.mp hfree
    exact made_pause h hi (by simpa using hint) (.lock hx fun hxm => hme (hxm ▸ hx))

theorem made_mutexUnlock {m : ℕ} (hi : In (.mutexUnlock m) s) : Made s (s.mutexUnlock m) := by
  unfold Vp.mutexUnlock
  split_ifs with hme
  · exact made_ret h hi (.other rfl (by simp) (by simp) (by simp))
  · have hown : s.owner m = some s.current := by simpa using hme
    split
    · rename_i t ht
      have hlock : (s.thr t).state = .lockWait := by simpa using List.find?_some ht
      have hm := Move.handOff hi hown (List.mem_of_find?_eq_some ht) hlock
      have ha := Aside.of_move hm (fun he => by simp [he, hi.state] at hlock) rfl
      exact ha.made (made_ret (sound_move hm h) (ha.in hi) (.other rfl (by simp) (by simp) (by simp)))
    · rename_i hnone
      have hm := Move.release hi hown (fun t ht => by simpa using List.find?_eq_none.mp hnone t ht)
      exact (Steps.of_move hm).trans_made (made_ret (sound_move hm h) ⟨⟨hi.live, hi.state, hi.ctx⟩,
        hi.opened⟩ (.other rfl (by simp) (by simp) (by simp)))

theorem made_mutexTrylock {m : ℕ} (hi : In (.mutexTrylock m) s) : Made s (s.mutexTrylock m) := by
  unfold Vp.mutexTrylock
  split_ifs with hfree
  · exact made_ret h hi .busy
  · have hm := Move.acquire (.inr hi) (by simpa using hfree)
    exact (Steps.of_move hm).trans_made (made_ret (sound_move hm h) ⟨⟨hi.live, hi.state, hi.ctx⟩,
      hi.opened⟩ (.trylock (by simp)))


end Calls

/-! ### Loops over a queue -/

/-- The signal wakes waiters, one after the other; the current thread is not one of them. -/
theorem aside_condSignalLoop (b : Bool) : ∀ (q : List ThreadPtr) {s : Vp}, (∀ t ∈ q, t ∈ s.live) →
    (s.thr s.current).state ≠ .condWait → Aside s (s.condSignalLoop b q)
  | [], s, _, _ => .refl s
  | t :: q, s, hq, hc => by
    unfold Vp.condSignalLoop
    split_ifs with ht hb
    · have ha := Aside.of_move (.signal (hq t (by simp)) ht) (fun he => hc (he ▸ ht))
        (current_wake .signal)
      refine ha.trans (aside_condSignalLoop b q ?_ ?_)
      · exact fun x hx => (live_wake .signal).symm ▸ hq x (List.mem_cons_of_mem t hx)
      · rw [ha.current, thr_of_view ha.view]; exact hc
    · exact .of_move (.signal (hq t (by simp)) ht) (fun he => hc (he ▸ ht)) (current_wake .signal)
    · exact aside_condSignalLoop b q (fun x hx => hq x (List.mem_cons_of_mem t hx)) hc

theorem aside_condSignal (h : Sound s) (w : WaitQ) (b : Bool)
    (hc : (s.thr s.current).state ≠ .condWait) : Aside s (s.condSignal w b) :=
  aside_condSignalLoop b _ (fun t ht => ((h.good t).of_mem_waitQ ht).1) hc

/-- The clock makes sleepers runnable, one after the other; the current thread does not sleep. -/
theorem aside_checkClockLoop : ∀ (q : List ThreadPtr) (e : UTime) {s : Vp}, Sound s → q.Nodup →
    (∀ t ∈ q, t ∈ s.sq.links) →
    Awake s → Aside s (s.checkClockLoop e q)
  | [], _, s, _, _, _, _ => .refl s
  | t :: q, e, s, h, hnd, hq, hs => by
    unfold Vp.checkClockLoop
    split_ifs with he
    · have hm := Move.tick (s := s) (update s.sq.sleep t (s.sq.sleep t - e)) (s.sq.sleepMax - e) s.lastClock
      exact ⟨.of_move hm, rfl, rfl⟩
    · obtain ⟨ht, hon⟩ := (h.good t).of_mem_links (hq t (by simp))
      have hne : t ≠ s.current := fun heq => by
        rcases ((h.good t).of_mem ht).onSleepQ hon with hst | ⟨hst, -⟩ <;>
          simp [heq, hs.2] at hst
      have hm := Move.expire ht hon
      have ha := Aside.of_move hm hne current_expireThread
      refine ha.trans (aside_checkClockLoop q _ (sound_move hm h) (List.nodup_cons.mp hnd).2 ?_ ?_)
      · intro x hx
        rw [sq_expireThread, links_del]
        refine (List.mem_erase_of_ne fun heq => ?_).mpr (hq x (List.mem_cons_of_mem t hx))
        exact (List.nodup_cons.mp hnd).1 (heq ▸ hx)
      · refine ⟨?_, ?_⟩
        · rw [ha.current]; exact live_expireThread.symm ▸ hs.1
        · rw [ha.current, thr_of_view ha.view]; exact hs.2

/-! ### The other calls, from the start -/

theorem eq_join_of_waitsOn {c : Ctx} {t : ThreadPtr} (hc : waitsOn c = some (.term t)) :
    c = .within (.join t) := by
  match c, hc with
  | .within (.join _), hc => simpa using hc

theorem threadGone_eq (f : Thread → Thread) (n : ℤ) :
    { s.modify s.current f with activeCount := n }.threadGone = (depart f n s).vpSchedule := by
  unfold Vp.threadGone
  dsimp only
  split <;> rename_i hp <;> simp [depart, Vp.modify, Vp.log] at hp ⊢ <;> simp [hp]

theorem die_eq (v : ℕ) : (({ s.modify s.current (fun th => { th with retval := v }) with
    activeCount := s.activeCount - 1 }.setState s.current .zombie).setCtx s.current
      (.within (.exit v))).addZombieQ s.current = die v s := by
  simp [Vp.setState, Vp.setCtx, Vp.modify, Vp.addZombieQ, die]

theorem ioPause_eq (k : IoKind) (o : Submit) (n : ℕ) :
    (s.setState s.current .ioWait).switchContext (.io k o n) =
      (pause (.io k o n) .ioWait none s).vpSchedule := by
  simp [Vp.switchContext, Vp.setState, Vp.setCtx, Vp.modify, pause]

theorem posted_of_waits {k : IoKind} {o : Submit} (hw : Vp.waits k o = true) :
    Vp.posted k o = true := by
  cases k <;> simp_all [Vp.waits, Vp.posted]

section MoreCalls
variable (h : Sound s)
include h

theorem made_condSignal {c : ℕ} {b : Bool} (hi : In (.condSignal c b) s) :
    Made s ((s.condSignal (.cond c) b).ret (.condSignal c b) .ok) := by
  have ha := aside_condSignal h (.cond c) b (by simp [hi.state])
  exact ha.made (made_ret (ha.steps.sound h) (ha.in hi) (.other rfl (by simp) (by simp) (by simp)))

/-- Nobody waits for the end of a thread that does not exist. -/
theorem waitQ_term_of_not_live (ht : t ∉ s.live) : s.waitQ (.term t) = [] := by
  refine List.eq_nil_iff_forall_not_mem.mpr fun x hx => ?_
  obtain ⟨hl, hw⟩ := (h.good x).of_mem_waitQ hx
  exact ht (h.joins.target x hl t (eq_join_of_waitsOn hw)).2.1

theorem made_create {a : ThreadPtr} {j : Bool} (hi : In (.create (some a) j) s) (ha : a ∉ s.live) :
    Made s ((s.threadCreate a j .user).ret (.create (some a) j) (.created (some a))) := by
  have hm := Move.create hi ha (waitQ_term_of_not_live h ha)
  have has := Aside.of_move hm (fun he => ha (he ▸ hi.live)) rfl
  exact has.made (made_ret (sound_move hm h) (has.in hi) (.other rfl (by simp) (by simp) (by simp)))

theorem made_depart {f : Thread → Thread} {n : ℤ} (hm : Move s.current s (depart f n s)) :
    Made s (depart f n s).vpSchedule := by
  refine made_move_schedule h hm fun hl => ?_
  exact absurd hl (nodup_live h.good).not_mem_erase

theorem made_threadExit {v : ℕ} (hi : In (.exit v) s) : Made s (s.threadExit v) := by
  by_cases htm : (s.thr s.current).term = true
  · have hm := Move.die hi htm
    have ha := aside_condSignal (sound_move hm h) (.term s.current) false
      (by change ((die v s).thr s.current).state ≠ _; simp)
    have he : s.threadExit v = ((die v s).condSignal (.term s.current) false).vpSchedule := by
      rw [← die_eq, Vp.threadExit]
      exact if_pos (by simpa [Vp.modify] using htm)
    rw [he]
    refine Steps.trans_made ((Steps.of_move hm).trans ha.steps)
      (made_schedule (ha.steps.sound (sound_move hm h)) fun _ => ?_)
    rw [ha.current, thr_of_view ha.view]
    change ((die v s).thr s.current).state ≠ _
    simp
  · have he : s.threadExit v =
        (depart (fun th => { th with retval := v }) (s.activeCount - 1) s).vpSchedule := by
      rw [← threadGone_eq, Vp.threadExit]
      exact if_neg (by simpa [Vp.modify] using htm)
    rw [he]
    exact made_depart h (.depart hi (by simpa using htm))

theorem made_threadExitResume {v : ℕ} (hr : Runs (.within (.exit v)) s) : Made s s.threadExitResume := by
  have he : s.threadExitResume =
      (depart (fun th => { th with term := false }) s.activeCount s).vpSchedule :=
    (threadGone_eq _ _).symm ▸ rfl
  rw [he]
  exact made_depart h (.cleanup hr)

theorem made_threadInterrupt {t : ThreadPtr} (hi : In (.interrupt t) s) (ht : t ∈ s.live)
    (hio : (s.thr t).state ≠ .ioWait) :
    Made s ((s.threadInterrupt t).ret (.interrupt t) .ok) := by
  -- whatever is done to `t`, the current thread is still in the call
  suffices hm : ∃ u, s.threadInterrupt t = s ∨ Move u s (s.threadInterrupt t) ∧
    In (.interrupt t) (s.threadInterrupt t) by
    obtain ⟨u, he | ⟨hm, hi'⟩⟩ := hm
    · rw [he]; exact made_ret h hi (.other rfl (by simp) (by simp) (by simp))
    · exact (Steps.of_move hm).trans_made (made_ret (sound_move hm h) hi' (.other rfl (by simp) (by simp) (by simp)))
  refine ⟨t, ?_⟩
  by_cases hz : (s.thr t).state = .zombie
  · exact .inl (by simp [Vp.threadInterrupt, hz])
  refine .inr ?_
  have hst : ((flag t s).thr t).state = (s.thr t).state := by simp
  by_cases hrun : (s.thr t).state = .running ∨ (s.thr t).state = .runnable
  · have he : s.threadInterrupt t = flag t s := by
      simp only [Vp.threadInterrupt, hz, if_false]
      exact if_pos (hst ▸ hrun)
    rw [he]
    refine ⟨.flag ht hrun, ?_⟩
    by_cases hne : t = s.current
    · subst hne
      obtain ⟨p, hp⟩ := hi.opened
      have hv := view_flag (s := s) (u := s.current)
      exact ⟨⟨hi.live, hst.trans hi.state, (congrArg Thread.ctx thr_flag).trans hi.ctx⟩, p,
        (congrArg (openCall ·.log) hv).trans hp⟩
    · exact (Aside.of_move (.flag ht hrun) hne rfl).in hi
  · have he : s.threadInterrupt t = (flag t s).wake t .interrupt := by
      simp only [Vp.threadInterrupt, hz, if_false]
      exact if_neg (hst ▸ hrun)
    have hb : (s.thr t).state = .condWait ∨ (s.thr t).state = .lockWait ∨ (s.thr t).state = .sleeping := by
      cases hc : (s.thr t).state <;> simp_all
    have hm := Move.interrupt ht hb
    rw [he]
    exact ⟨hm, (Aside.of_move hm (fun hx => hrun (.inl (hx ▸ hi.state))) (current_wake _)).in hi⟩

theorem made_ioCall {k : IoKind} {o : Submit} {n : ℕ} (hi : In (.io k o n) s) (hn : n = s.nextIo)
    (hcalm : Vp.posted k o = true → Vp.waits k o = true ∧ (s.thr s.current).interrupt = false) :
    Made s (s.ioCall k o n) := by
  subst hn
  unfold Vp.ioCall
  by_cases hp : Vp.posted k o = true
  · obtain ⟨hw, hint⟩ := hcalm hp
    simp only [hp, hw, hint, if_true, Bool.false_eq_true, if_false]
    have hm := made_move_schedule h (.ioPause hi hw hint) fun _ => by simp [pause]
    rw [← ioPause_eq] at hm
    exact hm
  · have hw : Vp.waits k o ≠ true := fun hw => hp (posted_of_waits hw)
    simp only [hp, hw]
    have hm := Move.ioSkip (s := s)
    refine (Steps.of_move hm).trans_made (made_ret (sound_move hm h)
      ⟨⟨hi.live, hi.state, hi.ctx⟩, hi.opened⟩ (.io hw ?_))
    cases k <;> simp [Vp.ioFailed]

/-! ### The rest of a call, after a switch -/

theorem made_threadJoinResume {t : ThreadPtr} (hr : Runs (.within (.join t)) s) : Made s (s.threadJoinResume t) := by
  have hw : waitsOn (s.thr s.current).ctx = some (.term t) := by simp [hr.ctx]
  unfold Vp.threadJoinResume
  cases hres : Vp.condResult (s.thr s.current) with
  | some e =>
    dsimp only
    rw [leave_ret_eq_back hw]
    exact made_answer hr (.join hres)
  | none =>
    obtain ⟨hne, ht, htm, hj⟩ := h.joins.target _ hr.live t hr.ctx
    have hm := Move.leave hr hres
    have hv := hm.view_of_ne t hne
    have hin : In (.join t) (s.condTimedwaitLeave (.term t)) := by
      refine ⟨⟨hr.live, ?_, ?_⟩, ?_⟩
      · exact (congrArg Thread.state (thr_leave _)).trans hr.state
      · exact congrArg Thread.ctx (thr_leave _)
      · exact (congrArg (fun v => ∃ p, openCall v.log = some (Op.join t, p)) (view_leave _)).mpr
          (((h.good _).of_mem hr.live).inside _ hr.ctx).2
    have hempty : (s.condTimedwaitLeave (.term t)).waitQ (.term t) = [] := by
      -- who else is on the queue would wait for `t` too
      refine List.eq_nil_iff_forall_not_mem.mpr fun x hx => ?_
      obtain ⟨hl, hc⟩ := ((sound_move hm h).good x).of_mem_waitQ hx
      have hxne : x ≠ s.current := fun he => by
        rw [he, thr_leave] at hc
        simp at hc
      have hvx := hm.view_of_ne x hxne
      rw [thr_of_view hvx] at hc
      exact hxne (h.joins.unique x ((live_of_view hvx).mp hl) _ hr.live t (eq_join_of_waitsOn hc) hr.ctx)
    refine Steps.trans_made (.of_move hm) (made_joinLoop (sound_move hm h) hin ht ?_ ?_ hne hempty)
    · rw [thr_of_view hv]; exact htm
    · unfold Vp.Joined; rw [thr_of_view hv]; exact hj

theorem made_usleepResume {u : UTime} (hr : Runs (.within (.usleep u)) s) : Made s (s.usleepResume u) := by
  unfold Vp.usleepResume
  dsimp only
  split_ifs with hint
  · rw [clear_ret_eq_back h hr rfl]
    exact made_answer hr (.intr hint)
  · have hint' : (s.thr s.current).interrupt = false := by simpa using hint
    rw [ret_eq_back h hr rfl, hint']
    exact made_answer hr (.slept hint')

omit h in
theorem made_condTimedwaitResume {c : ℕ} {u : UTime} (hr : Runs (.within (.condTimedwait c u)) s) :
    Made s (s.condTimedwaitResume c u) := by
  unfold Vp.condTimedwaitResume
  rw [leave_ret_eq_back (by simp [hr.ctx])]
  exact made_answer hr .cond

theorem made_mutexLockResume {m : ℕ} (hr : Runs (.within (.mutexLock m)) s) : Made s (s.mutexLockResume m) := by
  have hd := delWaitQ_eq (s := s) (t := s.current) (waitsOn_mutexLock m)
  have ht := timedOut_of_runs h hr (by simp)
  unfold Vp.delWaitQ at hd
  unfold Vp.mutexLockResume
  dsimp only
  split_ifs with hint
  · have he : ((s.delWaitQ (.mutex m) s.current).clearInterrupt s.current).ret (.mutexLock m) (.fail .eintr) =
        back (.mutexLock m) (.fail .eintr) false s := by
      simp_all [Vp.ret, Vp.setCtx, Vp.modify, Vp.clearInterrupt, Vp.delWaitQ, Vp.log, back, hr.ctx, ← ht]
    exact he ▸ made_answer hr (.lockIntr hint.1 hint.2)
  · have he : (s.delWaitQ (.mutex m) s.current).ret (.mutexLock m) .ok =
        back (.mutexLock m) .ok (s.thr s.current).interrupt s := by
      simp_all [Vp.ret, Vp.setCtx, Vp.modify, Vp.delWaitQ, Vp.log, back, hr.ctx, ← ht]
    exact he ▸ made_answer hr (.lock hint)

theorem made_ioResume {k : IoKind} {o : Submit} {n : ℕ} (hr : Runs (.within (.io k o n)) s) :
    Made s (s.ioResume k o n) := by
  unfold Vp.ioResume
  dsimp only
  split_ifs with hint
  · rw [clear_ret_eq_back h hr rfl]
    exact made_answer hr .io
  · have hint' : (s.thr s.current).interrupt = false := by simpa using hint
    rw [ret_eq_back h hr rfl, hint']
    exact made_answer hr .io

theorem made_resumeOp (hr : Runs (.within op) s) : Made s (s.resumeOp op) := by
  have hb := (((h.good _).of_mem hr.live).inside op hr.ctx).1
  rw [hr.ctx] at hb
  cases op with
  | exit v => exact made_threadExitResume h hr
  | join t => exact made_threadJoinResume h hr
  | usleep u => exact made_usleepResume h hr
  | condTimedwait c u => exact made_condTimedwaitResume hr
  | mutexLock m => exact made_mutexLockResume h hr
  | io k o n => exact made_ioResume h hr
  | create | condSignal | mutexUnlock | mutexTrylock | interrupt => simp [blockState] at hb

/-! ### The idle thread -/

omit h in
theorem made_idle {p : IdlePhase} (hr : Runs (.idle p) s) (p' : IdlePhase) :
    Made s (s.setCtx s.current (.idle p')) := by
  refine ⟨.of_move (.idle p' hr), hr.live, ?_⟩
  simpa [Vp.setCtx, Vp.modify] using hr.state

theorem made_idleDrain {p : IdlePhase} (hr : Runs (.idle p) s) : Made s s.idleDrain := by
  unfold Vp.idleDrain
  split
  · exact made_idle hr .clock
  · rename_i e q hq
    obtain ⟨hl, hs, -⟩ := h.posted.waiter e (by simp [hq])
    have ha := Aside.of_move (.drain hq hl hs) (fun he => by simp [he, hr.state] at hs)
      (current_wake (s := { s with readyQ := q }) .io)
    obtain ⟨hl', hs', -⟩ := ha.runs hr
    exact ⟨ha.steps, hl', hs'⟩

theorem aside_vpCheckClock (hw : Awake s) (now : UTime) : Aside s (s.vpCheckClock now) := by
  have ht := Move.tick (s := s) s.sq.sleep s.sq.sleepMax now
  have hnd : s.sq.links.Nodup := List.nodup_iff_count.mpr fun t => by
    have := (h.good t).sleeps
    change (view s t).sleeps ≤ 1
    split_ifs at this <;> omega
  have ha : Aside s { s with lastClock := now, sq := { s.sq with
      sleep := s.sq.sleep, sleepMax := s.sq.sleepMax } } := ⟨.of_move ht, rfl, rfl⟩
  exact ha.trans (aside_checkClockLoop _ _ (sound_move ht h) hnd (fun _ hx => hx) hw)

theorem made_yield {p : IdlePhase} (hr : Runs (.idle p) s) :
    Made s (((s.setState s.current .runnable).setCtx s.current (.idle .wait)).vpSchedule) := by
  refine made_move_schedule h (.yield hr) fun _ => ?_
  change (((s.setState s.current .runnable).setCtx s.current (.idle .wait)).thr s.current).state ≠ _
  simp [Vp.setCtx, Vp.setState]

theorem made_idleClock {p : IdlePhase} (hr : Runs (.idle p) s) (now : UTime) :
    Made s (s.idleClock now) := by
  have ha := aside_vpCheckClock h ⟨hr.live, hr.state⟩ now
  have hy := made_yield (ha.steps.sound h) (ha.runs hr)
  rw [ha.current] at hy
  exact ha.made hy

end MoreCalls

/-! ### Every step -/

/-- The steps after which an operation in flight is always one its thread waits for: a thread that
waits for I/O is not interrupted, and a call that starts an operation goes on to wait for it. -/
def Calm (s : Vp) : Vp.Action → Prop
  | .call (.interrupt t) => (s.thr t).state ≠ .ioWait
  | .call (.io k o _) =>
    Vp.posted k o = true → Vp.waits k o = true ∧ (s.thr s.current).interrupt = false
  | _ => True

/-- Between two steps the current thread runs. -/
theorem made_callOp (h : Sound s) (hi : In op s) (hv : Vp.Op.Valid s op) (hcalm : Calm s (.call op)) :
    Made s (s.callOp op) := by
  cases op with
  | create a j =>
    cases a with
    | none => exact made_ret h hi (.other rfl (by simp) (by simp) (by simp))
    | some a => exact made_create h hi hv
  | exit v => exact made_threadExit h hi
  | join t => exact made_threadJoin h hi hv.1 hv.2
  | usleep u => exact made_usleep h hi
  | condTimedwait c u => exact made_condTimedwait h hi
  | condSignal c b => exact made_condSignal h hi
  | mutexLock m => exact made_mutexLock h hi
  | mutexUnlock m => exact made_mutexUnlock h hi
  | mutexTrylock m => exact made_mutexTrylock h hi
  | interrupt t => exact made_threadInterrupt h hi hv.1 hcalm
  | io k o n => exact made_ioCall h hi hv.1 hcalm

theorem made_apply {a : Vp.Action} (h : Sound s) (hw : Awake s) (he : machine.enabled s a)
    (hcalm : Calm s a) : Made s (machine.apply s a) := by
  cases a with
  | call op =>
    obtain ⟨hc, hv⟩ := he
    have hr : Runs .user s := ⟨hw.1, hw.2, hc⟩
    have hm := Move.called op hr
    refine Steps.trans_made (.of_move hm) (made_callOp (sound_move hm h) ⟨⟨hr.live, hr.state, hr.ctx⟩, ?_⟩ ?_ ?_)
    · exact ⟨_, congrArg (fun v => openCall v.log) (view_log_self op _)⟩
    · match op, hv with
      | .create (some _) _, hv | .join _, hv | .interrupt _, hv | .io _ _ _, hv => exact hv
      | .create none _, _ | .exit _, _ | .usleep _, _ | .condTimedwait _ _, _ | .condSignal _ _, _
      | .mutexLock _, _ | .mutexUnlock _, _ | .mutexTrylock _, _ => trivial
    · cases op <;> exact hcalm
  | resume =>
    obtain ⟨op, hc⟩ := he
    rw [apply_resume hc]
    exact made_resumeOp h ⟨hw.1, hw.2, hc⟩
  | idleWait b => exact made_idle ⟨hw.1, hw.2, he.1⟩ _
  | idleDrain => exact made_idleDrain h ⟨hw.1, hw.2, he⟩
  | idleClock now => exact made_idleClock h ⟨hw.1, hw.2, he⟩ now
  | complete e n =>
    have hm := Move.complete n he
    obtain ⟨v, hc⟩ := complete_eq (s := s) e n
    refine ⟨.of_move hm, ?_, ?_⟩
    · change (s.complete e n).current ∈ (s.complete e n).live
      rw [hc]; exact hw.1
    · change ((s.complete e n).thr (s.complete e n).current).state = _
      rw [hc]
      change (update s.thr e.thread _ s.current).state = _
      by_cases hx : s.current = e.thread
      · rw [← hx, update_self]; exact hw.2
      · rw [update_of_ne hx]; exact hw.2

/-! ### The start -/

section Start
variable {i p : ThreadPtr} {now : UTime}

theorem thr_stInit_idle (hne : i ≠ p) : (Vp.stInit i p now).thr i =
    { Vp.newThread false (.idle .wait) with idleThread := true } := by
  simp [Vp.stInit, Vp.threadCreate, Vp.addRunQ, Vp.delRunQ, Vp.log, Vp.modify, hne]

theorem thr_stInit_prim : (Vp.stInit i p now).thr p = Vp.primordialThread := by
  simp [Vp.stInit]

/-- The threads, at the start. -/
theorem thr_stInit (hne : i ≠ p) (t : ThreadPtr) : (Vp.stInit i p now).thr t =
    if t = p then Vp.primordialThread
    else if t = i then { Vp.newThread false (.idle .wait) with idleThread := true }
    else Vp.newThread false .user := by
  split_ifs with hp hi
  · exact hp ▸ thr_stInit_prim
  · subst hi
    exact thr_stInit_idle hne
  · simp [Vp.stInit, Vp.threadCreate, Vp.addRunQ, Vp.delRunQ, Vp.log, Vp.modify, Vp.blank, hp, hi]

/-- The lists are empty but for the two threads that exist. -/
theorem view_stInit (t : ThreadPtr) : view (Vp.stInit i p now) t =
    { th := (Vp.stInit i p now).thr t, alive := [p, i].count t, runs := 0, sleeps := 0, zombies := 0,
      waits := fun _ => 0, isIdle := t == i, log := [] } := by
  have hrun : (Vp.stInit i p now).runQ = [] := by
    simp [Vp.stInit, Vp.threadCreate, Vp.addRunQ, Vp.delRunQ, Vp.log, Vp.modify, Vp.blank]
  simp only [view, hrun]
  rfl

theorem good_stInit (hne : i ≠ p) (t : ThreadPtr) : Good (view (Vp.stInit i p now) t) := by
  rw [view_stInit]
  by_cases htp : t = p
  · subst htp
    rw [thr_stInit_prim]
    constructor <;> simp [Vp.primordialThread, Vp.newThread, hne]
    constructor <;> simp [Ne.symm hne]
  by_cases hti : t = i
  · subst hti
    rw [thr_stInit_idle hne]
    constructor <;> simp [Vp.newThread, Ne.symm hne]
    constructor <;> simp
  · have h0 : [p, i].count t = 0 := by simp [Ne.symm htp, Ne.symm hti]
    constructor <;> simp [h0]

theorem sound_stInit (hne : i ≠ p) : Sound (Vp.stInit i p now) := by
  have hi : (Vp.stInit i p now).thr i = { Vp.newThread false (.idle .wait) with idleThread := true } :=
    thr_stInit_idle hne
  have hp : (Vp.stInit i p now).thr p = Vp.primordialThread := thr_stInit_prim
  -- the primordial thread runs, the idle thread waits for its turn
  have huser : ∀ t ∈ (Vp.stInit i p now).live, ∀ op, ((Vp.stInit i p now).thr t).ctx ≠ .within op := by
    intro t ht op
    rcases List.mem_pair.mp ht with rfl | rfl
    · simp [hp, Vp.primordialThread, Vp.newThread]
    · simp [hi, Vp.newThread]
  have hst : ∀ t ∈ (Vp.stInit i p now).live, ((Vp.stInit i p now).thr t).state = .running ∧ t = p ∨
      ((Vp.stInit i p now).thr t).state = .runnable := by
    intro t ht
    rcases List.mem_pair.mp ht with rfl | rfl
    · exact .inl ⟨by simp [hp, Vp.primordialThread], rfl⟩
    · exact .inr (by simp [hi, Vp.newThread])
  refine ⟨good_stInit hne, fun t ht hs => ?_, List.mem_pair.mpr (.inr rfl), ?_,
    ⟨fun x hx t hc => absurd hc (huser x hx _), fun x hx _ _ t hc => absurd hc (huser x hx _)⟩,
    ⟨List.nodup_nil, fun e he => absurd he List.not_mem_nil, fun t ht hs => ?_⟩⟩
  · rcases hst t ht with ⟨-, rfl⟩ | hr
    · rfl
    · simp [hr] at hs
  · have hap : Active (Vp.stInit i p now) p :=
      ⟨Ne.symm hne, by simp [hp, Vp.primordialThread, Vp.newThread]⟩
    have hai : ¬ Active (Vp.stInit i p now) i := fun ha => ha.1 rfl
    change (1 : ℤ) = ([p, i].countP _ : ℕ)
    simp [hap, hai]
  · rcases hst t ht with ⟨hr, -⟩ | hr <;> simp [hr] at hs

end Start

/-! ### Every run -/

/-- **The invariant of calm runs**; between two steps the current thread runs. -/
theorem sound_reach (h : ReachVia machine Calm s) : Sound s ∧ Awake s := by
  refine h.invariant (I := fun s => Sound s ∧ Awake s) ?_ ?_
  · rintro s ⟨i, p, now, hne, rfl⟩
    refine ⟨sound_stInit hne, List.mem_pair.mpr (.inl rfl), ?_⟩
    change ((Vp.stInit i p now).thr p).state = _
    rw [thr_stInit_prim]
    rfl
  · rintro s a ⟨hi, hw⟩ he hcalm
    obtain ⟨hs, hw'⟩ := made_apply hi hw he hcalm
    exact ⟨Steps.sound hs hi, hw'⟩

/-- What moves keep is kept by the steps of a calm run. -/
theorem steps_keep {J : Vp → Prop} (hmove : ∀ u s s', Sound s → J s → Move u s s' → J s') (hi : Sound s)
    (hj : J s) (hs : Steps s s') : J s' := by
  induction hs with
  | refl => exact hj
  | tail hab hm ih =>
    obtain ⟨u, hm⟩ := hm
    exact hmove u _ _ (Steps.sound hab hi) ih hm

/-- An invariant of the moves is one of calm runs. -/
theorem reach_of_move {J : Vp → Prop} (hinit : ∀ s, machine.init s → J s)
    (hmove : ∀ u s s', Sound s → J s → Move u s s' → J s') (h : ReachVia machine Calm s) : J s := by
  refine h.invariant_of (I := fun s => Sound s ∧ Awake s) (fun _ => sound_reach) hinit ?_
  rintro s a ⟨hi, hw⟩ hj he hcalm
  exact steps_keep hmove hi hj (made_apply hi hw he hcalm).1

end StNvs.Sched.Calls
