import StNvs.Sched.Queues

/-! # The lives of the threads

`livesMachine` is the scheduler without I/O, with every call that a program can make on a thread it once
created: it may join or interrupt a thread that was joined already, or whose stack was freed. Of the
queues only what the lives of the threads depend on is kept here (`Tidy`): who is on the run queue or the
sleep queue has the state for it, and who waits for a thread is on its wait queue.

Most of what the scheduler does leaves the lives alone (`Keeps`). The rest is that a thread is created,
becomes a zombie, is joined, or is gone. -/

namespace StNvs.Sched.Lives

open StNvs.Sched.Sleep StNvs.Sched.Model StNvs.Sched.Moves StNvs.Sched.Threads StNvs.Sched.Invariant
open StNvs.Sched.Calls StNvs.Sched.Queues StNvs.Sched.SleepTimes
open StNvs.Lib.Runs Function

variable {s s' : Vp} {t u x : ThreadPtr} {op : Op}

/-! ### Runs without I/O -/

/-- A thread that exists, or that `st_thread_create` once returned. -/
def Known (s : Vp) (t : ThreadPtr) : Prop := t ∈ s.live ∨ .created t ∈ s.trace

instance decidableKnown (s : Vp) (t : ThreadPtr) : Decidable (Known s t) :=
  inferInstanceAs (Decidable (_ ∨ _))

/-- What can be done: as in `Vp.Enabled`, without I/O, but for the thread arguments. -/
def Enabled (s : Vp) : Vp.Action → Prop
  | .call (.join t) | .call (.interrupt t) => (s.thr s.current).ctx = .user ∧ Known s t
  | .call (.io _ _ _) | .complete _ _ => False
  | a => Vp.Enabled s a

instance decidableEnabled (s : Vp) : ∀ a, Decidable (Enabled s a)
  | .call (.join _) | .call (.interrupt _) => inferInstanceAs (Decidable (_ ∧ _))
  | .call (.io _ _ _) | .complete _ _ => .isFalse id
  | .call (.create a j) => inferInstanceAs (Decidable (Vp.Enabled s (.call (.create a j))))
  | .call (.exit v) => inferInstanceAs (Decidable (Vp.Enabled s (.call (.exit v))))
  | .call (.usleep u) => inferInstanceAs (Decidable (Vp.Enabled s (.call (.usleep u))))
  | .call (.condTimedwait c u) =>
    inferInstanceAs (Decidable (Vp.Enabled s (.call (.condTimedwait c u))))
  | .call (.condSignal c b) => inferInstanceAs (Decidable (Vp.Enabled s (.call (.condSignal c b))))
  | .call (.mutexLock m) => inferInstanceAs (Decidable (Vp.Enabled s (.call (.mutexLock m))))
  | .call (.mutexUnlock m) => inferInstanceAs (Decidable (Vp.Enabled s (.call (.mutexUnlock m))))
  | .call (.mutexTrylock m) => inferInstanceAs (Decidable (Vp.Enabled s (.call (.mutexTrylock m))))
  | .resume => inferInstanceAs (Decidable (Vp.Enabled s .resume))
  | .idleWait b => inferInstanceAs (Decidable (Vp.Enabled s (.idleWait b)))
  | .idleDrain => inferInstanceAs (Decidable (Vp.Enabled s .idleDrain))
  | .idleClock now => inferInstanceAs (Decidable (Vp.Enabled s (.idleClock now)))

/-- The scheduler without I/O. -/
def livesMachine : Machine Vp Vp.Action where
  init := machine.init
  enabled := Enabled
  apply := Vp.apply

instance decidableLives : ∀ s a, Decidable (livesMachine.enabled s a) := decidableEnabled

/-! ### The lives in the history -/

/-- The events a thread's life is made of. -/
def Vital : Event → Prop
  | .created _ | .stackFreed _ | .called _ (.exit _) _ | .returned _ _ (.joined _)
  | .returned _ _ (.created (some _)) => True
  | _ => False

/-- What happened since the thread was created. -/
def life (t : ThreadPtr) (h : List Event) : List Event := h.takeWhile (· ≠ .created t)

theorem life_cons {e : Event} {h : List Event} (he : e ≠ .created t) : life t (e :: h) = e :: life t h :=
  List.takeWhile_cons_of_pos (by simpa using he)

theorem life_created {h : List Event} : life t (.created t :: h) = [] :=
  List.takeWhile_cons_of_neg (by simp)

theorem life_append {l h : List Event} (hes : ∀ e ∈ l, e ≠ .created t) :
    life t (l ++ h) = l ++ life t h :=
  List.takeWhile_append_of_pos fun e he => by simpa using hes e he

/-! ### What the lives depend on -/

/-- A thread on the run queue or the sleep queue has the state for it; a blocked thread exists; one that
is gone was running when it left. -/
structure Placed (v : View) : Prop where
  alive : v.alive ≤ 1
  runs : v.runs ≤ if v.alive = 1 ∧ v.th.state = .runnable ∧ v.isIdle = false then 1 else 0
  sleeps : v.sleeps = if v.th.onSleepQ = true then 1 else 0
  asleep : v.th.onSleepQ = true → v.th.state = .sleeping ∨ v.th.state = .condWait
  blocked : v.th.state ≠ .running → v.th.state ≠ .runnable → v.alive = 1
  gone : v.alive = 0 → (∃ t, .created t ∈ v.log) → v.th.state = .running
  idle : v.isIdle = true → v.alive = 1 ∧ (∃ p, v.th.ctx = .idle p) ∧
    (v.th.state = .running ∨ v.th.state = .runnable)

section Placed

variable {v : View} (hp : Placed v)
include hp

theorem Placed.not_ready (ho : v.th.onSleepQ = true) :
    v.th.state ≠ .running ∧ v.th.state ≠ .runnable := by
  rcases hp.asleep ho with hst | hst <;> simp [hst]

theorem Placed.runs_zero (hst : v.th.state ≠ .runnable) : v.runs = 0 := by
  have hr := hp.runs
  rw [if_neg fun hx => hst hx.2.1] at hr
  omega

/-- Who is outside the idle loop is not the idle thread. -/
theorem Placed.not_idle (hc : ∀ p, v.th.ctx ≠ .idle p) : v.isIdle = false := by
  by_contra hi
  obtain ⟨p, hx⟩ := (hp.idle (by simpa using hi)).2.1
  exact hc p hx

theorem Placed.blocked_not_idle (hr : v.th.state ≠ .running) (hb : v.th.state ≠ .runnable) :
    v.isIdle = false := by
  by_contra hi
  exact (hp.idle (by simpa using hi)).2.2.elim hr hb

end Placed

/-- Every thread is placed, and who waits for a thread is on its wait queue. -/
structure Tidy (s : Vp) : Prop where
  placed : ∀ t, Placed (view s t)
  waits : ∀ x t, (s.thr x).ctx = .within (.join t) → (∃ p, .called x (.join t) p ∈ life t s.trace) →
    0 < (view s x).waits (.term t)

/-- The fields a life consists of are the same. -/
structure Alike (v v' : View) : Prop where
  alive : v'.alive = v.alive
  isIdle : v'.isIdle = v.isIdle
  term : v'.th.term = v.th.term
  retval : v'.th.retval = v.th.retval
  primordial : v'.th.primordial = v.th.primordial
  zombie : v'.th.state = .zombie ↔ v.th.state = .zombie
  exiting : ∀ r, v'.th.ctx = .within (.exit r) ↔ v.th.ctx = .within (.exit r)

/-- An event that neither belongs to a life nor says that a call was entered. -/
def Minor (e : Event) : Prop := ¬ Vital e ∧ ∀ t op p, e ≠ .called t op p

/-- An event that neither begins a life nor says that a call was entered. -/
def Plain (e : Event) : Prop := (∀ t, e ≠ .created t) ∧ ∀ t op p, e ≠ .called t op p

/-- What leaves the lives alone. -/
structure Keeps (s s' : Vp) : Prop where
  tidy : Tidy s'
  alike : ∀ t, Alike (view s t) (view s' t)
  trace : ∃ l, s'.trace = l ++ s.trace ∧ ∀ e ∈ l, ¬ Vital e

theorem Alike.rfl {v : View} : Alike v v := ⟨.refl _, .refl _, .refl _, .refl _, .refl _, .rfl, fun _ => .rfl⟩

theorem Alike.trans {v v' v'' : View} (h : Alike v v') (h' : Alike v' v'') : Alike v v'' where
  alive := h'.alive.trans h.alive
  isIdle := h'.isIdle.trans h.isIdle
  term := h'.term.trans h.term
  retval := h'.retval.trans h.retval
  primordial := h'.primordial.trans h.primordial
  zombie := h'.zombie.trans h.zombie
  exiting r := (h'.exiting r).trans (h.exiting r)

theorem Keeps.refl (h : Tidy s) : Keeps s s := ⟨h, fun _ => .rfl, [], rfl, by simp⟩

theorem Keeps.trans {s'' : Vp} (h : Keeps s s') (h' : Keeps s' s'') : Keeps s s'' := by
  obtain ⟨l, he, hm⟩ := h.trace
  obtain ⟨k, he', hm'⟩ := h'.trace
  refine ⟨h'.tidy, fun t => (h.alike t).trans (h'.alike t), k ++ l, by rw [he', he, List.append_assoc],
    fun e hx => ?_⟩
  rcases List.mem_append.mp hx with hx | hx
  · exact hm' e hx
  · exact hm e hx

theorem Minor.plain {e : Event} (he : Minor e) : Plain e :=
  ⟨fun _ hc => he.1 (hc ▸ trivial), he.2⟩

theorem called_of_plain {l h : List Event} {p : Bool} (hes : ∀ e ∈ l, Plain e)
    (hc : .called x op p ∈ life t (l ++ h)) : .called x op p ∈ life t h := by
  rw [life_append fun e he => (hes e he).1 t] at hc
  rcases List.mem_append.mp hc with hc | hc
  · exact absurd rfl ((hes _ hc).2 x op p)
  · exact hc

/-- What is about one thread only, and leaves it placed. -/
theorem tidy_of_own (h : Tidy s) {l : List Event} (hv : ∀ t ≠ u, view s' t = view s t)
    (hp : Placed (view s' u)) (htr : s'.trace = l ++ s.trace) (hes : ∀ e ∈ l, Plain e)
    (hw : ∀ t, (s'.thr u).ctx = .within (.join t) → (∃ p, .called u (.join t) p ∈ life t s.trace) →
      0 < (view s' u).waits (.term t)) : Tidy s' := by
  refine ⟨fun t => ?_, fun x t hc hin => ?_⟩
  · rcases eq_or_ne t u with rfl | hne
    · exact hp
    · rw [hv t hne]; exact h.placed t
  · rw [htr] at hin
    have hin : ∃ p, .called x (.join t) p ∈ life t s.trace := hin.imp fun p => called_of_plain hes
    rcases eq_or_ne x u with rfl | hne
    · exact hw t hc hin
    · have hvx := hv x hne
      rw [hvx]
      exact h.waits x t ((congrArg (fun v => v.th.ctx) hvx).symm.trans hc) hin

/-- If it leaves the fields of a life alone too, it keeps the lives. -/
theorem keeps_of_own (h : Tidy s) {l : List Event} (hv : ∀ t ≠ u, view s' t = view s t)
    (hp : Placed (view s' u)) (ha : Alike (view s u) (view s' u)) (htr : s'.trace = l ++ s.trace)
    (hes : ∀ e ∈ l, Minor e)
    (hw : ∀ t, (s'.thr u).ctx = .within (.join t) → (∃ p, .called u (.join t) p ∈ life t s.trace) →
      0 < (view s' u).waits (.term t)) : Keeps s s' := by
  refine ⟨tidy_of_own h hv hp htr (fun e he => (hes e he).plain) hw, fun t => ?_, l, htr,
    fun e he => (hes e he).1⟩
  rcases eq_or_ne t u with rfl | hne
  · exact ha
  · rw [hv t hne]; exact .rfl

/-! ### The parts of a call -/

section Parts

variable (h : Tidy s)
include h

theorem live_of_runs (hu : u ∈ s.runQ) :
    u ∈ s.live ∧ (s.thr u).state = .runnable ∧ (view s u).isIdle = false := by
  have hr := (h.placed u).runs
  have hc : 0 < (view s u).runs := List.count_pos_iff.mpr hu
  by_contra hn
  rw [if_neg fun hx => hn ⟨live_of_alive hx.1, hx.2⟩] at hr
  omega

theorem sleeper_iff : u ∈ s.sq.links ↔ (s.thr u).onSleepQ = true := by
  have hs := (h.placed u).sleeps
  rw [← List.count_pos_iff]
  change 0 < (view s u).sleeps ↔ _
  rw [hs]
  split <;> simp_all

/-- A blocked thread that is no zombie is woken. -/
theorem keeps_wake (hr : (s.thr u).state ≠ .running) (hb : (s.thr u).state ≠ .runnable)
    (hz : (s.thr u).state ≠ .zombie) (w : Wake) : Keeps s (s.wake u w) := by
  have hp := h.placed u
  have ha : (view s u).alive = 1 := hp.blocked hr hb
  have hi := hp.blocked_not_idle hr hb
  have hruns := hp.runs_zero hb
  refine keeps_of_own h (u := u) (l := [.woken u w]) (fun t ht => view_wake_of_ne ht w) ?_ ?_
    (trace_wake w) (by simp [Minor, Vital]) fun t hc hin => ?_
  · rw [view_wake]
    have hs := hp.sleeps
    refine ⟨hp.alive, ?_, ?_, by simp, by simp, by simp [ha], by simp [hi]⟩
    · simp [hruns, ha, hi]
    · cases ho : (s.thr u).onSleepQ <;> simp_all
  · rw [view_wake]
    exact ⟨rfl, rfl, rfl, rfl, rfl, by simp [hz], fun _ => .rfl⟩
  · rw [view_wake]
    exact h.waits u t (by simpa using hc) hin

/-- A sleeper's time is over. -/
theorem keeps_expire (hq : (s.thr u).onSleepQ = true) : Keeps s (s.expireThread u) := by
  have hp := h.placed u
  have hst : (s.thr u).state = .sleeping ∨ (s.thr u).state = .condWait := hp.asleep hq
  obtain ⟨hr, hb⟩ := hp.not_ready hq
  have ha := hp.blocked hr hb
  have hi := hp.blocked_not_idle hr hb
  have hruns := hp.runs_zero hb
  have htr : (s.expireThread u).trace = [.woken u .clock] ++ s.trace := by
    unfold Vp.expireThread; dsimp only; split <;> rfl
  refine keeps_of_own h (fun t ht => view_expireThread_of_ne ht) ?_ ?_ htr (by simp [Minor, Vital])
    fun t hc hin => ?_
  · rw [view_expireThread]
    have hs := hp.sleeps
    refine ⟨hp.alive, ?_, ?_, by simp, by simp, by simp [ha], by simp [hi]⟩
    · simp [hruns, ha, hi]
    · simp_all
  · rw [view_expireThread]
    exact ⟨rfl, rfl, rfl, rfl, rfl, by rcases hst with hst | hst <;> simp [hst], fun _ => .rfl⟩
  · rw [view_expireThread]
    exact h.waits u t (by simpa using hc) hin

/-- The next thread runs. -/
theorem keeps_schedule : Keeps s s.vpSchedule ∧ Awake s.vpSchedule := by
  obtain ⟨hlive, hst, hruns⟩ : s.vpSchedule.current ∈ s.live ∧
      ((s.thr s.vpSchedule.current).state = .running ∨ (s.thr s.vpSchedule.current).state = .runnable) ∧
      (view s s.vpSchedule.current).runs ≤ 1 := by
    rw [vpSchedule_current]
    rcases hq : s.runQ with _ | ⟨x, q⟩
    · have hid := (h.placed s.idle).idle (by simp [view])
      exact ⟨live_of_alive hid.1, hid.2.2, by simp [view, hq]⟩
    · obtain ⟨hl, hs, -⟩ := live_of_runs (u := x) h (by simp [hq])
      refine ⟨hl, .inr hs, (h.placed x).runs.trans ?_⟩
      split <;> omega
  have hp := h.placed s.vpSchedule.current
  refine ⟨keeps_of_own h (l := []) (fun t ht => view_vpSchedule_of_ne ht) ?_ ?_ ?_ (by simp)
    fun t hc hin => ?_, by rw [live_vpSchedule]; exact hlive, by simp⟩
  · rw [view_vpSchedule]
    refine ⟨hp.alive, by simp; omega, hp.sleeps, fun ho => ?_, by simp, by simp, fun hi => ?_⟩
    · rcases hst with hst | hst <;> simpa [hst] using hp.asleep ho
    · exact ⟨(hp.idle hi).1, (hp.idle hi).2.1, .inl rfl⟩
  · rw [view_vpSchedule]
    exact ⟨rfl, rfl, rfl, rfl, rfl, by rcases hst with hst | hst <;> simp [hst], fun _ => .rfl⟩
  · unfold Vp.vpSchedule; split <;> rfl
  · rw [view_vpSchedule]
    exact h.waits _ t (by simpa using hc) hin

/-- The current thread is back in its own code. -/
theorem tidy_user {l : List Event} (hw : Awake s) (hi : ∀ p, (s.thr s.current).ctx ≠ .idle p)
    (hv : ∀ t ≠ s.current, view s' t = view s t)
    (hu : ∃ b i ws g, view s' s.current = { view s s.current with
      th := { s.thr s.current with timedOut := b, interrupt := i, ctx := .user }, waits := ws, log := g })
    (htr : s'.trace = l ++ s.trace) (hes : ∀ e ∈ l, Plain e) : Tidy s' := by
  have hp := h.placed s.current
  have ha : (view s s.current).alive = 1 := le_antisymm hp.alive (List.count_pos_iff.mpr hw.1)
  have hni := hp.not_idle hi
  obtain ⟨b, i, ws, g, hu⟩ := hu
  refine tidy_of_own h hv ?_ htr hes fun t hc => ?_
  · rw [hu]
    exact ⟨hp.alive, hp.runs, hp.sleeps, hp.asleep, hp.blocked, by simp [ha], by simp [hni]⟩
  · rw [show (s'.thr s.current).ctx = .user from congrArg (fun v => v.th.ctx) hu] at hc
    cases hc

theorem keeps_user {l : List Event} (hw : Awake s) (hi : ∀ p, (s.thr s.current).ctx ≠ .idle p)
    (hx : ∀ v, (s.thr s.current).ctx ≠ .within (.exit v))
    (hv : ∀ t ≠ s.current, view s' t = view s t)
    (hu : ∃ b i ws g, view s' s.current = { view s s.current with
      th := { s.thr s.current with timedOut := b, interrupt := i, ctx := .user }, waits := ws, log := g })
    (htr : s'.trace = l ++ s.trace) (hes : ∀ e ∈ l, Minor e) : Keeps s s' := by
  refine ⟨tidy_user h hw hi hv hu htr fun e he => (hes e he).plain, fun t => ?_, l, htr,
    fun e he => (hes e he).1⟩
  rcases eq_or_ne t s.current with rfl | hne
  · obtain ⟨b, i, ws, g, hu⟩ := hu
    rw [hu]
    exact ⟨rfl, rfl, rfl, rfl, rfl, .rfl, fun r => by simp [hx r]⟩
  · rw [hv t hne]; exact .rfl

/-- The current thread blocks inside `op`. -/
theorem keeps_pause {st : TState} {y : Option UTime} (hw : Awake s) (hc : (s.thr s.current).ctx = .user)
    (hx : ∀ v, op ≠ .exit v) (hst : st = .sleeping ∨ st = .condWait ∨ st = .lockWait)
    (hy : y.isSome → st = .sleeping ∨ st = .condWait) : Keeps s (pause op st y s) := by
  have hp := h.placed s.current
  have ha : (view s s.current).alive = 1 := le_antisymm hp.alive (List.count_pos_iff.mpr hw.1)
  have hni := hp.not_idle (by simp [hc])
  have hq : (s.thr s.current).onSleepQ = false := by
    by_contra hq
    simpa [hw.2] using hp.asleep (by simpa using hq)
  have hruns : (view s s.current).runs = 0 := hp.runs_zero (by simp [hw.2])
  have hs : (view s s.current).sleeps = 0 := by rw [hp.sleeps]; simp [hq]
  refine keeps_of_own h (l := []) (fun t ht => view_pause_of_ne ht op st y) ?_ ?_ rfl (by simp)
    fun t hct _ => ?_
  · rw [view_pause]
    refine ⟨hp.alive, by simp [hruns], ?_, ?_, by simp [ha], by simp [ha], by simp [hni]⟩
    · cases y <;> simp [hs, hq]
    · simpa [hq] using hy
  · rw [view_pause]
    refine ⟨rfl, rfl, rfl, rfl, rfl, ?_, fun r => by simp [hc, hx r]⟩
    rcases hst with rfl | rfl | rfl <;> simp [hw.2]
  · rw [view_pause]
    have hop : Ctx.within op = .within (.join t) := by simpa using hct
    simp [hop]

/-- `thread->flags |= _ST_FL_INTERRUPT`. -/
theorem keeps_flag : Keeps s (flag u s) := by
  have hp := h.placed u
  refine keeps_of_own h (l := [.interrupted u]) (fun t ht => view_flag_of_ne ht) ?_ ?_ rfl
    (by simp [Minor, Vital]) fun t hc hin => ?_
  · rw [view_flag]
    exact ⟨hp.alive, hp.runs, hp.sleeps, hp.asleep, hp.blocked, by simpa using hp.gone, hp.idle⟩
  · rw [view_flag]
    exact ⟨rfl, rfl, rfl, rfl, rfl, .rfl, fun _ => .rfl⟩
  · rw [view_flag]
    exact h.waits u t (by simpa using hc) hin

/-- A mutex is handed over. -/
theorem keeps_unlock (hst : (s.thr u).state = .lockWait) : Keeps s (s.makeRunnable u .unlock) := by
  have hp := h.placed u
  have ha : (view s u).alive = 1 := hp.blocked (by simp [hst]) (by simp [hst])
  have hi : (view s u).isIdle = false := hp.blocked_not_idle (by simp [hst]) (by simp [hst])
  have hruns : (view s u).runs = 0 := hp.runs_zero (by simp [hst])
  have hq : (s.thr u).onSleepQ = false := by
    by_contra hq
    simpa [hst] using hp.asleep (by simpa using hq)
  refine keeps_of_own h (u := u) (l := [.woken u .unlock]) (fun t ht => ?_) ?_ ?_ rfl
    (by simp [Minor, Vital]) fun t hc hin => ?_
  · rw [Vp.makeRunnable, Vp.setState, view_log_of_ne ht rfl, view_addRunQ_of_ne ht,
      view_modify_of_ne ht]
  · rw [view_makeRunnable]
    refine ⟨hp.alive, by simp [hruns, ha, hi], hp.sleeps, by simp [hq], by simp, by simp [ha],
      by simp [hi]⟩
  · rw [view_makeRunnable]
    exact ⟨rfl, rfl, rfl, rfl, rfl, by simp [hst], fun _ => .rfl⟩
  · rw [view_makeRunnable]
    exact h.waits u t (by simpa using hc) hin

/-- A call is entered. -/
theorem tidy_called {p : Bool} (hw : Awake s) (hc : (s.thr s.current).ctx = .user) :
    Tidy (s.log (.called s.current op p)) := by
  refine ⟨fun t => ?_, fun x t hx hin => ?_⟩
  · rcases eq_or_ne t s.current with rfl | hne
    · have hp := h.placed s.current
      have ha : (view s s.current).alive = 1 := le_antisymm hp.alive (List.count_pos_iff.mpr hw.1)
      rw [view_log_self]
      exact ⟨hp.alive, hp.runs, hp.sleeps, hp.asleep, hp.blocked, by simp [ha], hp.idle⟩
    · rw [view_log_of_ne hne rfl]
      exact h.placed t
  · have hne : x ≠ s.current := by
      rintro rfl
      have : Ctx.user = .within (.join t) := hc.symm.trans hx
      cases this
    rw [view_log_of_ne hne rfl]
    refine h.waits x t hx (hin.imp fun q hq => ?_)
    rw [show (s.log (.called s.current op p)).trace = .called s.current op p :: s.trace from rfl,
      life_cons (by simp)] at hq
    refine (List.mem_cons.mp hq).resolve_left fun he => hne ?_
    injection he

theorem keeps_called {p : Bool} (hw : Awake s) (hc : (s.thr s.current).ctx = .user)
    (hx : ∀ v, op ≠ .exit v) : Keeps s (s.log (.called s.current op p)) := by
  refine ⟨tidy_called h hw hc, fun t => ?_, [.called s.current op p], rfl, ?_⟩
  · rcases eq_or_ne t s.current with rfl | hne
    · rw [view_log_self]; exact ⟨rfl, rfl, rfl, rfl, rfl, .rfl, fun _ => .rfl⟩
    · rw [view_log_of_ne hne rfl]; exact .rfl
  · simp only [List.mem_singleton, forall_eq]
    cases op <;> simp [Vital]
    exact hx _ rfl

end Parts

/-! ### Calls that leave the lives alone -/

/-- What leaves the lives alone, and the current thread running. -/
structure Turns (s s' : Vp) : Prop extends Keeps s s' where
  awake : Awake s'

/-- What is about other threads than the current one, and leaves the lives alone. -/
structure Beside (s s' : Vp) : Prop extends Keeps s s' where
  current : s'.current = s.current
  view : view s' s.current = view s s.current

theorem Keeps.turns {s'' : Vp} (h : Keeps s s') (h' : Turns s' s'') : Turns s s'' :=
  ⟨h.trans h'.toKeeps, h'.awake⟩

theorem Beside.trans {s'' : Vp} (h : Beside s s') (h' : Beside s' s'') : Beside s s'' := by
  refine ⟨h.toKeeps.trans h'.toKeeps, h'.current.trans h.current, ?_⟩
  have hv := h'.view
  rw [h.current] at hv
  exact hv.trans h.view

theorem Beside.awake (h : Beside s s') (hw : Awake s) : Awake s' := by
  refine ⟨?_, ?_⟩
  · rw [h.current]; exact (live_of_view h.view).mpr hw.1
  · rw [h.current, thr_of_view h.view]; exact hw.2

theorem Beside.ctx (h : Beside s s') : (s'.thr s'.current).ctx = (s.thr s.current).ctx := by
  rw [h.current, thr_of_view h.view]

/-- A result that says nothing about a life. -/
def Silent : Ret → Prop
  | .joined _ | .created (some _) => False
  | _ => True

theorem minor_returned {r : Ret} (hr : Silent r) : Minor (.returned t op r) := by
  refine ⟨?_, by simp⟩
  match r, hr with
  | .ok, _ | .bytes _, _ | .fd _, _ | .fail _, _ | .created none, _ => exact id

theorem view_ret_of_ne {r : Ret} (ht : t ≠ s.current) : view (s.ret op r) t = view s t := by
  rw [Vp.ret, Vp.setCtx, view_log_of_ne ht rfl, view_modify_of_ne ht]

theorem thr_ret_of_ne {r : Ret} (ht : t ≠ s.current) : (s.ret op r).thr t = s.thr t :=
  thr_of_view (view_ret_of_ne ht)

theorem view_ret {r : Ret} : view (s.ret op r) s.current = { view s s.current with
    th := { s.thr s.current with ctx := .user }
    log := .returned s.current op r :: (view s s.current).log } := by
  simp [view, Vp.ret, Vp.log, Vp.setCtx, Vp.modify, subject]

theorem view_clear_ret {r : Ret} : view ((s.clearInterrupt s.current).ret op r) s.current =
    { view s s.current with
      th := { s.thr s.current with interrupt := false, ctx := .user }
      log := .returned s.current op r :: (view s s.current).log } := by
  simp [view, Vp.ret, Vp.log, Vp.setCtx, Vp.clearInterrupt, Vp.modify, subject]

/-- The return of a call is no event of the caller's life. -/
theorem alike_ret {r : Ret} (hc : (s.thr s.current).ctx = .user) (t : ThreadPtr) :
    Alike (view s t) (view (s.ret op r) t) := by
  rcases eq_or_ne t s.current with rfl | hne
  · rw [view_ret]
    exact ⟨rfl, rfl, rfl, rfl, rfl, .rfl, by simp [hc]⟩
  · rw [view_ret_of_ne hne]; exact .rfl

section Calls

variable (h : Tidy s) (hw : Awake s)
include h hw

theorem Tidy.refl_turns : Turns s s := ⟨.refl h, hw⟩

omit hw in
/-- A change that no thread sees. -/
theorem keeps_unseen (hv : ∀ t, view s' t = view s t) (htr : s'.trace = s.trace) : Keeps s s' := by
  refine ⟨⟨fun t => hv t ▸ h.placed t, fun x t hc hin => ?_⟩, fun t => hv t ▸ .rfl, [], htr, by simp⟩
  rw [hv x]
  exact h.waits x t ((congrArg (fun v => v.th.ctx) (hv x)).symm.trans hc) (htr ▸ hin)

omit h in
theorem awake_ret {r : Ret} : Awake (s.ret op r) :=
  ⟨hw.1, by simpa [Vp.ret, Vp.log, Vp.setCtx, Vp.modify] using hw.2⟩

theorem tidy_ret {r : Ret} (hi : ∀ p, (s.thr s.current).ctx ≠ .idle p) : Tidy (s.ret op r) :=
  tidy_user (l := [.returned s.current op r]) h hw hi (fun _ ht => view_ret_of_ne ht)
    ⟨_, _, _, _, view_ret⟩ rfl (by simp [Plain])

/-- The call of the current thread returns, with the flag `_ST_FL_INTERRUPT` as it is or cleared. -/
theorem turns_ret {r : Ret} (hi : ∀ p, (s.thr s.current).ctx ≠ .idle p)
    (hx : ∀ v, (s.thr s.current).ctx ≠ .within (.exit v)) (hr : Silent r) :
    Turns s (s.ret op r) := by
  exact ⟨keeps_user (l := [.returned s.current op r]) h hw hi hx (fun t ht => view_ret_of_ne ht)
    ⟨_, _, _, _, view_ret⟩ rfl (by simpa using minor_returned hr), awake_ret hw⟩

theorem turns_reply {r : Ret} (hc : (s.thr s.current).ctx = .user) (hr : Silent r) :
    Turns s (s.ret op r) := turns_ret h hw (by simp [hc]) (by simp [hc]) hr

theorem turns_clear (hi : ∀ p, (s.thr s.current).ctx ≠ .idle p)
    (hx : ∀ v, (s.thr s.current).ctx ≠ .within (.exit v)) {r : Ret} (hr : Silent r) :
    Turns s ((s.clearInterrupt s.current).ret op r) := by
  refine ⟨keeps_user (l := [.returned s.current op r]) h hw hi hx (fun t ht => ?_) ?_ rfl
    (by simpa using minor_returned hr), hw.1, by
    simpa [Vp.ret, Vp.log, Vp.setCtx, Vp.modify, Vp.clearInterrupt] using hw.2⟩
  · exact (view_log_of_ne ht rfl).trans
      ((view_modify_of_ne (s := s.clearInterrupt s.current) ht _).trans (view_modify_of_ne ht _))
  · exact ⟨_, _, _, _, view_clear_ret⟩

theorem turns_pause {st : TState} {y : Option UTime} (hc : (s.thr s.current).ctx = .user)
    (hx : ∀ v, op ≠ .exit v) (hst : st = .sleeping ∨ st = .condWait ∨ st = .lockWait)
    (hy : y.isSome → st = .sleeping ∨ st = .condWait) : Turns s (pause op st y s).vpSchedule := by
  have hp := keeps_pause h hw hc hx hst hy
  obtain ⟨hk, ha⟩ := keeps_schedule hp.tidy
  exact ⟨hp.trans hk, ha⟩

theorem turns_usleep {y : UTime} (hc : (s.thr s.current).ctx = .user) : Turns s (s.usleep y) := by
  rw [Vp.usleep]
  split
  · exact turns_clear h hw (by simp [hc]) (by simp [hc]) (by trivial)
  · rw [usleep_eq]
    exact turns_pause h hw hc (by simp) (.inl rfl) fun _ => .inl rfl

theorem turns_condTimedwait {w : WaitQ} {y : UTime} (hc : (s.thr s.current).ctx = .user)
    (hop : waitsOn (.within op) = some w) : Turns s (s.condTimedwait w y op) := by
  by_cases hint : (s.thr s.current).interrupt = true
  · rw [Vp.condTimedwait, if_pos hint]
    exact turns_clear h hw (by simp [hc]) (by simp [hc]) (by trivial)
  · rw [condTimedwait_eq hop y (by simpa using hint)]
    refine turns_pause h hw hc (by rintro v rfl; simp at hop) (.inr (.inl rfl)) fun _ => .inr rfl

omit h in
theorem ne_current {st : TState} (hst : (s.thr u).state = st) (hne : st ≠ .running) :
    u ≠ s.current := by
  rintro rfl
  exact hne (hst ▸ hw.2)

theorem beside_wake (hr : (s.thr u).state ≠ .running) (hb : (s.thr u).state ≠ .runnable)
    (hz : (s.thr u).state ≠ .zombie) (w : Wake) : Beside s (s.wake u w) :=
  ⟨keeps_wake h hr hb hz w, current_wake w, view_wake_of_ne (ne_current hw rfl hr).symm w⟩

omit h hw in
theorem beside_condSignalLoop (b : Bool) : ∀ (q : List ThreadPtr) {s : Vp}, Tidy s → Awake s →
    Beside s (s.condSignalLoop b q)
  | [], s, h, _ => ⟨.refl h, rfl, rfl⟩
  | t :: q, s, h, hw => by
    rw [Vp.condSignalLoop]
    split_ifs with ht hb
    · have hb := beside_wake h hw (u := t) (by simp [ht]) (by simp [ht]) (by simp [ht]) .signal
      exact hb.trans (beside_condSignalLoop b q hb.tidy (hb.awake hw))
    · exact beside_wake h hw (by simp [ht]) (by simp [ht]) (by simp [ht]) .signal
    · exact beside_condSignalLoop b q h hw

theorem turns_mutexLock {m : ℕ} (hc : (s.thr s.current).ctx = .user) : Turns s (s.mutexLock m) := by
  rw [Vp.mutexLock]
  split_ifs
  · exact turns_clear h hw (by simp [hc]) (by simp [hc]) (by trivial)
  · have hk : Keeps s { s with owner := update s.owner m (some s.current) } :=
      keeps_unseen h (fun _ => rfl) rfl
    exact hk.turns (turns_reply hk.tidy hw hc (by trivial))
  · exact turns_reply h hw hc (by trivial)
  · have he : ((s.setState s.current .lockWait).addWaitQ (.mutex m) s.current).switchContext (.mutexLock m) =
        (pause (.mutexLock m) .lockWait none s).vpSchedule := by
      have := addWaitQ_eq (s := s) (t := s.current) (waitsOn_mutexLock m)
      unfold Vp.addWaitQ at this
      simp_all [Vp.switchContext, Vp.setState, Vp.addWaitQ, Vp.setCtx, Vp.modify, pause]
    rw [he]
    exact turns_pause h hw hc (by simp) (.inr (.inr rfl)) (by simp)

theorem turns_mutexUnlock {m : ℕ} (hc : (s.thr s.current).ctx = .user) :
    Turns s (s.mutexUnlock m) := by
  rw [Vp.mutexUnlock]
  split_ifs
  · exact turns_reply h hw hc (by trivial)
  · split
    · rename_i t ht
      have hlock : (s.thr t).state = .lockWait := by simpa using List.find?_some ht
      have hk : Keeps s { s with owner := update s.owner m (some t) } :=
        keeps_unseen h (fun _ => rfl) rfl
      have hu := keeps_unlock (u := t) hk.tidy hlock
      have hne : s.current ≠ t := (ne_current hw hlock (by simp)).symm
      have hb : Beside s ({ s with owner := update s.owner m (some t) }.makeRunnable t .unlock) := by
        refine ⟨hk.trans hu, rfl, ?_⟩
        rw [Vp.makeRunnable, Vp.setState, view_log_of_ne hne rfl, view_addRunQ_of_ne hne,
          view_modify_of_ne hne]
        rfl
      have hcb := hb.ctx.trans hc
      exact hb.toKeeps.turns (turns_reply hb.tidy (hb.awake hw) hcb (by trivial))
    · have hk : Keeps s { s with owner := update s.owner m none } := keeps_unseen h (fun _ => rfl) rfl
      exact hk.turns (turns_reply hk.tidy hw hc (by trivial))

theorem turns_mutexTrylock {m : ℕ} (hc : (s.thr s.current).ctx = .user) :
    Turns s (s.mutexTrylock m) := by
  rw [Vp.mutexTrylock]
  split_ifs
  · exact turns_reply h hw hc (by trivial)
  · have hk : Keeps s { s with owner := update s.owner m (some s.current) } :=
      keeps_unseen h (fun _ => rfl) rfl
    exact hk.turns (turns_reply hk.tidy hw hc (by trivial))

theorem turns_interrupt (hc : (s.thr s.current).ctx = .user) :
    Turns s ((s.threadInterrupt t).ret (.interrupt t) .ok) := by
  by_cases hz : (s.thr t).state = .zombie
  · rw [Vp.threadInterrupt, if_pos hz]
    exact turns_reply h hw hc (by trivial)
  have hst : ((flag t s).thr t).state = (s.thr t).state := by simp
  have hk := keeps_flag (u := t) h
  by_cases hrun : (s.thr t).state = .running ∨ (s.thr t).state = .runnable
  · have he : s.threadInterrupt t = flag t s := by
      simp only [Vp.threadInterrupt, hz, if_false]
      exact if_pos (hst ▸ hrun)
    rw [he]
    have hv : ((flag t s).thr s.current).state = (s.thr s.current).state ∧
        ((flag t s).thr s.current).ctx = (s.thr s.current).ctx := by
      rcases eq_or_ne t s.current with rfl | hne
      · simp
      · rw [thr_of_view (view_flag_of_ne hne.symm)]
        exact ⟨rfl, rfl⟩
    exact hk.turns (turns_reply hk.tidy ⟨hw.1, hv.1.trans hw.2⟩ (hv.2.trans hc) (by trivial))
  · have he : s.threadInterrupt t = (flag t s).wake t .interrupt := by
      simp only [Vp.threadInterrupt, hz, if_false]
      exact if_neg (hst ▸ hrun)
    rw [he]
    obtain ⟨hr, hb⟩ := not_or.mp hrun
    have hne : s.current ≠ t := (ne_current hw rfl hr).symm
    have hf : Beside s (flag t s) := ⟨hk, rfl, view_flag_of_ne hne⟩
    have hb := hf.trans (beside_wake (u := t) hk.tidy (hf.awake hw) (hst ▸ hr) (hst ▸ hb) (hst ▸ hz)
      .interrupt)
    have hcb := hb.ctx.trans hc
    exact hb.toKeeps.turns (turns_reply hb.tidy (hb.awake hw) hcb (by trivial))

end Calls

/-! ### What happens to the lives -/

/-- Of the other threads a creation touches at most the wait queues. -/
theorem view_create_of_ne {a : ThreadPtr} (j : Bool) (hne : t ≠ a) :
    ∃ ws, view (s.threadCreate a j .user) t = { view s t with waits := ws } :=
  ⟨fun w => ((s.threadCreate a j .user).waitQ w).count t, by
    simp [view, Vp.threadCreate, Vp.addRunQ, Vp.log, subject, hne, hne.symm]⟩

/-- A thread is created. -/
theorem tidy_create {a : ThreadPtr} {j : Bool} (h : Tidy s) (ha : a ∉ s.live) :
    Tidy (s.threadCreate a j .user) := by
  have hpa := h.placed a
  have hdead : (view s a).alive = 0 := List.count_eq_zero.mpr ha
  have hna : (view s a).isIdle = false := by
    by_contra hi
    have := (hpa.idle (by simpa using hi)).1
    omega
  have hoff : (view s a).runs = 0 ∧ (view s a).sleeps = 0 := by
    have hr := hpa.runs
    rw [if_neg fun hx => by omega] at hr
    refine ⟨by omega, ?_⟩
    rw [hpa.sleeps, if_neg fun hq => ?_]
    have := hpa.blocked (hpa.not_ready hq).1 (hpa.not_ready hq).2
    omega
  refine ⟨fun t => ?_, fun x t hc hin => ?_⟩
  · rcases eq_or_ne t a with rfl | hne
    · have hth : (view (s.threadCreate t j .user) t).th = Vp.newThread j .user := thr_threadCreate j
      have hal : (view (s.threadCreate t j .user) t).alive = 1 := by
        change (t :: s.live).count t = 1
        rw [List.count_cons_self]
        exact congrArg (· + 1) hdead
      have hrun : (view (s.threadCreate t j .user) t).runs = 1 := by
        change (s.runQ ++ [t]).count t = 1
        rw [List.count_append, List.count_singleton_self]
        exact congrArg (· + 1) hoff.1
      have hid : (view (s.threadCreate t j .user) t).isIdle = false := hna
      have hsl : (view (s.threadCreate t j .user) t).sleeps = 0 := hoff.2
      refine ⟨hal.le, ?_, ?_, ?_, fun _ _ => hal, ?_, ?_⟩
      · rw [hrun, hal, hth, hid]; simp [Vp.newThread]
      · rw [hsl, hth]; simp [Vp.newThread]
      · rw [hth]; simp [Vp.newThread]
      · simp [hal]
      · simp [hid]
    · obtain ⟨ws, hv⟩ := view_create_of_ne (s := s) j hne
      have hp := h.placed t
      rw [hv]
      exact ⟨hp.alive, hp.runs, hp.sleeps, hp.asleep, hp.blocked, hp.gone, hp.idle⟩
  · have htr : (s.threadCreate a j .user).trace = .created a :: s.trace := rfl
    rw [htr] at hin
    rcases eq_or_ne t a with rfl | hta
    · obtain ⟨p, hin⟩ := hin
      rw [life_created] at hin
      exact absurd hin List.not_mem_nil
    · have hxa : x ≠ a := by
        rintro rfl
        rw [thr_threadCreate] at hc
        cases hc
      have hthr : (s.threadCreate a j .user).thr x = s.thr x := by
        obtain ⟨ws, hv⟩ := view_create_of_ne (s := s) j hxa
        exact congrArg View.th hv
      rw [hthr] at hc
      have hpos := h.waits x t hc (hin.imp fun p hq => by
        rw [life_cons (by simpa using fun he => hta he.symm)] at hq
        exact (List.mem_cons.mp hq).resolve_left (by simp))
      have hq : (s.threadCreate a j .user).waitQ (.term t) = s.waitQ (.term t) := by
        change (if j then update s.waitQ (.term a) [] else s.waitQ) (.term t) = _
        split
        · exact update_of_ne (by simpa using hta) _ _
        · rfl
      change 0 < ((s.threadCreate a j .user).waitQ (.term t)).count x
      rw [hq]
      exact hpos

/-- The current thread becomes a zombie. -/
theorem tidy_die {v : ℕ} (h : Tidy s) (hw : Awake s) (hc : (s.thr s.current).ctx = .user) :
    Tidy (die v s) := by
  have hp := h.placed s.current
  have ha : (view s s.current).alive = 1 := le_antisymm hp.alive (List.count_pos_iff.mpr hw.1)
  have hni := hp.not_idle (by simp [hc])
  have hruns : (view s s.current).runs = 0 := hp.runs_zero (by simp [hw.2])
  have hq : (s.thr s.current).onSleepQ = false := by
    by_contra hq
    exact (hp.not_ready (by simpa using hq)).1 hw.2
  have hv : ∀ t ≠ s.current, view (die v s) t = view s t := fun t ht => by
    simp [view, die, ht, ht.symm]
  refine ⟨fun t => ?_, fun x t hx hin => ?_⟩
  · rcases eq_or_ne t s.current with rfl | hne
    · rw [view_die]
      exact ⟨hp.alive, by simp [hruns], hp.sleeps, by simp [hq], by simp [ha], by simp [ha],
        by simp [hni]⟩
    · exact hv t hne ▸ h.placed t
  · rcases eq_or_ne x s.current with rfl | hne
    · simp at hx
    · rw [hv x hne]
      exact h.waits x t ((congrArg (fun v => v.th.ctx) (hv x hne)).symm.trans hx) hin

/-- The current thread ceases to exist. -/
theorem tidy_depart {f : Thread → Thread} {n : ℤ} (h : Tidy s) (hw : Awake s)
    (hi : ∀ p, (s.thr s.current).ctx ≠ .idle p) (hj : ∀ t, (s.thr s.current).ctx ≠ .within (.join t))
    (hf : ∀ th, (f th).state = th.state ∧ (f th).onSleepQ = th.onSleepQ ∧ (f th).ctx = th.ctx) :
    Tidy (depart f n s) := by
  have hp := h.placed s.current
  have ha : (view s s.current).alive = 1 := le_antisymm hp.alive (List.count_pos_iff.mpr hw.1)
  have hni := hp.not_idle hi
  have hruns : (view s s.current).runs = 0 := hp.runs_zero (by simp [hw.2])
  obtain ⟨hst, ho, hcf⟩ := hf (s.thr s.current)
  have hst' : (f (s.thr s.current)).state = .running := hst.trans hw.2
  refine ⟨fun t => ?_, fun x t hx hin => ?_⟩
  · rcases eq_or_ne t s.current with rfl | hne
    · rw [view_depart]
      refine ⟨by simp [ha], by simp [hruns], ?_, ?_, ?_, fun _ _ => hst', ?_⟩
      · show (view s s.current).sleeps = if (f (s.thr s.current)).onSleepQ = true then 1 else 0
        rw [ho]
        exact hp.sleeps
      · simpa [ho, hst] using hp.asleep
      · simp [hst']
      · simp [hni]
    · rw [view_depart_of_ne hne]; exact h.placed t
  · have hne : x ≠ s.current := by
      rintro rfl
      rw [thr_depart, hcf] at hx
      exact hj t hx
    have hv := view_depart_of_ne hne f n
    rw [hv]
    refine h.waits x t ((congrArg (fun v => v.th.ctx) hv).symm.trans hx) (hin.imp fun p hq => ?_)
    change _ ∈ life t (if _ then s.trace else .stackFreed s.current :: s.trace) at hq
    split at hq
    · exact hq
    · rw [life_cons (by simp)] at hq
      exact (List.mem_cons.mp hq).resolve_left (by simp)

/-- A zombie is joined: it is ready to run again. -/
theorem tidy_joined (h : Tidy s) (hz : (s.thr u).state = .zombie) :
    Tidy ((s.delZombieQ u).makeRunnable u .join) := by
  have hp := h.placed u
  have ha : (view s u).alive = 1 := hp.blocked (by simp [hz]) (by simp [hz])
  have hi : (view s u).isIdle = false := hp.blocked_not_idle (by simp [hz]) (by simp [hz])
  have hruns : (view s u).runs = 0 := hp.runs_zero (by simp [hz])
  have hq : (s.thr u).onSleepQ = false := by
    by_contra hq
    rcases hp.asleep (by simpa using hq) with hst | hst <;> simp [hz] at hst
  have hv : ∀ t ≠ u, view ((s.delZombieQ u).makeRunnable u .join) t = view s t := fun t ht => by
    rw [Vp.makeRunnable, Vp.setState, view_log_of_ne ht rfl, view_addRunQ_of_ne ht,
      view_modify_of_ne ht, view_delZombieQ_of_ne ht]
  refine ⟨fun t => ?_, fun x t hx hin => ?_⟩
  · rcases eq_or_ne t u with rfl | hne
    · rw [view_joined]
      exact ⟨hp.alive, by simp [hruns, ha, hi], hp.sleeps, by simp [hq], by simp, by simp [ha],
        by simp [hi]⟩
    · exact hv t hne ▸ h.placed t
  · have hin' : ∃ p, .called x (.join t) p ∈ life t s.trace := hin.imp fun p hq => by
      change _ ∈ life t (.woken u .join :: s.trace) at hq
      rw [life_cons (by simp)] at hq
      exact (List.mem_cons.mp hq).resolve_left (by simp)
    rcases eq_or_ne x u with rfl | hne
    · have hcx : (((s.delZombieQ x).makeRunnable x .join).thr x).ctx = (s.thr x).ctx :=
        congrArg (fun v => v.th.ctx) view_joined
      rw [view_joined]
      exact h.waits x t (hcx.symm.trans hx) hin'
    · rw [hv x hne]
      exact h.waits x t ((congrArg (fun v => v.th.ctx) (hv x hne)).symm.trans hx) hin'

/-- **What a step does to the lives**: nothing, or a thread is created, becomes a zombie, leaves, cleans
up after it was joined, or is joined. -/
inductive Turn (s : Vp) : Vp → Prop
  | keeps {s' : Vp} : Keeps s s' → Turn s s'
  | born {s₁ : Vp} {a : ThreadPtr} {j : Bool} : Keeps s s₁ → Awake s₁ →
      (s₁.thr s₁.current).ctx = .user → a ∉ s₁.live →
      Turn s ((s₁.threadCreate a j .user).ret (.create (some a) j) (.created (some a)))
  | dies {s' : Vp} {v : ℕ} {p : Bool} : Awake s → (s.thr s.current).ctx = .user →
      (s.thr s.current).term = true → Keeps (die v (s.log (.called s.current (.exit v) p))) s' → Turn s s'
  | leaves {s' : Vp} {v : ℕ} {p : Bool} {n : ℤ} : Awake s → (s.thr s.current).ctx = .user →
      (s.thr s.current).term = false →
      Keeps (depart (fun th => { th with retval := v }) n (s.log (.called s.current (.exit v) p))) s' →
      Turn s s'
  | cleanup {s' : Vp} {v : ℕ} {n : ℤ} : Awake s → (s.thr s.current).ctx = .within (.exit v) →
      Keeps (depart (fun th => { th with term := false }) n s) s' → Turn s s'
  | joined {s₁ : Vp} {t : ThreadPtr} : Keeps s s₁ → Awake s₁ → (s₁.thr s₁.current).ctx = .user →
      (s₁.thr t).state = .zombie →
      Turn s (((s₁.delZombieQ t).makeRunnable t .join).ret (.join t) (.joined (s₁.thr t).retval))

/-- A step, with what it leaves. -/
structure Step (s s' : Vp) : Prop where
  turn : Turn s s'
  tidy : Tidy s'
  awake : Awake s'

theorem Turns.step (h : Turns s s') : Step s s' := ⟨.keeps h.toKeeps, h.tidy, h.awake⟩

/-- The loop of `st_thread_join`, reached without a change to the lives. -/
theorem step_joinLoop {s₁ : Vp} (hk : Keeps s s₁) (hw : Awake s₁) (hc : (s₁.thr s₁.current).ctx = .user) :
    Step s (s₁.joinLoop t) := by
  rw [Vp.joinLoop]
  split_ifs with hz
  · have hne : t ≠ s₁.current := ne_current hw hz (by simp)
    have hv : view ((s₁.delZombieQ t).makeRunnable t .join) s₁.current = view s₁ s₁.current := by
      rw [Vp.makeRunnable, Vp.setState, view_log_of_ne hne.symm rfl, view_addRunQ_of_ne hne.symm,
        view_modify_of_ne hne.symm, view_delZombieQ_of_ne hne.symm]
    have ht := tidy_joined hk.tidy hz
    have hw' : Awake ((s₁.delZombieQ t).makeRunnable t .join) :=
      ⟨hw.1, (congrArg (fun v => v.th.state) hv).trans hw.2⟩
    have hc' : (((s₁.delZombieQ t).makeRunnable t .join).thr s₁.current).ctx = .user :=
      (congrArg (fun v => v.th.ctx) hv).trans hc
    exact ⟨.joined hk hw hc hz, tidy_ret ht hw' (fun p hp => by cases hc'.symm.trans hp), awake_ret hw'⟩
  · exact (hk.turns (turns_condTimedwait hk.tidy hw hc rfl)).step

theorem step_threadJoin {s₁ : Vp} (hk : Keeps s s₁) (hw : Awake s₁)
    (hc : (s₁.thr s₁.current).ctx = .user) : Step s (s₁.threadJoin t) := by
  rw [Vp.threadJoin]
  split_ifs
  · exact (hk.turns (turns_reply hk.tidy hw hc (by trivial))).step
  · exact (hk.turns (turns_reply hk.tidy hw hc (by trivial))).step
  · exact (hk.turns (turns_reply hk.tidy hw hc (by trivial))).step
  · exact step_joinLoop hk hw hc

section Steps

variable (h : Tidy s) (hw : Awake s)
include h hw

/-- A call, but for `st_thread_exit`. -/
theorem step_callOp {p : Bool} (hc : (s.thr s.current).ctx = .user) (hx : ∀ v, op ≠ .exit v)
    (hio : ∀ k o n, op ≠ .io k o n) (hcr : ∀ a j, op = .create (some a) j → a ∉ s.live) :
    Step s ((s.log (.called s.current op p)).callOp op) := by
  have hk := keeps_called (p := p) h hw hc hx
  have hw₁ : Awake (s.log (.called s.current op p)) := hw
  have hc₁ : ((s.log (.called s.current op p)).thr s.current).ctx = .user := hc
  have hr : ∀ {r : Ret}, Silent r →
      Turns (s.log (.called s.current op p)) ((s.log (.called s.current op p)).ret op r) := fun hr =>
    turns_reply hk.tidy hw₁ hc₁ hr
  cases op with
  | create a j =>
    cases a with
    | none => exact (hk.turns (hr (by trivial))).step
    | some a =>
      have ha := hcr a j rfl
      have ht := tidy_create (j := j) hk.tidy ha
      have hne : s.current ≠ a := fun he => ha (he ▸ hw.1)
      have hthr : ((s.log (.called s.current (.create (some a) j) p)).threadCreate a j .user).thr
          s.current = s.thr s.current := by
        simp [Vp.threadCreate, Vp.addRunQ, Vp.log, hne]
      have hw₂ : Awake ((s.log (.called s.current (.create (some a) j) p)).threadCreate a j .user) :=
        ⟨List.mem_cons_of_mem _ hw.1, (congrArg Thread.state hthr).trans hw.2⟩
      have hc₂ := (congrArg Thread.ctx hthr).trans hc
      exact ⟨.born hk hw₁ hc₁ ha, tidy_ret ht hw₂ (fun p hp => by cases hc₂.symm.trans hp), awake_ret hw₂⟩
  | exit v => exact absurd rfl (hx v)
  | join t => exact step_threadJoin hk hw₁ hc₁
  | usleep y => exact (hk.turns (turns_usleep hk.tidy hw₁ hc₁)).step
  | condTimedwait c y => exact (hk.turns (turns_condTimedwait hk.tidy hw₁ hc₁ rfl)).step
  | condSignal c b =>
    have hb := beside_condSignalLoop b (s.waitQ (.cond c)) hk.tidy hw₁
    have hcb := hb.ctx.trans hc₁
    exact (hk.turns (hb.toKeeps.turns (turns_reply hb.tidy (hb.awake hw₁) hcb (by trivial)))).step
  | mutexLock m => exact (hk.turns (turns_mutexLock hk.tidy hw₁ hc₁)).step
  | mutexUnlock m => exact (hk.turns (turns_mutexUnlock hk.tidy hw₁ hc₁)).step
  | mutexTrylock m => exact (hk.turns (turns_mutexTrylock hk.tidy hw₁ hc₁)).step
  | interrupt t => exact (hk.turns (turns_interrupt hk.tidy hw₁ hc₁)).step
  | io k o n => exact absurd rfl (hio k o n)

/-- The current thread leaves: the next one is scheduled. -/
theorem step_depart {f : Thread → Thread} {n : ℤ} (hi : ∀ p, (s.thr s.current).ctx ≠ .idle p)
    (hj : ∀ t, (s.thr s.current).ctx ≠ .within (.join t))
    (hf : ∀ th, (f th).state = th.state ∧ (f th).onSleepQ = th.onSleepQ ∧ (f th).ctx = th.ctx) :
    Turns (depart f n s) (depart f n s).vpSchedule := by
  obtain ⟨hk, ha⟩ := keeps_schedule (tidy_depart (n := n) h hw hi hj hf)
  exact ⟨hk, ha⟩

theorem step_threadExit {v : ℕ} {p : Bool} (hc : (s.thr s.current).ctx = .user) :
    Step s ((s.log (.called s.current (.exit v) p)).threadExit v) := by
  have ht : Tidy (s.log (.called s.current (.exit v) p)) := tidy_called h hw hc
  have hw₁ : Awake (s.log (.called s.current (.exit v) p)) := hw
  generalize hs₁ : s.log (.called s.current (.exit v) p) = s₁ at ht hw₁ ⊢
  have hcur : s₁.current = s.current := by rw [← hs₁]; rfl
  have hthr : s₁.thr = s.thr := by rw [← hs₁]; rfl
  by_cases htm : (s.thr s.current).term = true
  · have he : s₁.threadExit v = ((die v s₁).condSignal (.term s₁.current) false).vpSchedule := by
      rw [← die_eq, Vp.threadExit]
      exact if_pos (by simpa [Vp.modify, hcur, hthr] using htm)
    have hd := tidy_die (v := v) ht hw₁ (by rw [hthr, hcur]; exact hc)
    have hsig : ∀ (q : List ThreadPtr) {s : Vp}, Tidy s → Keeps s (s.condSignalLoop false q) := by
      intro q
      induction q with
      | nil => exact fun h => .refl h
      | cons x q ih =>
        intro s h
        rw [Vp.condSignalLoop]
        split_ifs with hx hb
        · exact absurd hb (by simp)
        · exact keeps_wake h (by simp [hx]) (by simp [hx]) (by simp [hx]) .signal
        · exact ih h
    have hk := hsig ((die v s₁).waitQ (.term s₁.current)) hd
    obtain ⟨hk', ha⟩ := keeps_schedule hk.tidy
    rw [he]
    refine ⟨.dies (v := v) (p := p) hw hc htm ?_, hk'.tidy, ha⟩
    rw [hs₁]
    exact hk.trans hk'
  · have he : s₁.threadExit v =
        (depart (fun th => { th with retval := v }) (s₁.activeCount - 1) s₁).vpSchedule := by
      rw [← threadGone_eq, Vp.threadExit]
      exact if_neg (by simpa [Vp.modify, hcur, hthr] using htm)
    have hd := step_depart (f := fun th => { th with retval := v }) (n := s₁.activeCount - 1) ht hw₁
      (fun q hq => by rw [hthr, hcur, hc] at hq; cases hq)
      (fun t hq => by rw [hthr, hcur, hc] at hq; cases hq) (fun _ => ⟨rfl, rfl, rfl⟩)
    rw [he]
    refine ⟨.leaves (v := v) (p := p) (n := s₁.activeCount - 1) hw hc (by simpa using htm) ?_, hd.tidy,
      hd.awake⟩
    rw [hs₁]
    exact hd.toKeeps

/-! ### The rest of a call, and the idle thread -/

omit h in
theorem awake_leave {w : WaitQ} : Awake (s.condTimedwaitLeave w) :=
  ⟨hw.1, (congrArg Thread.state (thr_leave w)).trans hw.2⟩

theorem keeps_leave {w : WaitQ} (hi : ∀ p, (s.thr s.current).ctx ≠ .idle p)
    (hx : ∀ v, (s.thr s.current).ctx ≠ .within (.exit v)) : Keeps s (s.condTimedwaitLeave w) := by
  refine keeps_user (l := []) h hw hi hx (fun t ht => ?_) ⟨_, _, _, _, view_leave w⟩ rfl (by simp)
  rw [Vp.condTimedwaitLeave, view_modify_of_ne ht, view_delWaitQ_of_ne ht]

/-- The rest of a call, but for `st_thread_exit`. -/
theorem step_resumeOp (hc : (s.thr s.current).ctx = .within op) (hx : ∀ v, op ≠ .exit v) :
    Step s (s.resumeOp op) := by
  have hi : ∀ p, (s.thr s.current).ctx ≠ .idle p := fun p hp => by cases hc.symm.trans hp
  have hx' : ∀ v, (s.thr s.current).ctx ≠ .within (.exit v) := fun v hv => by
    rw [hc] at hv
    exact hx v (by simpa using hv)
  cases op with
  | exit v => exact absurd rfl (hx v)
  | join t =>
    have hk := keeps_leave (w := .term t) h hw hi hx'
    have hcl : ((s.condTimedwaitLeave (.term t)).thr s.current).ctx = .user :=
      congrArg Thread.ctx (thr_leave _)
    show Step s (s.threadJoinResume t)
    rw [Vp.threadJoinResume]
    split
    · exact (hk.turns (turns_reply hk.tidy (awake_leave hw) hcl (by trivial))).step
    · exact step_joinLoop hk (awake_leave hw) hcl
  | usleep y =>
    show Step s (s.usleepResume y)
    rw [Vp.usleepResume]
    split_ifs
    · exact (turns_clear h hw hi hx' (by trivial)).step
    · exact (turns_ret h hw hi hx' (by trivial)).step
  | condTimedwait c y =>
    have hk := keeps_leave (w := .cond c) h hw hi hx'
    have hcl : ((s.condTimedwaitLeave (.cond c)).thr s.current).ctx = .user :=
      congrArg Thread.ctx (thr_leave _)
    refine (hk.turns (turns_reply hk.tidy (awake_leave hw) hcl ?_)).step
    split <;> trivial
  | mutexLock m =>
    show Step s (s.mutexLockResume m)
    have hk : Keeps s (s.delWaitQ (.mutex m) s.current) := by
      refine keeps_of_own (u := s.current) (l := []) h (fun t ht => view_delWaitQ_of_ne ht _) ?_ ?_ rfl
        (by simp) fun t hct => ?_
      · have hp := h.placed s.current
        exact ⟨hp.alive, hp.runs, hp.sleeps, hp.asleep, hp.blocked, hp.gone, hp.idle⟩
      · exact ⟨rfl, rfl, rfl, rfl, rfl, .rfl, fun _ => .rfl⟩
      · cases hc.symm.trans hct
    rw [Vp.mutexLockResume]
    split_ifs
    · exact (hk.turns (turns_clear hk.tidy hw hi hx' (by trivial))).step
    · exact (hk.turns (turns_ret hk.tidy hw hi hx' (by trivial))).step
  | io k o n =>
    show Step s (s.ioResume k o n)
    have hr : Silent (Vp.ioResult (s.thr s.current) k) := by cases k <;> trivial
    rw [Vp.ioResume]
    split_ifs
    · exact (turns_clear h hw hi hx' hr).step
    · exact (turns_ret h hw hi hx' hr).step
  | create | condSignal | mutexUnlock | mutexTrylock | interrupt => exact (h.refl_turns hw).step

theorem step_threadExitResume {v : ℕ} (hc : (s.thr s.current).ctx = .within (.exit v)) :
    Step s s.threadExitResume := by
  have he : s.threadExitResume =
      (depart (fun th => { th with term := false }) s.activeCount s).vpSchedule :=
    (threadGone_eq _ _).symm ▸ rfl
  have hd := step_depart (f := fun th => { th with term := false }) (n := s.activeCount) h hw
    (fun q hq => by cases hc.symm.trans hq) (fun t hq => by cases hc.symm.trans hq)
    (fun _ => ⟨rfl, rfl, rfl⟩)
  rw [he]
  exact ⟨.cleanup (n := s.activeCount) hw hc hd.toKeeps, hd.tidy, hd.awake⟩

/-- The idle thread goes on, or makes room for another. -/
theorem keeps_idle {q p : IdlePhase} (hc : (s.thr s.current).ctx = .idle q) {st : TState}
    (hst : st = .running ∨ st = .runnable) :
    Keeps s (s.modify s.current fun th => { th with state := st, ctx := .idle p }) := by
  have hp := h.placed s.current
  have ha : (view s s.current).alive = 1 := le_antisymm hp.alive (List.count_pos_iff.mpr hw.1)
  have hq : (s.thr s.current).onSleepQ = false := by
    by_contra hq
    exact (hp.not_ready (by simpa using hq)).1 hw.2
  have hruns : (view s s.current).runs = 0 := hp.runs_zero (by simp [hw.2])
  refine keeps_of_own (l := []) h (fun t ht => view_modify_of_ne ht _) ?_ ?_ rfl (by simp)
    fun t hct => ?_
  · rw [view_modify]
    exact ⟨hp.alive, by simp [hruns], hp.sleeps, by simp [hq], fun _ _ => ha, by simp [ha],
      fun _ => ⟨ha, ⟨p, rfl⟩, hst⟩⟩
  · rw [view_modify]
    exact ⟨rfl, rfl, rfl, rfl, rfl, by rcases hst with rfl | rfl <;> simp [hw.2], by simp [hc]⟩
  · simp at hct

omit h hw in
/-- The clock makes sleepers runnable, one after the other. -/
theorem beside_checkClockLoop : ∀ (q : List ThreadPtr) (e : UTime) {s : Vp}, Tidy s → Awake s → q.Nodup →
    (∀ t ∈ q, t ∈ s.sq.links) → Beside s (s.checkClockLoop e q)
  | [], _, s, h, _, _, _ => ⟨.refl h, rfl, rfl⟩
  | t :: q, e, s, h, hw, hd, hq => by
    rw [Vp.checkClockLoop]
    split_ifs
    · exact ⟨keeps_unseen h (fun _ => rfl) rfl, rfl, rfl⟩
    · have ho := (sleeper_iff h).mp (hq t List.mem_cons_self)
      have hne : s.current ≠ t := (ne_current hw rfl ((h.placed t).not_ready ho).1).symm
      have hb : Beside s (s.expireThread t) :=
        ⟨keeps_expire h ho, current_expireThread, view_expireThread_of_ne hne⟩
      refine hb.trans (beside_checkClockLoop q _ hb.tidy (hb.awake hw) (List.nodup_cons.mp hd).2 ?_)
      intro x hx
      rw [sq_expireThread, links_del]
      refine (List.mem_erase_of_ne fun he => ?_).mpr (hq x (List.mem_cons_of_mem t hx))
      exact (List.nodup_cons.mp hd).1 (he ▸ hx)

theorem turns_idleClock {q : IdlePhase} (hc : (s.thr s.current).ctx = .idle q) (now : UTime) :
    Turns s (s.idleClock now) := by
  have hd : s.sq.links.Nodup := List.nodup_iff_count.mpr fun t => by
    have hs := (h.placed t).sleeps
    change (view s t).sleeps ≤ 1
    split_ifs at hs <;> omega
  have hk : Keeps s { s with lastClock := now } := keeps_unseen h (fun _ => rfl) rfl
  have hb := beside_checkClockLoop s.sq.links (now - s.lastClock) hk.tidy hw hd fun _ ht => ht
  change Beside _ (s.vpCheckClock now) at hb
  have hcur : (s.vpCheckClock now).current = s.current := hb.current
  have hi := keeps_idle (p := .wait) hb.tidy (hb.awake hw) (hb.ctx.trans hc) (.inr rfl)
  have he : ((s.vpCheckClock now).setState s.current .runnable).setCtx s.current (.idle .wait) =
      (s.vpCheckClock now).modify (s.vpCheckClock now).current
        fun th => { th with state := .runnable, ctx := .idle .wait } := by
    rw [hcur]
    simp [Vp.setState, Vp.setCtx, Vp.modify]
  obtain ⟨hs, ha⟩ := keeps_schedule hi.tidy
  rw [Vp.idleClock, he]
  exact ⟨hk.trans (hb.toKeeps.trans (hi.trans hs)), ha⟩

omit h hw in
theorem enabled_call (he : Enabled s (.call op)) : (s.thr s.current).ctx = .user ∧
    (∀ k o n, op ≠ .io k o n) ∧ ∀ a j, op = .create (some a) j → a ∉ s.live := by
  cases op with
  | io k o n => exact he.elim
  | create a j =>
    refine ⟨he.1, by simp, fun b i hb => ?_⟩
    obtain ⟨rfl, -⟩ : a = some b ∧ j = i := by simpa using hb
    exact he.2
  | _ => exact ⟨he.1, by simp, by simp⟩

/-- **Every step** is a turn in the lives. -/
theorem step_apply {a : Vp.Action} (hq : s.readyQ = []) (he : Enabled s a) :
    Step s (Vp.apply s a) := by
  have hidle : ∀ {q p : IdlePhase}, (s.thr s.current).ctx = .idle q →
      Step s (s.setCtx s.current (.idle p)) := by
    intro q p hc
    have hk := keeps_idle (p := p) h hw hc (.inl rfl)
    have hs : s.setCtx s.current (.idle p) =
        s.modify s.current fun th => { th with state := .running, ctx := .idle p } := by
      have hst := hw.2
      simp only [Vp.setCtx, Vp.modify]
      rw [← hst]
    rw [hs]
    exact Turns.step ⟨hk, hw.1, by simp [Vp.modify]⟩
  cases a with
  | call op =>
    obtain ⟨hc, hio, hcr⟩ := enabled_call he
    change Step s ((s.log (.called s.current op (s.thr s.current).interrupt)).callOp op)
    by_cases hx : ∃ v, op = .exit v
    · obtain ⟨v, rfl⟩ := hx
      exact step_threadExit h hw hc
    · exact step_callOp h hw hc (fun v hv => hx ⟨v, hv⟩) hio hcr
  | resume =>
    obtain ⟨op, hc⟩ := he
    change Step s (machine.apply s .resume)
    rw [apply_resume hc]
    by_cases hx : ∃ v, op = .exit v
    · obtain ⟨v, rfl⟩ := hx
      exact step_threadExitResume h hw hc
    · exact step_resumeOp h hw hc fun v hv => hx ⟨v, hv⟩
  | idleWait b => exact hidle he.1
  | idleDrain =>
    change Step s s.idleDrain
    rw [Vp.idleDrain, hq]
    exact hidle he
  | idleClock now => exact (turns_idleClock h hw he now).step
  | complete e n => exact he.elim

end Steps

/-! ### Runs -/

theorem ios_lives {a : Vp.Action} (he : Enabled s a) (hs : ios s = ([], [])) :
    ios (Vp.apply s a) = ([], []) := by
  match a, he with
  | .call op, he => exact (ios_callOp (enabled_call he).2.1).trans hs
  | .resume, he => exact ios_apply (a := .resume) he trivial hs
  | .idleWait b, he => exact ios_apply (a := .idleWait b) he trivial hs
  | .idleDrain, he => exact ios_apply (a := .idleDrain) he trivial hs
  | .idleClock now, he => exact ios_apply (a := .idleClock now) he trivial hs

theorem tidy_stInit {i p : ThreadPtr} {now : UTime} (hne : i ≠ p) : Tidy (Vp.stInit i p now) := by
  refine ⟨fun t => ?_, fun x t hc hin => ?_⟩
  · rw [view_stInit]
    by_cases htp : t = p
    · subst htp
      rw [thr_stInit_prim]
      constructor <;> simp [Vp.primordialThread, Vp.newThread, hne.symm]
    by_cases hti : t = i
    · subst hti
      rw [thr_stInit_idle hne]
      constructor <;> simp [Vp.newThread, Ne.symm hne]
    · have h0 : [p, i].count t = 0 := by simp [Ne.symm htp, Ne.symm hti]
      have hth : (Vp.stInit i p now).thr t = Vp.newThread false .user := by
        simp [Vp.stInit, Vp.threadCreate, Vp.addRunQ, Vp.delRunQ, Vp.log, Vp.modify, Vp.blank, htp, hti]
      rw [hth]
      constructor <;> simp [h0, hti, Vp.newThread]
  · obtain ⟨p', hin⟩ := hin
    exact absurd hin List.not_mem_nil

/-- In every run the threads are placed, and nothing is in flight. -/
theorem tidy_reach (h : Reach livesMachine s) : Tidy s ∧ Awake s ∧ ios s = ([], []) := by
  refine h.invariant (I := fun s => Tidy s ∧ Awake s ∧ ios s = ([], [])) ?_ ?_
  · rintro s ⟨i, p, now, hne, rfl⟩
    refine ⟨tidy_stInit hne, ⟨List.mem_pair.mpr (.inl rfl), ?_⟩, rfl⟩
    change ((Vp.stInit i p now).thr p).state = _
    rw [thr_stInit_prim]
    rfl
  · rintro s a ⟨ht, hw, hio⟩ he -
    have hs := step_apply ht hw (Prod.mk.inj hio).2 he
    exact ⟨hs.tidy, hs.awake, ios_lives he hio⟩

end StNvs.Sched.Lives
