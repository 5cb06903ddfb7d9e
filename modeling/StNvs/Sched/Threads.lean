import StNvs.Sched.Moves

/-! # Each thread is where its state and its flags say

`Good v` is what is always true of one thread: it is on the run queue, the sleep queue, the zombie queue
and a wait queue as often as its fields say, once at most, and the fields fit together (`Steady`).
`good_move`: a move keeps that of the thread it is about. -/

namespace StNvs.Sched.Threads

open StNvs.Sched.Sleep StNvs.Sched.Model StNvs.Sched.Moves Function

/-- What is always true of the fields of a thread that exists. -/
structure Steady (th : Thread) (isIdle : Bool) (log : List Event) : Prop where
  asleep : th.state = .sleeping → th.onSleepQ = true
  onSleepQ : th.onSleepQ = true → th.state = .sleeping ∨
    th.state = .condWait ∧ ∃ c u, th.ctx = .within (.condTimedwait c u)
  blocked : th.state = .running ∨ th.state = .runnable ∨ blockState th.ctx = some th.state
  timedOut : th.timedOut = true →
    (th.state = .running ∨ th.state = .runnable) ∧ ∃ c u, th.ctx = .within (.condTimedwait c u)
  idle : isIdle = true ↔ ∃ p, th.ctx = .idle p
  inside : ∀ op, th.ctx = .within op →
    (blockState th.ctx).isSome ∧ ∃ p, openCall log = some (op, p)

/-! ### One thread at a time -/

section Thread
variable {th : Thread} {b : Bool} {l : List Event} (h : Steady th b l)
include h

theorem Steady.not_idle (hc : ∀ p, th.ctx ≠ .idle p) : b = false := by
  by_contra hb
  obtain ⟨p, hp⟩ := h.idle.mp (by simpa using hb)
  exact hc p hp

/-- A zombie is inside `st_thread_exit`. -/
theorem Steady.exiting (hs : th.state = .zombie) : ∃ v, th.ctx = .within (.exit v) := by
  have hb := h.blocked
  simp only [hs, reduceCtorEq, false_or] at hb
  match hc : th.ctx, hb with
  | .within (.exit v), _ => exact ⟨v, rfl⟩

/-- A running thread that is back in its own code. -/
theorem Steady.user (hs : th.state = .running) (hc : ∀ p, th.ctx ≠ .idle p) (i : Bool) (r : ℕ) (l' : List Event) :
    Steady { th with timedOut := false, interrupt := i, ctx := .user, retval := r } b l' where
  asleep := by simp [hs]
  onSleepQ ho := by simpa [hs] using h.onSleepQ ho
  blocked := .inl hs
  timedOut := by simp
  idle := by simp [h.not_idle hc]
  inside := by simp

/-- A running thread that blocks. -/
theorem Steady.pause {s : Vp} {op : Op} {st : TState} {x : Option UTime}
    (hp : Pauses s op st x ∨ st = .ioWait ∧ x = none ∧ ∃ k o n, op = .io k o n) (hs : th.state = .running)
    (hc : th.ctx = .user) (ho : ∃ p, openCall l = some (op, p)) :
    Steady { th with state := st, ctx := .within op, onSleepQ := x.isSome || th.onSleepQ } b l := by
  have hq : th.onSleepQ = false := by
    by_contra hq
    simpa [hs] using h.onSleepQ (by simpa using hq)
  have ht : th.timedOut = false := by
    by_contra ht
    obtain ⟨-, c, u, hc'⟩ := h.timedOut (by simpa using ht)
    simp [hc] at hc'
  have hb := h.not_idle (by simp [hc])
  rcases hp with hp | ⟨rfl, rfl, k, o, n, rfl⟩
  · cases hp <;> constructor <;> simp_all [blockState]
  · constructor <;> simp_all [blockState]

theorem Steady.woken (w : Wake) (t : ThreadPtr) :
    Steady { th with state := .runnable, onSleepQ := false } b (.woken t w :: l) where
  asleep := by simp
  onSleepQ := by simp
  blocked := by simp
  timedOut ht := ⟨by simp, (h.timedOut ht).2⟩
  idle := h.idle
  inside op hop := h.inside op hop

omit h in
/-- A log in which the same call is open serves as well. -/
theorem Steady.of_log {l' : List Event} (h : Steady th b l)
    (hl : (∀ op, th.ctx ≠ .within op) ∨ openCall l' = openCall l) :
    Steady th b l' :=
  { h with
    inside := fun op hop => by
      rcases hl with hl | hl
      · exact absurd hop (hl op)
      · rw [hl]; exact h.inside op hop }

theorem Steady.flagged (t : ThreadPtr) :
    Steady { th with interrupt := true } b (.interrupted t :: l) where
  asleep := h.asleep
  onSleepQ := h.onSleepQ
  blocked := h.blocked
  timedOut := h.timedOut
  idle := h.idle
  inside := h.inside

/-- A sleeper whose time is over: the flag is set if it waits for a condition. -/
theorem Steady.expired (t : ThreadPtr) (hq : th.onSleepQ = true) :
    Steady { th with
      state := .runnable, onSleepQ := false, timedOut := th.timedOut || (th.state == .condWait) } b
      (.woken t .clock :: l) where
  asleep := by simp
  onSleepQ := by simp
  blocked := by simp
  timedOut ht := ⟨by simp, by
    rcases h.onSleepQ hq with hs | ⟨-, hc⟩
    · exact (h.timedOut (by simpa [hs] using ht)).2
    · exact hc⟩
  idle := h.idle
  inside op hop := h.inside op hop

/-- A zombie is joined, a mutex is handed over. -/
theorem Steady.freed (hs : th.state = .zombie ∨ th.state = .lockWait) (t : ThreadPtr) (w : Wake) :
    Steady { th with state := .runnable } b (.woken t w :: l) where
  asleep := by simp
  onSleepQ ho := by rcases hs with hs | hs <;> simpa [hs] using h.onSleepQ ho
  blocked := by simp
  timedOut ht := ⟨by simp, (h.timedOut ht).2⟩
  idle := h.idle
  inside op hop := h.inside op hop

theorem Steady.died (hs : th.state = .running) (hc : th.ctx = .user) {v : ℕ}
    (ho : ∃ p, openCall l = some (.exit v, p)) :
    Steady { th with retval := v, state := .zombie, ctx := .within (.exit v) } b l where
  asleep := by simp
  onSleepQ hq := by simpa [hs] using h.onSleepQ hq
  blocked := by simp [blockState]
  timedOut ht := by simpa [hc] using (h.timedOut ht).2
  idle := by simp [h.not_idle (by simp [hc])]
  inside := by simpa [blockState] using ho

/-- The idle thread goes on, or makes room for another. -/
theorem Steady.idled (hs : th.state = .running) {p : IdlePhase} (hc : th.ctx = .idle p) {st : TState}
    (hst : st = .running ∨ st = .runnable) (p' : IdlePhase) :
    Steady { th with state := st, ctx := .idle p' } b l where
  asleep := by rcases hst with rfl | rfl <;> simp
  onSleepQ hq := by simpa [hs] using h.onSleepQ hq
  blocked := by rcases hst with rfl | rfl <;> simp
  timedOut ht := by simpa [hc] using (h.timedOut ht).2
  idle := by simpa using h.idle.mpr ⟨p, hc⟩
  inside := by simp

theorem Steady.scheduled (hs : th.state = .runnable) : Steady { th with state := .running } b l where
  asleep := by simp
  onSleepQ hq := by simpa [hs] using h.onSleepQ hq
  blocked := by simp
  timedOut ht := ⟨by simp, (h.timedOut ht).2⟩
  idle := h.idle
  inside op hop := h.inside op hop

omit h in
theorem Steady.created (j : Bool) (l : List Event) : Steady (Vp.newThread j .user) false l := by
  constructor <;> simp [Vp.newThread]

theorem Steady.completed (n : ℤ) : Steady { th with validLen := n } b l :=
  ⟨h.asleep, h.onSleepQ, h.blocked, h.timedOut, h.idle, h.inside⟩

end Thread

/-- What is always true of a thread: it is where its state and its flags say, once. -/
structure Good (v : View) : Prop where
  alive : v.alive ≤ 1
  runs : v.runs = if v.alive = 1 ∧ v.th.state = .runnable ∧ v.isIdle = false then 1 else 0
  sleeps : v.sleeps = if v.alive = 1 ∧ v.th.onSleepQ = true then 1 else 0
  zombies : v.zombies = if v.alive = 1 ∧ v.th.state = .zombie then 1 else 0
  waits : ∀ w, v.waits w = if v.alive = 1 ∧ waitsOn v.th.ctx = some w then 1 else 0
  steady : v.alive = 1 → Steady v.th v.isIdle v.log

variable {s s' : Vp} {t u : ThreadPtr}

theorem Good.alive_eq (h : Good (view s t)) (ht : t ∈ s.live) : (view s t).alive = 1 :=
  le_antisymm h.alive (List.count_pos_iff.mpr ht)

theorem Good.of_mem (h : Good (view s t)) (ht : t ∈ s.live) : Steady (s.thr t) (view s t).isIdle (view s t).log :=
  h.steady (h.alive_eq ht)

theorem live_of_alive (h : (view s t).alive = 1) : t ∈ s.live := by
  refine List.count_pos_iff.mp ?_
  change 0 < (view s t).alive
  omega

/-- Who is on a wait queue exists and waits there. -/
theorem Good.of_mem_waitQ (h : Good (view s t)) {w : WaitQ} (hw : t ∈ s.waitQ w) :
    t ∈ s.live ∧ waitsOn (s.thr t).ctx = some w := by
  have hc : 0 < (view s t).waits w := List.count_pos_iff.mpr hw
  rw [h.waits w] at hc
  by_contra hn
  rw [if_neg fun hx => hn ⟨live_of_alive hx.1, hx.2⟩] at hc
  exact absurd hc (lt_irrefl 0)

/-- Who waits on a queue is on it. -/
theorem Good.mem_waitQ (h : Good (view s t)) (ha : (view s t).alive = 1) {w : WaitQ}
    (hw : waitsOn (s.thr t).ctx = some w) : t ∈ s.waitQ w := by
  refine List.count_pos_iff.mp ?_
  change 0 < (view s t).waits w
  rw [h.waits w, if_pos ⟨ha, hw⟩]
  exact one_pos

/-- Who is on the sleep queue exists and has the flag. -/
theorem Good.of_mem_links (h : Good (view s t)) (ht : t ∈ s.sq.links) :
    t ∈ s.live ∧ (s.thr t).onSleepQ = true := by
  have hc : 0 < (view s t).sleeps := List.count_pos_iff.mpr ht
  rw [h.sleeps] at hc
  by_contra hn
  rw [if_neg fun hx => hn ⟨live_of_alive hx.1, hx.2⟩] at hc
  exact absurd hc (lt_irrefl 0)

@[simp] theorem th_view : (view s t).th = s.thr t := rfl

/-! ### The moves -/

section Moves
variable (h : Good (view s u))
include h

theorem good_called {c : Ctx} (hc : ∀ op, c ≠ .within op) (hr : Runs c s) (hu : u = s.current) (op : Op) (p : Bool) :
    Good (view (s.log (.called u op p)) u) := by
  rw [view_log_self]
  exact { h with steady := fun ha => (h.steady ha).of_log (.inl fun op => by
                                      subst hu; exact hr.ctx ▸ hc op) }

theorem good_flag : Good (view (flag u s) u) := by
  rw [view_flag]
  exact ⟨h.alive, h.runs, h.sleeps, h.zombies, h.waits, fun ha => (h.steady ha).flagged u⟩

theorem good_wake (hu : u ∈ s.live) (hs : (s.thr u).state ≠ .running ∧ (s.thr u).state ≠ .runnable ∧
    (s.thr u).state ≠ .zombie)
    (w : Wake) : Good (view (s.wake u w) u) := by
  have ha := h.alive_eq hu
  have hst := h.of_mem hu
  have hi : (view s u).isIdle = false := hst.not_idle fun p hp => by
    rcases hst.blocked with hb | hb | hb
    · exact hs.1 hb
    · exact hs.2.1 hb
    · simp [hp, blockState] at hb
  rw [view_wake]
  refine ⟨h.alive, ?_, ?_, ?_, h.waits, fun _ => hst.woken w u⟩
  · have := h.runs
    simp_all
  · have := h.sleeps
    simp_all
  · have := h.zombies
    simp_all

theorem good_expireThread (hu : u ∈ s.live) (hq : (s.thr u).onSleepQ = true) : Good (view (s.expireThread u) u) := by
  have ha := h.alive_eq hu
  have hst := h.of_mem hu
  have hc : ∀ p, (s.thr u).ctx ≠ .idle p := fun p hp => by
    rcases hst.blocked with hb | hb | hb
    · simpa [hb] using hst.onSleepQ hq
    · simpa [hb] using hst.onSleepQ hq
    · simp [hp, blockState] at hb
  have hi := hst.not_idle hc
  have hss := hst.onSleepQ hq
  rw [view_expireThread]
  refine ⟨h.alive, ?_, ?_, ?_, h.waits, fun _ => hst.expired u hq⟩
  · have := h.runs
    rcases hss with hss | ⟨hss, -⟩ <;> simp_all
  · have := h.sleeps
    simp_all
  · have := h.zombies
    rcases hss with hss | ⟨hss, -⟩ <;> simp_all

theorem good_makeRunnable (hu : u ∈ s.live) (hs : (s.thr u).state = .lockWait) (w : Wake) :
    Good (view (s.makeRunnable u w) u) := by
  have ha := h.alive_eq hu
  have hst := h.of_mem hu
  have hi : (view s u).isIdle = false := hst.not_idle fun p hp => by
    simpa [hs, hp, blockState] using hst.blocked
  rw [view_makeRunnable]
  refine ⟨h.alive, ?_, h.sleeps, ?_, h.waits, fun _ => hst.freed (.inr hs) u w⟩
  · have := h.runs
    simp_all
  · have := h.zombies
    simp_all

theorem good_joined (hu : u ∈ s.live) (hs : (s.thr u).state = .zombie) :
    Good (view ((s.delZombieQ u).makeRunnable u .join) u) := by
  have ha := h.alive_eq hu
  have hst := h.of_mem hu
  have hi : (view s u).isIdle = false := hst.not_idle fun p hp => by
    simpa [hs, hp, blockState] using hst.blocked
  rw [view_joined]
  refine ⟨h.alive, ?_, h.sleeps, ?_, h.waits, fun _ => hst.freed (.inl hs) u .join⟩
  · have := h.runs
    simp_all
  · have := h.zombies
    simp_all

theorem good_create (hu : u ∉ s.live) (hi : u ≠ s.idle) (j : Bool) (hw : s.waitQ (.term u) = []) :
    Good (view (s.threadCreate u j .user) u) := by
  have ha : (view s u).alive = 0 := List.count_eq_zero.mpr hu
  have hid : (view s u).isIdle = false := by simpa [view] using hi
  rw [view_create j hw]
  refine ⟨?_, ?_, ?_, ?_, fun w => ?_, fun _ => ?_⟩
  · simp [ha]
  · have := h.runs
    simp_all [Vp.newThread]
  · have := h.sleeps
    simp_all [Vp.newThread]
  · have := h.zombies
    simp_all [Vp.newThread]
  · have := h.waits w
    simp_all [Vp.newThread]
  · rw [hid]; exact Steady.created j _

end Moves

section Current
variable (h : Good (view s s.current))
include h

theorem good_back {op : Op} {r : Ret} {i : Bool} {c : Ctx} (hr : Runs c s) (hc : ∀ p, c ≠ .idle p) :
    Good (view (back op r i s) s.current) := by
  have ha := h.alive_eq hr.live
  have hs := h.of_mem hr.live
  rw [view_back]
  refine ⟨h.alive, h.runs, h.sleeps, h.zombies, fun w => ?_, fun _ => ?_⟩
  · have := h.waits w
    simp_all
  · exact hs.user hr.state (hr.ctx ▸ hc) i _ _

theorem good_leave {t : ThreadPtr} (hr : Runs (.within (.join t)) s) :
    Good (view (s.condTimedwaitLeave (.term t)) s.current) := by
  have ha := h.alive_eq hr.live
  have hs := h.of_mem hr.live
  rw [view_leave]
  refine ⟨h.alive, h.runs, h.sleeps, h.zombies, fun w => ?_, fun _ => ?_⟩
  · have := h.waits w
    simp_all [hr.ctx]
  · exact hs.user hr.state (by simp [hr.ctx]) false _ _

theorem good_pause {op : Op} {st : TState} {x : Option UTime} (hi : In op s)
    (hp : Pauses s op st x ∨ st = .ioWait ∧ x = none ∧ ∃ k o n, op = .io k o n) :
    Good (view (pause op st x s) s.current) := by
  have ha := h.alive_eq hi.live
  have hs := h.of_mem hi.live
  have hq : (s.thr s.current).onSleepQ = false := by
    by_contra hq
    simpa [hi.state] using hs.onSleepQ (by simpa using hq)
  have hst : st ≠ .runnable ∧ st ≠ .zombie := by
    rcases hp with hp | ⟨rfl, -⟩
    · cases hp <;> simp
    · simp
  rw [view_pause]
  refine ⟨h.alive, ?_, ?_, ?_, fun w => ?_, fun _ => ?_⟩
  · have := h.runs
    simp_all [hi.state]
  · have := h.sleeps
    simp_all
  · have := h.zombies
    simp_all [hi.state]
  · have := h.waits w
    simp_all [hi.ctx]
  · exact hs.pause hp hi.state hi.ctx hi.opened

theorem good_die {v : ℕ} (hi : In (.exit v) s) : Good (view (die v s) s.current) := by
  have ha := h.alive_eq hi.live
  have hs := h.of_mem hi.live
  rw [view_die]
  refine ⟨h.alive, ?_, h.sleeps, ?_, fun w => ?_, fun _ => hs.died hi.state hi.ctx hi.opened⟩
  · have := h.runs
    simp_all [hi.state]
  · have := h.zombies
    simp_all [hi.state]
  · have := h.waits w
    simp_all [hi.ctx]

theorem good_depart {c : Ctx} (hr : Runs c s) (hc : waitsOn c = none) (f : Thread → Thread) (n : ℤ) :
    Good (view (depart f n s) s.current) := by
  have ha := h.alive_eq hr.live
  have hs := h.of_mem hr.live
  have hq : (s.thr s.current).onSleepQ = false := by
    by_contra hq
    simpa [hr.state] using hs.onSleepQ (by simpa using hq)
  rw [view_depart]
  refine ⟨by simp [ha], ?_, ?_, ?_, fun w => ?_, by simp [ha]⟩
  · have := h.runs
    simp_all [hr.state]
  · have := h.sleeps
    simp_all
  · have := h.zombies
    simp_all [hr.state]
  · have := h.waits w
    simp_all [hr.ctx]

theorem good_idle {p : IdlePhase} (hr : Runs (.idle p) s) {st : TState}
    (hst : st = .running ∨ st = .runnable) (p' : IdlePhase) :
    Good (view (s.modify s.current fun th => { th with state := st, ctx := .idle p' }) s.current) := by
  have ha := h.alive_eq hr.live
  have hs := h.of_mem hr.live
  have hi : (view s s.current).isIdle = true := hs.idle.mpr ⟨p, hr.ctx⟩
  rw [view_modify]
  refine ⟨h.alive, ?_, h.sleeps, ?_, fun w => ?_, fun _ => hs.idled hr.state hr.ctx hst p'⟩
  · have := h.runs
    simp_all
  · have := h.zombies
    rcases hst with rfl | rfl <;> simp_all [hr.state]
  · have := h.waits w
    simp_all [hr.ctx]

end Current

/-- Who is scheduled is ready to run. -/
theorem scheduled_runnable (h : ∀ t, Good (view s t)) (hi : s.idle ∈ s.live)
    (hs : ∀ t ∈ s.live, (s.thr t).state ≠ .running) :
    s.vpSchedule.current ∈ s.live ∧ (s.thr s.vpSchedule.current).state = .runnable ∧
      (view s s.vpSchedule.current).runs = if s.vpSchedule.current = s.idle then 0 else 1 := by
  rw [vpSchedule_current]
  rcases hq : s.runQ with _ | ⟨x, q⟩
  · have hst := (h s.idle).of_mem hi
    have hid : (view s s.idle).isIdle = true := by simp [view]
    obtain ⟨p, hp⟩ := hst.idle.mp hid
    refine ⟨hi, ?_, by simp [view, hq]⟩
    rcases hst.blocked with hb | hb | hb
    · exact absurd hb (hs _ hi)
    · exact hb
    · simp [hp, blockState] at hb
  · have hr := (h x).runs
    have hc : 0 < (view s x).runs := by simp [view, hq]
    rw [hr] at hc
    obtain ⟨ha, hst, hid⟩ : (view s x).alive = 1 ∧ (view s x).th.state = .runnable ∧
        (view s x).isIdle = false := by
      by_contra hn
      rw [if_neg hn] at hc
      exact absurd hc (lt_irrefl 0)
    have hne : x ≠ s.idle := by simpa [view] using hid
    refine ⟨live_of_alive ha, hst, ?_⟩
    change (view s x).runs = if x = s.idle then 0 else 1
    rw [hr, if_pos ⟨ha, hst, hid⟩, if_neg hne]

theorem good_schedule (h : ∀ t, Good (view s t)) (hi : s.idle ∈ s.live)
    (hs : ∀ t ∈ s.live, (s.thr t).state ≠ .running) :
    Good (view s.vpSchedule s.vpSchedule.current) := by
  obtain ⟨hl, hst, hr⟩ := scheduled_runnable h hi hs
  have hg := h s.vpSchedule.current
  have ha := hg.alive_eq hl
  rw [view_vpSchedule]
  refine ⟨hg.alive, ?_, hg.sleeps, ?_, hg.waits, fun _ => (hg.of_mem hl).scheduled hst⟩
  · simp only [hr]
    split <;> simp
  · have := hg.zombies
    simp_all

/-- **A move** leaves its own thread where it should be. -/
theorem good_move (hm : Move u s s') (h : ∀ t, Good (view s t)) (hi : s.idle ∈ s.live) :
    Good (view s' u) := by
  cases hm with
  | called op hr => exact good_called (h _) (by simp) hr rfl op _
  | reply hi => exact good_back (h _) hi.toRuns (by simp)
  | answer hr => exact good_back (h _) hr (by simp)
  | pause hi _ hp => exact good_pause (h _) hi (.inl hp)
  | leave hr => exact good_leave (h _) hr
  | signal hu hs => exact good_wake (h _) hu (by simp [hs]) _
  | flag => exact good_flag (h _)
  | interrupt hu hs =>
    refine good_wake (good_flag (h _)) hu ?_ _
    have hst : ((flag u s).thr u).state = (s.thr u).state := by simp [flag, Vp.log, Vp.modify]
    rw [hst]
    rcases hs with hs | hs | hs <;> simp [hs]
  | expire hu hq => exact good_expireThread (h _) hu hq
  | tick | acquire | release | ioSkip => exact h _
  | create _ ha hw => exact good_create (h _) ha (fun he => ha (he ▸ hi)) _ hw
  | die hi => exact good_die (h _) hi
  | depart hi => exact good_depart (h _) hi.toRuns (by simp) _ _
  | cleanup hr => exact good_depart (h _) hr (by simp) _ _
  | join _ hu hs => exact good_joined (h _) hu hs
  | @handOff _ m u _ _ hu hs =>
    exact good_makeRunnable (s := { s with owner := update s.owner m (some u) }) (h u)
      ((h u).of_mem_waitQ hu).1 hs _
  | idle p' hr =>
    have he : s.setCtx s.current (.idle p') = s.modify s.current fun th =>
        { th with state := .running, ctx := .idle p' } := by
      simp [Vp.setCtx, Vp.modify, ← hr.state]
    rw [he]
    exact good_idle (h _) hr (.inl rfl) p'
  | yield hr =>
    have he : (s.setState s.current .runnable).setCtx s.current (.idle .wait) =
        s.modify s.current fun th => { th with state := .runnable, ctx := .idle .wait } := by
      simp [Vp.setState, Vp.setCtx, Vp.modify]
    rw [he]
    exact good_idle (h _) hr (.inr rfl) .wait
  | schedule hs => exact good_schedule h hi hs
  | @ioPause _ k o hi =>
    refine good_pause (s := { s with
      nextIo := s.nextIo + 1, inflight := s.inflight ++ [⟨s.current, k, s.nextIo⟩] }) (h _) ?_
      (.inr ⟨rfl, rfl, k, o, _, rfl⟩)
    exact ⟨⟨hi.live, hi.state, hi.ctx⟩, hi.opened⟩
  | @complete _ e bytes =>
    obtain ⟨v, hc⟩ := complete_eq (s := s) e bytes
    have hv := view_modify (s := s) (u := e.thread) fun th => { th with validLen := v }
    have hg := h e.thread
    rw [hc]
    change Good (view (s.modify e.thread fun th => { th with validLen := v }) e.thread)
    rw [hv]
    exact ⟨hg.alive, hg.runs, hg.sleeps, hg.zombies, hg.waits, fun ha => (hg.steady ha).completed v⟩
  | @drain _ e q _ hu hs =>
    exact good_wake (s := { s with readyQ := q }) (h _) hu (by simp [hs]) _

end StNvs.Sched.Threads
