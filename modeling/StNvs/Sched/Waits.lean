import StNvs.Sched.History

/-! # What the waits return

`Told t v` ties the fields of a thread to its history: the flag `_ST_FL_INTERRUPT` is what is pending,
a thread that waits has not been woken since it entered the call, one that was woken was woken once, and
every return is justified. `Locked` ties the owners of the mutexes to the history. The moves keep both
(`kept_move`), so they hold in every calm run (`kept_reach`). -/

namespace StNvs.Sched.Waits

open StNvs.Lib.Runs StNvs.Lib.History StNvs.Sched.Sleep StNvs.Sched.Model StNvs.Sched.Moves
open StNvs.Sched.Threads StNvs.Sched.Invariant StNvs.Sched.Calls StNvs.Sched.History Function

/-! ### Waiting, and having been woken -/

/-- Who may wake a thread out of a call. -/
def wakers : Op → List Wake
  | .usleep _ => [.clock, .interrupt]
  | .condTimedwait _ _ => [.signal, .clock, .interrupt]
  | .mutexLock _ => [.unlock, .interrupt]
  | _ => []

/-- The thread waits inside `op` and has not been woken. -/
structure Blocked (op : Op) (th : Thread) (l : List Event) : Prop where
  state : blockState (.within op) = some th.state
  wakes : wakes (seg l) = []
  flag : th.interrupt = false

/-- `w` has woken the thread, and nobody else. -/
structure Woken (t : ThreadPtr) (op : Op) (th : Thread) (l : List Event) (w : Wake) : Prop where
  state : th.state = .running ∨ th.state = .runnable
  wakes : wakes (seg l) = [w]
  waker : w ∈ wakers op
  early : Early t (seg l) ↔ w = .interrupt
  timedOut : (∃ c u, op = .condTimedwait c u) → (th.timedOut = true ↔ w = .clock)

/-- What is true of a thread inside `op`. -/
structure Waited (t : ThreadPtr) (op : Op) (th : Thread) (l : List Event) : Prop where
  entry : wakers op ≠ [] → openCall l = some (op, false)
  phase : wakers op ≠ [] → Blocked op th l ∨ ∃ w, Woken t op th l w
  io : ∀ k o n, op = .io k o n → Vp.waits k o = true

/-- The fields of a thread and its history. -/
structure Told (t : ThreadPtr) (v : View) : Prop where
  justified : Justified (Just t) v.log
  flag : v.alive = 1 → v.th.interrupt = pending v.log
  resting : v.alive = 1 → v.th.ctx = .user → ∀ op p, openCall v.log = some (op, p) →
    (∀ x, op ≠ .join x) → wakes (seg v.log) = []
  inside : v.alive = 1 → ∀ op, v.th.ctx = .within op → Waited t op v.th v.log

/-- The owners of the mutexes and the history of a thread: it owns what it holds; while it waits for a
mutex another thread owns that; having been woken it owns the mutex if that was handed to it, and does
not if it was interrupted. -/
structure Locked (owner : ℕ → Option ThreadPtr) (t : ThreadPtr) (v : View) : Prop where
  own : ∀ m, holds m v.log = true → owner m = some t
  waiting : v.alive = 1 → ∀ m, v.th.ctx = .within (.mutexLock m) → v.th.state = .lockWait →
    ∃ x, owner m = some x ∧ x ≠ t
  handed : v.alive = 1 → ∀ m, v.th.ctx = .within (.mutexLock m) → ∀ w, wakes (seg v.log) = [w] →
    (w = .unlock → owner m = some t) ∧ (w = .interrupt → owner m ≠ some t)

variable {s s' : Vp} {t u : ThreadPtr} {op : Op} {th : Thread} {l : List Event} {w : Wake}

theorem subject_log : ∀ e ∈ (view s t).log, subject e = t := fun e he => by
  simpa using (List.mem_filter.mp he).2

/-- A thread that waits is neither running nor ready to. -/
theorem Blocked.not_ready (h : Blocked op th l) : ¬ (th.state = .running ∨ th.state = .runnable) := by
  have hs := h.state
  rintro (hr | hr) <;> rw [hr] at hs <;> cases op <;> simp [blockState] at hs

theorem Waited.blocked (h : Waited t op th l) (hop : wakers op ≠ [])
    (hs : ¬ (th.state = .running ∨ th.state = .runnable)) : Blocked op th l :=
  (h.phase hop).resolve_right fun ⟨_, hw⟩ => hs hw.state

theorem Waited.woken (h : Waited t op th l) (hop : wakers op ≠ [])
    (hs : th.state = .running ∨ th.state = .runnable) : ∃ w, Woken t op th l w :=
  (h.phase hop).resolve_left fun hb => hb.not_ready hs

/-- No interrupt has arrived while the flag is clear. -/
theorem Told.not_interrupted (h : Told t (view s t)) (ht : (view s t).alive = 1)
    (ho : ∃ p, openCall (view s t).log = some (op, p)) (hf : (s.thr t).interrupt = false) :
    .interrupted t ∉ seg (view s t).log := by
  obtain ⟨p, ho⟩ := ho
  intro hm
  have hp := (pending_of_open subject_log h.justified ho).mpr (.inr hm)
  rw [← h.flag ht, th_view, hf] at hp
  exact Bool.noConfusion hp

/-- The flag, in terms of the call the thread is in. -/
theorem Told.interrupt_iff {p : Bool} (h : Told t (view s t)) (ht : (view s t).alive = 1)
    (ho : openCall (view s t).log = some (op, p)) :
    (s.thr t).interrupt = true ↔ p = true ∨ .interrupted t ∈ seg (view s t).log := by
  rw [← pending_of_open subject_log h.justified ho, ← h.flag ht]
  rfl

/-! ### Waking a thread -/

section Wake
variable {th' : Thread}

/-- A waiting thread is woken by somebody who may. -/
theorem Waited.wake (h : Waited t op th l) (hb : ¬ (th.state = .running ∨ th.state = .runnable))
    (hw : wakers op ≠ [] → w ∈ wakers op) (hne : w ≠ .interrupt)
    (hint : wakers op ≠ [] → .interrupted t ∉ seg l)
    (hst : th'.state = .runnable)
    (hto : (∃ c u, op = .condTimedwait c u) → (th'.timedOut = true ↔ w = .clock)) :
    Waited t op th' (.woken t w :: l) where
  entry hop := h.entry hop
  phase hop := .inr ⟨w, .inr hst, by simp [seg, History.wakes, (h.blocked hop hb).wakes], hw hop, by
    simp only [seg, hne, iff_false]
    rw [early_cons Event.noConfusion]
    exact fun he => hint hop he.mem, hto⟩
  io := h.io

/-- It is interrupted. -/
theorem Waited.interrupt (h : Waited t op th l)
    (hb : ¬ (th.state = .running ∨ th.state = .runnable)) (hst : th'.state = .runnable)
    (hto : (∃ c u, op = .condTimedwait c u) → th'.timedOut = false) :
    Waited t op th' (.woken t .interrupt :: .interrupted t :: l) where
  entry hop := h.entry hop
  phase hop := by
    have hwk := (h.blocked hop hb).wakes
    refine .inr ⟨.interrupt, .inr hst, by simp [seg, History.wakes, hwk], ?_, ?_, ?_⟩
    · cases op <;> simp [wakers] at hop ⊢
    · simp only [seg, iff_true]
      rw [early_cons Event.noConfusion, early_interrupted]
      exact .inl hwk
    · intro hc
      simp [hto hc]
  io := h.io

/-- A thread that was woken is interrupted before it goes on. -/
theorem Waited.flagged (h : Waited t op th l) (hr : th.state = .running ∨ th.state = .runnable)
    (hst : th'.state = th.state) (hto : th'.timedOut = th.timedOut) :
    Waited t op th' (.interrupted t :: l) where
  entry hop := h.entry hop
  phase hop := by
    obtain ⟨w, hw⟩ := h.woken hop hr
    refine .inr ⟨w, hst ▸ hr, by simpa [seg, History.wakes] using hw.wakes, hw.waker, ?_, by
      rw [hto]; exact hw.timedOut⟩
    simp only [seg]
    rw [early_interrupted, hw.wakes, ← hw.early]
    simp
  io := h.io

/-- It is scheduled, or has something done to it that does not matter here. -/
theorem Waited.same (h : Waited t op th l) (hr : th'.state = th.state ∨
      th.state = .runnable ∧ th'.state = .running) (hto : th'.timedOut = th.timedOut)
    (hint : th'.interrupt = th.interrupt) : Waited t op th' l where
  entry := h.entry
  phase hop := by
    rcases h.phase hop with hb | ⟨w, hw⟩
    · rcases hr with hr | ⟨hr, -⟩
      · exact .inl ⟨hr ▸ hb.state, hb.wakes, hint ▸ hb.flag⟩
      · exact absurd (.inr hr) hb.not_ready
    · refine .inr ⟨w, ?_, hw.wakes, hw.waker, hw.early, hto ▸ hw.timedOut⟩
      rcases hr with hr | ⟨-, hr⟩
      · exact hr ▸ hw.state
      · exact .inl hr
  io := h.io

end Wake

/-! ### Returning -/

/-- The justification of a return without having waited. -/
theorem just_reply (h : Told s.current (view s s.current)) (ha : (view s s.current).alive = 1)
    (hi : In op s) {r : Ret} {i : Bool} (hr : Replies s op r i) :
    Just s.current (.returned s.current op r) (view s s.current).log := by
  obtain ⟨p, ho⟩ := hi.opened
  have hiff := h.interrupt_iff ha ho
  have hwk := h.resting ha hi.ctx op p ho
  cases hr with
  | @intr op hint hc =>
    cases op with
    | condTimedwait c u =>
      have hwk := hwk (by simp)
      exact ⟨p, ho, by simp [hwk], by simp [hiff.mp hint], by simp [hiff.mp hint],
        by simp [hiff.mp hint]⟩
    | mutexLock m =>
      have hwk := hwk (by simp)
      have hno : .woken s.current .unlock ∉ seg (view s s.current).log := fun hm => by
        simpa [hwk] using wakes_of_mem hm
      exact ⟨p, ho, by simp [hwk], fun _ => rfl, fun _ => ⟨rfl, hno⟩, fun hm => absurd hm hno⟩
    | _ => trivial
  | @lock m r hint hown hr =>
    have hwk := hwk (by simp)
    have hnot : ¬ (p = true ∨ .interrupted s.current ∈ seg (view s s.current).log) := by
      rw [← hiff, hint]; exact Bool.noConfusion
    have hno : .woken s.current .unlock ∉ seg (view s s.current).log := fun hm => by
      simpa [hwk] using wakes_of_mem hm
    exact ⟨p, ho, by simp [hwk], fun hp => absurd (.inl hp) hnot,
      fun he => absurd (.inr he.mem) hnot, fun hm => absurd hm hno⟩
  | other hc => cases op <;> trivial
  | _ => trivial

/-- Who woke the thread, in terms of the events. -/
theorem Woken.mem_iff (h : Woken t op th (view s t).log w) {w' : Wake} :
    .woken t w' ∈ seg (view s t).log ↔ w' = w := by
  constructor
  · intro hm
    simpa [h.wakes] using wakes_of_mem hm
  · rintro rfl
    exact mem_of_wakes (subject_seg subject_log) (by simp [h.wakes])

/-- What a wait for a condition returns, from who woke the thread and the flag. -/
theorem Woken.condOutcome {c : ℕ} {u : UTime} (h : Woken t (.condTimedwait c u) (s.thr t) (view s t).log w)
    (hint : (s.thr t).interrupt = true ↔ false = true ∨ .interrupted t ∈ seg (view s t).log) :
    CondOutcome t false (seg (view s t).log) (match Vp.condResult (s.thr t) with
      | some e => .fail e
      | none => .ok) := by
  have hto := h.timedOut ⟨c, u, rfl⟩
  by_cases hi : (s.thr t).interrupt = true
  · have hres : Vp.condResult (s.thr t) = some .eintr := by simp [Vp.condResult, hi]
    rw [hres]
    have hm : .interrupted t ∈ seg (view s t).log := by simpa using hint.mp hi
    exact ⟨by simp [h.wakes], by simp [hm], by simp [hm], by simp [hm]⟩
  · have hn : .interrupted t ∉ seg (view s t).log := by simpa using mt hint.mpr hi
    by_cases ht : (s.thr t).timedOut = true
    · have hres : Vp.condResult (s.thr t) = some .etime := by simp [Vp.condResult, hi, ht]
      have hw : w = .clock := hto.mp ht
      rw [hres]
      exact ⟨by simp [h.wakes], by simp [hn], by simp [hn, h.mem_iff, hw], by simp [h.mem_iff, hw]⟩
    · have hres : Vp.condResult (s.thr t) = none := by simp [Vp.condResult, hi, ht]
      have hw : w = .signal := by
        have hwi : w ≠ .interrupt := fun he => hn (h.early.mpr he).mem
        have hwc : w ≠ .clock := fun he => ht (hto.mpr he)
        simpa [wakers, hwi, hwc] using h.waker
      rw [hres]
      exact ⟨by simp [h.wakes], by simp [hn], by simp [h.mem_iff, hw], by simp [hn, h.mem_iff, hw]⟩

/-- The justification of a return after having waited. -/
theorem just_answer (h : Told s.current (view s s.current)) (ha : (view s s.current).alive = 1)
    (hl : Locked s.owner s.current (view s s.current)) (hr : Runs (.within op) s) {r : Ret} {i : Bool}
      (han : Answers s op r i) :
    Just s.current (.returned s.current op r) (view s s.current).log := by
  have hin := h.inside ha op hr.ctx
  cases han with
  | @cond c u =>
    obtain ⟨w, hw⟩ := hin.woken (by simp [wakers]) (.inl hr.state)
    have ho := hin.entry (by simp [wakers])
    exact ⟨false, ho, hw.condOutcome (h.interrupt_iff ha ho)⟩
  | @lockIntr m hint hown =>
    obtain ⟨w, hw⟩ := hin.woken (by simp [wakers]) (.inl hr.state)
    have ho := hin.entry (by simp [wakers])
    obtain ⟨hun, -⟩ := hl.handed ha m hr.ctx w hw.wakes
    have hne : .unlock ≠ w := fun he => hown (hun he.symm)
    exact ⟨false, ho, by simp [hw.wakes], fun _ => rfl, fun _ => ⟨rfl, mt hw.mem_iff.mp hne⟩,
      fun hm => absurd (hw.mem_iff.mp hm) hne⟩
  | @lock m hnot =>
    obtain ⟨w, hw⟩ := hin.woken (by simp [wakers]) (.inl hr.state)
    have ho := hin.entry (by simp [wakers])
    obtain ⟨-, hin'⟩ := hl.handed ha m hr.ctx w hw.wakes
    -- an interrupt that came first would have kept the mutex from the thread
    have hne : w ≠ .interrupt := fun he => hnot
      ⟨(h.interrupt_iff ha ho).mpr (.inr (hw.early.mpr he).mem), hin' he⟩
    exact ⟨false, ho, by simp [hw.wakes], by simp, fun he => absurd (hw.early.mp he) hne, fun _ => rfl⟩
  | _ => trivial

/-- The flag after a return is what is then pending. -/
theorem flag_reply (h : Told s.current (view s s.current)) (ha : (view s s.current).alive = 1)
    {r : Ret} {i : Bool} (hr : Replies s op r i) :
    i = pending (.returned s.current op r :: (view s s.current).log) := by
  have hf : (s.thr s.current).interrupt = pending (view s s.current).log := h.flag ha
  cases hr with
  | @intr op hint hc => cases op <;> simp [checksInterrupt] at hc <;> simp [pending, consumes]
  | @lock m r hint hown hr => rcases hr with rfl | rfl <;> simp [pending, consumes, ← hf, hint]
  | trylock | busy | joined => simp [pending, consumes, hf]
  | notJoined he => rcases he with rfl | rfl <;> simp [pending, consumes, hf]
  | io hw => simp [pending, consumes, hf, hw]
  | @other op r hc _ hio hne =>
    cases op with
    | io k o n => exact absurd rfl (hio k o n)
    | _ => simp [pending, consumes, hf, hne]

theorem flag_answer (h : Told s.current (view s s.current)) (ha : (view s s.current).alive = 1)
    (hr : Runs (.within op) s) {r : Ret} {i : Bool} (han : Answers s op r i) :
    i = pending (.returned s.current op r :: (view s s.current).log) := by
  have hf : (s.thr s.current).interrupt = pending (view s s.current).log := h.flag ha
  have hio := (h.inside ha op hr.ctx).io
  cases han with
  | slept hint => simp [pending, consumes, ← hf, hint]
  | intr | lockIntr => simp [pending, consumes]
  | lock => simp [pending, consumes, hf]
  | @io k o n => simp [pending, consumes, hio k o n rfl]
  | cond =>
    by_cases hint : (s.thr s.current).interrupt = true
    · simp [Vp.condResult, hint, pending, consumes]
    · have hint' : (s.thr s.current).interrupt = false := by simpa using hint
      rw [hint'] at hf
      by_cases hto : (s.thr s.current).timedOut = true <;>
        simp [Vp.condResult, hint', hto, pending, consumes, ← hf]
  | join hres =>
    by_cases hint : (s.thr s.current).interrupt = true
    · have he := hres.symm
      simp only [Vp.condResult, hint, if_true, Option.some.injEq] at he
      simp [he, pending, consumes]
    · have hint' : (s.thr s.current).interrupt = false := by simpa using hint
      rw [hint'] at hf
      have he := hres.symm
      simp only [Vp.condResult, hint', Bool.false_eq_true, if_false] at he
      split_ifs at he with hto
      simp [Option.some.inj he, pending, consumes, ← hf]

/-! ### The moves -/

/-- A thread back in its own code, with nothing it is in the middle of. -/
theorem told_back {r : Ret} {i : Bool} (h : Told s.current (view s s.current))
    (hj : Just s.current (.returned s.current op r) (view s s.current).log)
    (hf : i = pending (.returned s.current op r :: (view s s.current).log)) :
    Told s.current (view (back op r i s) s.current) := by
  rw [view_back]
  exact ⟨⟨hj, h.justified⟩, fun _ => hf, fun _ _ op p ho => by simp [openCall] at ho,
    fun _ op hop => by simp at hop⟩

/-- A thread that waits and is woken by `w`, which is no interrupt. -/
theorem told_woken (hs : Sound s) (h : Told u (view s u)) (hu : u ∈ s.live)
    (hb : ¬ ((s.thr u).state = .running ∨ (s.thr u).state = .runnable)) (hne : w ≠ .interrupt)
    (hw : ∀ op, (s.thr u).ctx = .within op → wakers op ≠ [] → w ∈ wakers op) {v : View}
    (hl : v.log = .woken u w :: (view s u).log) (hst : v.th.state = .runnable)
    (hint : v.th.interrupt = (s.thr u).interrupt) (hc : v.th.ctx = (s.thr u).ctx)
    (hto : v.th.timedOut = true ↔ w = .clock ∧ (s.thr u).state = .condWait) : Told u v := by
  have ha := (hs.good u).alive_eq hu
  have hst' := (hs.good u).of_mem hu
  have hbl : blockState (s.thr u).ctx = some (s.thr u).state :=
    (hst'.blocked.resolve_left (mt .inl hb)).resolve_left (mt .inr hb)
  refine ⟨?_, fun _ => ?_, fun _ hx => ?_, fun _ op hop => ?_⟩
  · rw [hl]; exact ⟨trivial, h.justified⟩
  · rw [hl, hint]; exact h.flag ha
  · rw [hc] at hx
    rw [hx] at hbl
    simp [blockState] at hbl
  · rw [hc] at hop
    rw [hl]
    have hin := h.inside ha op hop
    refine hin.wake hb (hw op hop) hne (fun hwk => ?_) hst ?_
    · exact h.not_interrupted ha ⟨false, hin.entry hwk⟩ (hin.blocked hwk hb).flag
    · rintro ⟨c, x, rfl⟩
      rw [hop] at hbl
      have hcw : (s.thr u).state = .condWait := (Option.some.inj hbl).symm
      simp [hto, hcw]

/-- What state a thread waits in says which call it is in. -/
theorem wakers_of_state (hs : Sound s) (hu : u ∈ s.live) {st : TState} (hst : (s.thr u).state = st)
    (hb : ¬ (st = .running ∨ st = .runnable)) (hop : (s.thr u).ctx = .within op) :
    blockState (.within op) = some st := by
  subst hst
  rw [← hop]
  exact ((((hs.good u).of_mem hu).blocked).resolve_left (mt .inl hb)).resolve_left (mt .inr hb)

/-- A thread whose fields and history are the same, but for being scheduled. -/
theorem told_same (h : Told u (view s u)) {v : View} (ha : v.alive = (view s u).alive)
    (hl : v.log = (view s u).log) (hint : v.th.interrupt = (s.thr u).interrupt)
    (hc : v.th.ctx = (s.thr u).ctx) (hto : v.th.timedOut = (s.thr u).timedOut)
    (hst : v.th.state = (s.thr u).state ∨ (s.thr u).state = .runnable ∧ v.th.state = .running) :
    Told u v := by
  refine ⟨hl ▸ h.justified, fun h1 => ?_, fun h1 hx => ?_, fun h1 op hop => ?_⟩
  · rw [hint, hl]; exact h.flag (ha ▸ h1)
  · rw [hl]; exact h.resting (ha ▸ h1) (hc ▸ hx)
  · rw [hl]; exact (h.inside (ha ▸ h1) op (hc ▸ hop)).same hst hto hint

/-- A thread that no call waits in: the idle thread, or one inside `st_thread_exit`. -/
theorem told_elsewhere {v : View} (hj : Justified (Just u) v.log)
    (hf : v.alive = 1 → v.th.interrupt = pending v.log) (hu : v.alive = 1 → v.th.ctx ≠ .user)
    (hin : v.alive = 1 → ∀ op, v.th.ctx = .within op → ∃ x, op = .exit x) : Told u v := by
  refine ⟨hj, hf, fun h1 hx => absurd hx (hu h1), fun h1 op hop => ?_⟩
  obtain ⟨x, rfl⟩ := hin h1 op hop
  exact ⟨fun hw => absurd rfl hw, fun hw => absurd rfl hw, by simp⟩

theorem told_move (hm : Move u s s') (hs : Sound s)
    (hl : Locked s.owner u (view s u)) (hu : Told u (view s u)) :
    Told u (view s' u) := by
  have halive (ht : u ∈ s.live) : (view s u).alive = 1 := (hs.good u).alive_eq ht
  cases hm with
  | called op hr =>
    rw [view_log_self]
    have ha := halive hr.live
    refine ⟨⟨hu.flag ha, hu.justified⟩, hu.flag, fun _ _ _ _ _ _ => rfl, fun _ op hop => ?_⟩
    simp [hr.ctx] at hop
  | reply hi hr =>
    exact told_back hu (just_reply hu (halive hi.live) hi hr) (flag_reply hu (halive hi.live) hr)
  | answer hr han =>
    exact told_back hu (just_answer hu (halive hr.live) hl hr han) (flag_answer hu (halive hr.live) hr han)
  | @pause _ op st x hi hint hp =>
    have ha := halive hi.live
    obtain ⟨p, ho⟩ := hi.opened
    have hiff := hu.interrupt_iff ha ho
    rw [view_pause]
    refine ⟨hu.justified, hu.flag, fun _ hc => by simp at hc, fun _ op' hop => ?_⟩
    obtain rfl : op = op' := by simpa using hop
    have hp0 : p = false := by
      by_contra hp1
      rw [hiff.mpr (.inl (by simpa using hp1))] at hint
      exact Bool.noConfusion hint
    refine ⟨fun _ => hp0 ▸ ho, fun hop => .inl ⟨?_, ?_, hint⟩, ?_⟩
    · cases hp <;> rfl
    · exact hu.resting ha hi.ctx op p ho (by rintro y rfl; simp [wakers] at hop)
    · rintro k o n rfl
      cases hp
  | leave hr hres =>
    have ha := halive hr.live
    obtain ⟨-, p, ho⟩ := ((hs.good _).of_mem hr.live).inside _ hr.ctx
    rw [view_leave]
    refine ⟨hu.justified, fun _ => ?_, fun _ _ op' p' ho' hne => ?_, fun _ op hop => by simp at hop⟩
    · have hf : (s.thr s.current).interrupt = pending (view s s.current).log := hu.flag ha
      simp only [← hf]
      by_contra hint
      simp [Vp.condResult, Ne.symm hint] at hres
    · rw [ho] at ho'
      exact absurd (Prod.mk.inj (Option.some.inj ho')).1.symm (hne _)
  | signal hlu hst =>
    have hb : ¬ ((s.thr u).state = .running ∨ (s.thr u).state = .runnable) := by simp [hst]
    have hto : (s.thr u).timedOut ≠ true := fun ht => hb (((hs.good u).of_mem hlu).timedOut ht).1
    rw [view_wake]
    refine told_woken hs hu hlu hb (w := .signal) (by simp) (fun op hop hwk => ?_) rfl rfl rfl rfl
      (by simp [hto])
    have := wakers_of_state hs hlu hst (by simp) hop
    cases op <;> simp [blockState] at this <;> simp [wakers] at hwk ⊢
  | expire hlu hq =>
    have hsl := ((hs.good u).of_mem hlu).onSleepQ hq
    have hb : ¬ ((s.thr u).state = .running ∨ (s.thr u).state = .runnable) := by
      rcases hsl with hst | ⟨hst, -⟩ <;> simp [hst]
    have hto : (s.thr u).timedOut = false := by
      by_contra ht
      exact hb (((hs.good u).of_mem hlu).timedOut (by simpa using ht)).1
    rw [view_expireThread]
    refine told_woken hs hu hlu hb (w := .clock) (by simp) (fun op hop hwk => ?_) rfl rfl rfl rfl
      (by simp [hto])
    rcases hsl with hst | ⟨-, c, x, hc⟩
    · have := wakers_of_state hs hlu hst (by simp) hop
      cases op <;> simp [blockState] at this
      simp [wakers]
    · obtain rfl : .condTimedwait c x = op := by simpa [hc] using hop
      simp [wakers]
  | @handOff _ m _ _ _ hw hst =>
    have hlu := ((hs.good u).of_mem_waitQ hw).1
    have hb : ¬ ((s.thr u).state = .running ∨ (s.thr u).state = .runnable) := by simp [hst]
    have hto : (s.thr u).timedOut ≠ true := fun ht => hb (((hs.good u).of_mem hlu).timedOut ht).1
    rw [view_makeRunnable]
    refine told_woken hs hu hlu hb (w := .unlock) (by simp) (fun op hop hwk => ?_) rfl rfl rfl rfl
      (by simp [hto])
    have := wakers_of_state hs hlu hst (by simp) hop
    cases op <;> simp [blockState] at this
    simp [wakers]
  | @drain _ e q _ hlu hst =>
    have hb : ¬ ((s.thr e.thread).state = .running ∨ (s.thr e.thread).state = .runnable) := by
      simp [hst]
    have hto : (s.thr e.thread).timedOut ≠ true :=
      fun ht => hb (((hs.good _).of_mem hlu).timedOut ht).1
    rw [view_wake]
    refine told_woken hs hu hlu hb (w := .io) (by simp) (fun op hop hwk => ?_) rfl rfl rfl rfl
      (by simp [hto])
    have := wakers_of_state hs hlu hst (by simp) hop
    cases op <;> simp [blockState] at this
    exact absurd rfl hwk
  | join _ hlu hst =>
    have hb : ¬ ((s.thr u).state = .running ∨ (s.thr u).state = .runnable) := by simp [hst]
    have hto : (s.thr u).timedOut ≠ true := fun ht => hb (((hs.good u).of_mem hlu).timedOut ht).1
    rw [view_joined]
    refine told_woken hs hu hlu hb (w := .join) (by simp) (fun op hop hwk => ?_) rfl rfl rfl rfl
      (by simp [hto])
    have := wakers_of_state hs hlu hst (by simp) hop
    cases op <;> simp [blockState] at this
    exact absurd rfl hwk
  | flag hlu hst =>
    rw [view_flag]
    exact ⟨⟨trivial, hu.justified⟩, fun _ => rfl, fun ha hx op p ho hne => hu.resting ha hx op p ho hne,
      fun ha op hop => (hu.inside ha op hop).flagged hst rfl rfl⟩
  | interrupt hlu hst =>
    have ha := halive hlu
    have hb : ¬ ((s.thr u).state = .running ∨ (s.thr u).state = .runnable) := by
      rcases hst with hst | hst | hst <;> simp [hst]
    have hbl := ((((hs.good u).of_mem hlu).blocked).resolve_left (mt .inl hb)).resolve_left (mt .inr hb)
    have hto : (s.thr u).timedOut = false := by
      by_contra ht
      exact hb (((hs.good u).of_mem hlu).timedOut (by simpa using ht)).1
    rw [view_wake, view_flag, thr_flag]
    refine ⟨⟨trivial, trivial, hu.justified⟩, fun _ => rfl, fun _ hx => ?_, fun _ op hop => ?_⟩
    · simp only at hx
      rw [hx] at hbl
      simp [blockState] at hbl
    · exact (hu.inside ha op hop).interrupt hb rfl fun _ => hto
  | tick | acquire | release | ioSkip => exact hu
  | @create _ _ j _ ha hw =>
    rw [view_create j hw]
    refine ⟨⟨trivial, hu.justified⟩, fun _ => rfl, fun _ _ op p ho => by simp [openCall] at ho,
      fun _ op hop => by simp [Vp.newThread] at hop⟩
  | die hi =>
    rw [view_die]
    exact told_elsewhere hu.justified hu.flag (by simp) (by simp)
  | depart hr | cleanup hr =>
    have ha := halive hr.live
    rw [view_depart]
    refine told_elsewhere ?_ (by simp [ha]) (by simp [ha]) (by simp [ha])
    dsimp only
    split_ifs
    · exact hu.justified
    · exact ⟨trivial, hu.justified⟩
  | idle p' hr =>
    rw [Vp.setCtx, view_modify]
    exact told_elsewhere hu.justified hu.flag (by simp) (by simp)
  | yield hr =>
    have hv : view ((s.setState s.current .runnable).setCtx s.current (.idle .wait)) s.current =
        { view s s.current with
          th := { s.thr s.current with state := .runnable, ctx := .idle .wait } } := by
      rw [Vp.setCtx, view_modify, Vp.setState, view_modify, thr_modify]
    rw [hv]
    exact told_elsewhere hu.justified hu.flag (by simp) (by simp)
  | schedule hnone =>
    obtain ⟨-, hst, -⟩ := scheduled_runnable hs.good hs.idleLive hnone
    rw [view_vpSchedule]
    exact told_same hu rfl rfl rfl rfl rfl (.inr ⟨hst, rfl⟩)
  | @complete _ e n =>
    obtain ⟨v, hc⟩ := complete_eq (s := s) e n
    rw [hc]
    change Told e.thread (view (s.modify e.thread fun th => { th with validLen := v }) e.thread)
    rw [view_modify]
    exact told_same hu rfl rfl rfl rfl rfl (.inl rfl)
  | @ioPause _ k o hi hwt hint =>
    have ha := halive hi.live
    rw [view_pause]
    refine ⟨hu.justified, hu.flag, fun _ hc => by simp at hc, fun _ op hop => ?_⟩
    obtain rfl : .io k o s.nextIo = op := by simpa using hop
    refine ⟨fun hw => absurd rfl hw, fun hw => absurd rfl hw, fun k' o' n' he => ?_⟩
    obtain ⟨rfl, rfl, -⟩ : k = k' ∧ o = o' ∧ s.nextIo = n' := by simpa using he
    exact hwt

/-! ### The mutexes -/

theorem holds_called {m : ℕ} {p : Bool} (h : holds m (.called t op p :: l) = true) :
    holds m l = true := by
  cases op with
  | mutexUnlock m' =>
    simp only [holds] at h
    split_ifs at h
    exact h
  | _ => simpa [holds] using h

theorem holds_returned {m : ℕ} {r : Ret} (h : holds m (.returned t op r :: l) = true) :
    holds m l = true ∨ r = .ok ∧ (op = .mutexLock m ∨ op = .mutexTrylock m) := by
  by_cases hr : r = .ok
  · subst hr
    cases op with
    | mutexLock m' | mutexTrylock m' =>
      simp only [holds] at h
      split_ifs at h with hm
      · exact .inr (by simp [hm])
      · exact .inl h
    | _ => exact .inl (by simpa [holds] using h)
  · cases r <;> cases op <;> simp_all [holds]

/-- Who is unlocking a mutex no longer holds it. -/
theorem not_holds_of_open {m : ℕ} {p : Bool} : ∀ {l : List Event},
    openCall l = some (.mutexUnlock m, p) → holds m l = false
  | [], h => by simp [openCall] at h
  | .created _ :: _, h => by simp [openCall] at h
  | .returned _ _ _ :: _, h => by simp [openCall] at h
  | .called _ op _ :: l, h => by
    obtain ⟨rfl, -⟩ : op = .mutexUnlock m ∧ _ := by simpa [openCall] using h
    simp [holds]
  | .woken _ _ :: l, h => by simpa [holds] using not_holds_of_open (l := l) h
  | .interrupted _ :: l, h => by simpa [holds] using not_holds_of_open (l := l) h
  | .stackFreed _ :: l, h => by simpa [holds] using not_holds_of_open (l := l) h

section Owner
variable {owner : ℕ → Option ThreadPtr} {v v' : View}

/-- A thread that is not locking a mutex. -/
theorem Locked.elsewhere (h : Locked owner t v)
    (hh : ∀ m, holds m v'.log = true → holds m v.log = true ∨ owner m = some t)
    (hc : v'.alive = 1 → ∀ m, v'.th.ctx ≠ .within (.mutexLock m)) : Locked owner t v' :=
  ⟨fun m hm => (hh m hm).elim (h.own m) id, fun ha m hx => absurd hx (hc ha m),
    fun ha m hx => absurd hx (hc ha m)⟩

/-- A thread that goes on waiting, or has been woken as before. -/
theorem Locked.same (h : Locked owner t v) (ha : v'.alive = v.alive) (hc : v'.th.ctx = v.th.ctx)
    (hst : v'.th.state = .lockWait → v.th.state = .lockWait)
    (hh : ∀ m, holds m v'.log = true → holds m v.log = true)
    (hw : wakes (seg v'.log) = wakes (seg v.log)) : Locked owner t v' :=
  ⟨fun m hm => h.own m (hh m hm), fun h1 m hx hs => h.waiting (ha ▸ h1) m (hc ▸ hx) (hst hs),
    fun h1 m hx w hwk => h.handed (ha ▸ h1) m (hc ▸ hx) w (hw ▸ hwk)⟩

end Owner

/-- A move leaves its own thread and the owners of the mutexes in step, if it changes no owner. -/
theorem locked_move (hm : Move u s s') (hs : Sound s) (ho : s'.owner = s.owner)
    (hu : Told u (view s u)) (hl : Locked s.owner u (view s u)) : Locked s'.owner u (view s' u) := by
  rw [ho]
  have halive (ht : u ∈ s.live) : (view s u).alive = 1 := (hs.good u).alive_eq ht
  -- a thread that waits in another state does not wait for a mutex
  have hnot {st : TState} (hlu : u ∈ s.live) (hst : (s.thr u).state = st)
      (hb : ¬ (st = .running ∨ st = .runnable)) (hne : st ≠ .lockWait) (m : ℕ) :
      (s.thr u).ctx ≠ .within (.mutexLock m) := fun hc => by
    have := wakers_of_state hs hlu hst hb hc
    exact hne (Option.some.inj this).symm
  cases hm with
  | called op hr =>
    rw [view_log_self]
    exact hl.elsewhere (fun m hm => .inl (holds_called hm)) fun _ m hc => by simp [hr.ctx] at hc
  | @reply _ _ r i hi hr =>
    rw [view_back]
    refine hl.elsewhere (fun m hm => ?_) fun _ m hc => by simp at hc
    rcases holds_returned hm with hm | ⟨rfl, rfl | rfl⟩
    · exact .inl hm
    · cases hr with
      | lock _ hown => exact .inr hown
      | other hc => simp [checksInterrupt] at hc
    · cases hr with
      | trylock hown => exact .inr hown
      | other _ hne => exact absurd rfl (hne m)
  | @answer _ _ r i hr han =>
    have ha := halive hr.live
    rw [view_back]
    refine hl.elsewhere (fun m hm => ?_) fun _ m hc => by simp at hc
    rcases holds_returned hm with hm | ⟨rfl, rfl | rfl⟩
    · exact .inl hm
    · cases han with
      | lock hnot' =>
        have hin := hu.inside ha _ hr.ctx
        obtain ⟨w, hw⟩ := hin.woken (by simp [wakers]) (.inl hr.state)
        obtain ⟨hun, hint⟩ := hl.handed ha m hr.ctx w hw.wakes
        have hwk := hw.waker
        simp only [wakers, List.mem_cons, List.not_mem_nil, or_false] at hwk
        rcases hwk with rfl | rfl
        · exact .inr (hun rfl)
        · have hf := (hu.interrupt_iff ha (hin.entry (by simp [wakers]))).mpr
            (.inr (hw.early.mpr rfl).mem)
          exact absurd ⟨hf, hint rfl⟩ hnot'
    · cases han
  | @pause _ op st x hi _ hp =>
    rw [view_pause]
    obtain ⟨p, hop⟩ := hi.opened
    refine ⟨hl.own, fun _ m hc _ => ?_, fun _ m hc w hwk => ?_⟩
    · obtain rfl : op = .mutexLock m := by simpa using hc
      cases hp with
      | lock hown hne => exact ⟨_, hown, hne⟩
    · obtain rfl : op = .mutexLock m := by simpa using hc
      have := hu.resting (halive hi.live) hi.ctx _ p hop (by simp)
      simp only [this] at hwk
      exact absurd hwk (by simp)
  | leave hr =>
    rw [view_leave]
    exact hl.elsewhere (fun m hm => .inl hm) fun _ m hc => by simp at hc
  | signal hlu hst =>
    rw [view_wake]
    exact hl.elsewhere (fun m hm => .inl (by simpa [holds] using hm)) fun _ =>
      hnot hlu hst (by simp) (by simp)
  | flag =>
    rw [view_flag]
    exact hl.same rfl rfl id (fun m hm => by simpa [holds] using hm) rfl
  | interrupt hlu hst =>
    have ha := halive hlu
    have hb : ¬ ((s.thr u).state = .running ∨ (s.thr u).state = .runnable) := by
      rcases hst with hst | hst | hst <;> simp [hst]
    rw [view_wake, view_flag, thr_flag]
    refine ⟨fun m hm => hl.own m (by simpa [holds] using hm), fun _ m _ hst => by simp at hst,
      fun _ m hc w hwk => ?_⟩
    have hblk := wakers_of_state hs hlu rfl hb hc
    obtain ⟨x, hx, hne⟩ := hl.waiting ha m hc (Option.some.inj hblk).symm
    obtain ⟨rfl, -⟩ : Wake.interrupt = w ∧ _ := by simpa [seg, History.wakes] using hwk
    exact ⟨fun h => by simp at h, fun _ => by simpa [hx] using hne⟩
  | expire hlu hq =>
    rw [view_expireThread]
    refine hl.elsewhere (fun m hm => .inl (by simpa [holds] using hm)) fun _ m => ?_
    rcases ((hs.good u).of_mem hlu).onSleepQ hq with hst | ⟨hst, -⟩ <;>
      exact hnot hlu hst (by simp) (by simp) m
  | tick | ioSkip => exact hl
  | @acquire _ m _ hown | @release _ m _ hown => simpa [hown] using congrFun ho m
  | @handOff _ m _ hi hown _ hst =>
    obtain rfl : u = s.current := by simpa [hown, Vp.makeRunnable, Vp.setState, Vp.modify,
      Vp.addRunQ, Vp.log] using congrFun ho m
    simp [hi.state] at hst
  | create _ _ hw =>
    rw [view_create _ hw]
    exact hl.elsewhere (fun m hm => .inl (by simpa [holds] using hm)) fun _ m hc => by
      simp [Vp.newThread] at hc
  | die =>
    rw [view_die]
    exact hl.elsewhere (fun m hm => .inl hm) fun _ m hc => by simp at hc
  | depart hr | cleanup hr =>
    have ha := halive hr.live
    rw [view_depart]
    refine hl.elsewhere (fun m hm => .inl ?_) (by simp [ha])
    dsimp only at hm
    split_ifs at hm
    · exact hm
    · simpa [holds] using hm
  | join _ hlu hst =>
    rw [view_joined]
    exact hl.elsewhere (fun m hm => .inl (by simpa [holds] using hm)) fun _ =>
      hnot hlu hst (by simp) (by simp)
  | idle p' hr =>
    rw [Vp.setCtx, view_modify]
    exact hl.elsewhere (fun m hm => .inl hm) fun _ m hc => by simp at hc
  | yield hr =>
    rw [Vp.setCtx, view_modify, Vp.setState, view_modify]
    exact hl.elsewhere (fun m hm => .inl hm) fun _ m hc => by simp at hc
  | schedule =>
    rw [view_vpSchedule]
    exact hl.same rfl rfl (fun h => by simp at h) (fun m hm => hm) rfl
  | ioPause =>
    rw [view_pause]
    exact hl.elsewhere (fun m hm => .inl hm) fun _ m hc => by simp at hc
  | @complete _ e n =>
    obtain ⟨v, hc⟩ := complete_eq (s := s) e n
    rw [hc]
    change Locked s.owner e.thread (view (s.modify e.thread fun th => { th with validLen := v }) e.thread)
    rw [view_modify]
    exact hl.same rfl rfl id (fun m hm => hm) rfl
  | @drain _ e q _ hlu hst =>
    rw [view_wake]
    exact hl.elsewhere (fun m (hm : holds m (.woken e.thread .io :: (view s e.thread).log) = true) =>
      .inl (by simpa [holds] using hm)) fun _ => hnot hlu hst (by simp) (by simp)

/-! ### The owners -/

/-- The moves that give a mutex another owner, and what each needs. -/
theorem owner_move (hm : Move u s s') : s'.owner = s.owner ∨
    (∃ m, (In (.mutexLock m) s ∨ In (.mutexTrylock m) s) ∧ s.owner m = none ∧
      s' = { s with owner := update s.owner m (some s.current) }) ∨
    (∃ m, In (.mutexUnlock m) s ∧ s.owner m = some s.current ∧
      (∀ t ∈ s.waitQ (.mutex m), (s.thr t).state ≠ .lockWait) ∧
      s' = { s with owner := update s.owner m none }) ∨
    ∃ m, In (.mutexUnlock m) s ∧ s.owner m = some s.current ∧ u ∈ s.waitQ (.mutex m) ∧
      (s.thr u).state = .lockWait ∧
      s' = { s with owner := update s.owner m (some u) }.makeRunnable u .unlock := by
  cases hm with
  | acquire hi hown => exact .inr (.inl ⟨_, hi, hown, rfl⟩)
  | release hi hown hw => exact .inr (.inr (.inl ⟨_, hi, hown, hw, rfl⟩))
  | handOff hi hown hw hst => exact .inr (.inr (.inr ⟨_, hi, hown, hw, hst, rfl⟩))
  | signal | drain | interrupt => refine .inl ?_; unfold Vp.wake; split <;> rfl
  | expire => refine .inl ?_; unfold Vp.expireThread; dsimp only; split <;> rfl
  | schedule => refine .inl ?_; unfold Vp.vpSchedule; split <;> rfl
  | complete => refine .inl ?_; unfold Vp.complete; dsimp only; split <;> rfl
  | _ => exact .inl rfl

section Owners
variable (hall : ∀ t, Locked s.owner t (view s t)) {m : ℕ}
include hall

/-- Nobody waits for a mutex without an owner, so taking it disturbs nobody. -/
theorem locked_acquire (hme : (s.thr s.current).ctx = .user) (hown : s.owner m = none)
    (t : ThreadPtr) : Locked (update s.owner m (some s.current)) t (view s t) := by
  have hl := hall t
  refine ⟨fun m' hm => ?_, fun ha m' hc hst => ?_, fun ha m' hc w hw => ?_⟩
  · by_cases he : m' = m
    · simp [hl.own m (he ▸ hm)] at hown
    · rw [update_of_ne he]; exact hl.own m' hm
  · by_cases he : m' = m
    · obtain ⟨x, hx, -⟩ := hl.waiting ha m' hc hst
      simp [he ▸ hx] at hown
    · rw [update_of_ne he]; exact hl.waiting ha m' hc hst
  · obtain ⟨hun, hint⟩ := hl.handed ha m' hc w hw
    by_cases he : m' = m
    · subst he
      refine ⟨fun h => by simp [hun h] at hown, fun _ hx => ?_⟩
      obtain rfl : s.current = t := by simpa using hx
      simp [th_view, hme] at hc
    · rw [update_of_ne he]; exact ⟨hun, hint⟩

variable (hi : In (.mutexUnlock m) s) (hown : s.owner m = some s.current)
include hi hown

/-- The owner of the mutex no longer holds it, and is in no call that waits for it. -/
theorem unlocking (t : ThreadPtr) : holds m (view s t).log = false ∧
    ((view s t).alive = 1 → (s.thr t).ctx = .within (.mutexLock m) → s.owner m ≠ some t) := by
  obtain ⟨p, hp⟩ := hi.opened
  refine ⟨?_, fun _ hc ht => ?_⟩
  · by_contra hm
    obtain rfl : s.current = t := by simpa [hown] using (hall t).own m (by simpa using hm)
    exact hm (not_holds_of_open hp)
  · obtain rfl : s.current = t := by simpa [hown] using ht
    simp [hi.ctx] at hc

/-- When nobody waits for it any more, a mutex may be left without an owner. -/
theorem locked_release (hs : Sound s)
    (hw : ∀ t ∈ s.waitQ (.mutex m), (s.thr t).state ≠ .lockWait) (t : ThreadPtr) :
    Locked (update s.owner m none) t (view s t) := by
  have hl := hall t
  obtain ⟨hno, hne⟩ := unlocking hall hi hown t
  refine ⟨fun m' hm => ?_, fun ha m' hc hst => ?_, fun ha m' hc w hwk => ?_⟩
  · by_cases he : m' = m
    · simp [he, hno] at hm
    · rw [update_of_ne he]; exact hl.own m' hm
  · by_cases he : m' = m
    · subst he
      exact absurd hst (hw t ((hs.good t).mem_waitQ ha (by rw [← th_view, hc]; rfl)))
    · rw [update_of_ne he]; exact hl.waiting ha m' hc hst
  · obtain ⟨hun, hint⟩ := hl.handed ha m' hc w hwk
    by_cases he : m' = m
    · subst he
      exact ⟨fun h => absurd (hun h) (hne ha hc), fun _ => by simp⟩
    · rw [update_of_ne he]; exact ⟨hun, hint⟩

/-- The thread a mutex is handed to was waiting for it and had not been woken. -/
theorem locked_handOff (hs : Sound s) (hu : Told u (view s u)) (hw : u ∈ s.waitQ (.mutex m))
    (hst : (s.thr u).state = .lockWait) (t : ThreadPtr) : Locked (update s.owner m (some u)) t
      (view ({ s with owner := update s.owner m (some u) }.makeRunnable u .unlock) t) := by
  have hl := hall t
  by_cases htu : t = u
  · subst htu
    obtain ⟨hlt, hwo⟩ := (hs.good t).of_mem_waitQ hw
    have hb : ¬ ((s.thr t).state = .running ∨ (s.thr t).state = .runnable) := by simp [hst]
    rw [view_makeRunnable]
    refine ⟨fun m' hm => ?_, fun _ m' _ h => by simp at h, fun ha m' hc w hwk => ?_⟩
    · by_cases he : m' = m
      · simp [he]
      · have hm' : holds m' (.woken t .unlock :: (view s t).log) = true := hm
        rw [update_of_ne he]
        exact hl.own m' (by simpa [holds] using hm')
    · have hc' : (s.thr t).ctx = .within (.mutexLock m') := hc
      obtain rfl : m' = m := by simpa [hc'] using hwo
      have hbl := (hu.inside ((hs.good t).alive_eq hlt) _ hc').blocked (by simp [wakers]) hb
      obtain rfl : Wake.unlock = w := by
        have hwk' : wakes (seg (.woken t .unlock :: (view s t).log)) = [w] := hwk
        simpa [seg, History.wakes, hbl.wakes] using hwk'
      simp
  · rw [(Move.handOff hi hown hw hst).view_of_ne t htu]
    obtain ⟨hno, hne⟩ := unlocking hall hi hown t
    refine ⟨fun m' hm => ?_, fun ha m' hc hst => ?_, fun ha m' hc w hwk => ?_⟩
    · by_cases he : m' = m
      · simp [he, hno] at hm
      · rw [update_of_ne he]; exact hl.own m' hm
    · by_cases he : m' = m
      · exact ⟨u, by simp [he], Ne.symm htu⟩
      · rw [update_of_ne he]; exact hl.waiting ha m' hc hst
    · obtain ⟨hun, hint⟩ := hl.handed ha m' hc w hwk
      by_cases he : m' = m
      · subst he
        exact ⟨fun h => absurd (hun h) (hne ha hc), fun _ => by simpa using Ne.symm htu⟩
      · rw [update_of_ne he]; exact ⟨hun, hint⟩

end Owners

/-! ### All runs -/

/-- Every thread, its history, and the owners of the mutexes. -/
def Kept (s : Vp) : Prop := ∀ t, Told t (view s t) ∧ Locked s.owner t (view s t)

theorem kept_move (hm : Move u s s') (hs : Sound s) (hk : Kept s) : Kept s' := by
  intro t
  have hall t := (hk t).2
  refine ⟨?_, ?_⟩
  · by_cases htu : t = u
    · subst htu
      exact told_move hm hs (hk t).2 (hk t).1
    · rw [hm.view_of_ne t htu]
      exact (hk t).1
  · rcases owner_move hm with ho | ⟨m, hi, hown, rfl⟩ | ⟨m, hi, hown, hw, rfl⟩ |
      ⟨m, hi, hown, hw, hst, rfl⟩
    · by_cases htu : t = u
      · subst htu
        exact locked_move hm hs ho (hk t).1 (hk t).2
      · rw [ho, hm.view_of_ne t htu]
        exact (hk t).2
    · exact locked_acquire hall (hi.elim (·.ctx) (·.ctx)) hown t
    · exact locked_release hall hi hown hs hw t
    · exact locked_handOff hall hi hown hs (hk u).1 hw hst t

/-- **In every calm run** the threads, their histories and the owners of the mutexes fit together. -/
theorem kept_reach (h : ReachVia machine Calm s) : Kept s := by
  refine reach_of_move ?_ (fun u s s' hs hk hm => kept_move hm hs hk) h
  rintro s ⟨i, p, now, hne, rfl⟩ t
  have hgood : Good (view (Vp.stInit i p now) t) := good_stInit hne t
  have hnot (ha : (view (Vp.stInit i p now) t).alive = 1) (op : Op) :
      ((Vp.stInit i p now).thr t).ctx ≠ .within op := fun hc => by
    obtain ⟨-, q, hq⟩ := (hgood.steady ha).inside op hc
    simp [view_stInit, openCall] at hq
  have hint (ha : (view (Vp.stInit i p now) t).alive = 1) :
      ((Vp.stInit i p now).thr t).interrupt = false := by
    rcases List.mem_pair.mp (live_of_alive ha) with rfl | rfl
    · rw [thr_stInit_prim]; rfl
    · rw [thr_stInit_idle hne]; rfl
  exact ⟨⟨trivial, hint, fun _ _ _ _ ho => by simp [view_stInit, openCall] at ho,
      fun ha op hc => absurd hc (hnot ha op)⟩,
    ⟨fun m hm => by simp [view_stInit, holds] at hm, fun ha m hc => absurd hc (hnot ha _),
      fun ha m hc => absurd hc (hnot ha _)⟩⟩

end StNvs.Sched.Waits
