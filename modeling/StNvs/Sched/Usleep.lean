import StNvs.Sched.Sleepers
import StNvs.Sched.Completion

/-! # Sleeping, in real time

`Timed` is the scheduler with the real time, the time of the last clock reading, and what each thread last
asked `st_usleep` or `st_sleep` for. Between two readings any time below `2^32` microseconds may pass,
wherever the threads are. `wakes` is the history of the sleepers the clock made runnable.

A timeout is kept relative to the last reading, not to the call, and a reading shows milliseconds, so that
a sleeper is made runnable at the first reading at which the time it asked for has passed *on the clock*
since the reading *before* its call. A reading is *clear* if no sleeper is in between.

* `early_iff`: in a run of the scheduler no sleeper is made runnable early exactly if every reading is
  clear.
* `shown_eq`, `read_reach`, `clear_inTime`: what the clock shows, when it is read in time.
* `never_late`: no sleeper is left asleep by a reading that shows that its time is over. -/

namespace StNvs.Sched.Usleep

open StNvs.Sched.Sleep StNvs.Sched.Model StNvs.Sched.Moves StNvs.Sched.Threads StNvs.Sched.Invariant
open StNvs.Sched.Calls StNvs.Sched.SleepTimes StNvs.Sched.Sleepers
open StNvs.Lib.Runs Function

/-! ### The clock -/

/-- `MD_GET_UTIME` of Win32: milliseconds, in microseconds and 32 bits. -/
def utime (time : ℕ) : UTime := BitVec.ofNat 32 (time / 1000 * 1000)

/-- What passes on the clock between two readings. -/
def shown (last now : ℕ) : ℕ := (utime now - utime last).toNat

/-- It is the time cut to milliseconds, if that is below `2^32`. -/
theorem shown_eq {last now : ℕ} (h : last ≤ now) (hlt : now / 1000 * 1000 - last / 1000 * 1000 < 2 ^ 32) :
    shown last now = now / 1000 * 1000 - last / 1000 * 1000 :=
  elapsed_exact (by omega) hlt

/-! ### The machine -/

/-- A call of `st_usleep` or `st_sleep`. -/
inductive Nap
  | usleep (usecs : UTime)
  | sleep (secs : ℤ)
  deriving DecidableEq, Repr

/-- What `st_usleep` is called with: `st_sleep` multiplies in 32 bits. -/
def Nap.usecs : Nap → UTime
  | .usleep u => u
  | .sleep secs => if secs = -1 then noTimeout else BitVec.ofInt 32 (secs * 1000000)

/-- The microseconds asked for; `-1` asks for ever. -/
def Nap.asked : Nap → Option ℕ
  | .usleep u => if u = noTimeout then none else some u.toNat
  | .sleep secs => if secs = -1 then none else some (secs.toNat * 1000000)

/-- The argument of `st_sleep` is an `int`, and not negative but for `-1`. -/
def Nap.Valid : Nap → Prop
  | .usleep _ => True
  | .sleep secs => -1 ≤ secs ∧ secs < 2 ^ 31

/-- A call, when it was made, and where the clock stood at the reading before it. -/
structure Ask where
  nap : Nap
  time : ℕ
  read : ℕ
  deriving DecidableEq, Repr

/-- What was asked for has passed since the call. -/
def Ask.Over (k : Ask) (now : ℕ) : Prop := ∃ n, k.nap.asked = some n ∧ k.time + n ≤ now

/-- The scheduler in real time: the time, the time of the last clock reading and where the clock stood then
(all that has passed on it), what each thread last asked for, and the sleepers the clock made runnable,
with the time of it. -/
structure Timed where
  vp : Vp
  time : ℕ
  last : ℕ
  read : ℕ
  asks : ThreadPtr → Ask
  wakes : List (Ask × ℕ)

/-- Time passes, the current thread goes to sleep, the idle thread reads the clock, or anything else
happens. -/
inductive Action
  | pass (usecs : ℕ)
  | nap (k : Nap)
  | act (a : Vp.Action)
  | clock
  deriving DecidableEq, Repr

/-- The threads the clock made runnable in a step. -/
def clockWoke (s s' : Vp) : List ThreadPtr :=
  (s'.trace.take (s'.trace.length - s.trace.length)).filterMap fun
    | .woken t .clock => some t
    | _ => none

/-- Inside `st_usleep`. -/
def napping : Ctx → Bool
  | .within (.usleep _) => true
  | _ => false

/-- Neither a call of `st_usleep` nor a reading of the clock. -/
def other : Vp.Action → Bool
  | .call (.usleep _) | .idleClock _ => false
  | _ => true

namespace Timed

/-- The clock is read. -/
def clock (s : Timed) : Timed :=
  let vp := s.vp.idleClock (utime s.time)
  { s with
    vp
    last := s.time
    read := s.read + shown s.last s.time
    wakes := ((clockWoke s.vp vp).filter fun t => napping (s.vp.thr t).ctx).map
        (fun t => (s.asks t, s.time)) ++ s.wakes }

def apply (s : Timed) : Action → Timed
  | .pass d => { s with time := s.time + d }
  | .nap k =>
    { s with
      vp := Vp.apply s.vp (.call (.usleep k.usecs))
      asks := update s.asks s.vp.current ⟨k, s.time, s.read⟩ }
  | .act a => { s with vp := Vp.apply s.vp a }
  | .clock => s.clock

/-- Between two clock readings less than `2^32` microseconds pass. -/
def Enabled (s : Timed) : Action → Prop
  | .pass d => s.time + d - s.last < 2 ^ 32
  | .nap k => Vp.Enabled s.vp (.call (.usleep k.usecs)) ∧ k.Valid
  | .act a => Vp.Enabled s.vp a ∧ other a = true
  | .clock => Vp.Enabled s.vp (.idleClock (utime s.time))

end Timed

/-- The scheduler in real time. -/
def machine : Machine Timed Action where
  init s := ∃ idle prim now asks, idle ≠ prim ∧
    s = ⟨Vp.stInit idle prim (utime now), now, now, now / 1000 * 1000, asks, []⟩
  enabled := Timed.Enabled
  apply := Timed.apply

/-- No sleeper was made runnable by the clock before its time was over. -/
def NoEarly (s : Timed) : Prop := ∀ w ∈ s.wakes, w.1.Over w.2

/-- The I/O of the run is calm. -/
def Calm (s : Timed) : Action → Prop
  | .act a => Calls.Calm s.vp a
  | _ => True

/-- A clock reading is clear if for every sleeper whose time has passed on the clock since the reading before
its call it has passed since the call. -/
def Clear (s : Timed) : Action → Prop
  | .clock => ∀ t ∈ s.vp.sq.links, napping (s.vp.thr t).ctx = true →
      (s.asks t).read + (s.asks t).nap.usecs.toNat ≤ s.read + shown s.last s.time → (s.asks t).Over s.time
  | _ => True

/-! ### The invariant -/

variable {s : Timed} {t : ThreadPtr}

/-- A sleeper has left what it asked for, less what has passed on the clock since the reading before its
call. -/
structure Timely (s : Timed) : Prop where
  calm : ReachVia Model.machine Calls.Calm s.vp
  queued : Queued s.vp
  clock : s.vp.lastClock = utime s.last
  passed : s.last ≤ s.time
  left : ∀ t ∈ s.vp.sq.links, ∀ u, (s.vp.thr t).ctx = .within (.usleep u) → (s.asks t).nap.usecs = u ∧
    (s.asks t).read ≤ s.read ∧ remaining s.vp.sq t + s.read = (s.asks t).read + u.toNat

theorem Timely.current_notin (h : Timely s) : s.vp.current ∉ s.vp.sq.links := by
  obtain ⟨hs, hw⟩ := sound_reach h.calm
  intro hm
  obtain ⟨hl, ho⟩ := (hs.good _).of_mem_links hm
  rcases ((hs.good _).of_mem hl).onSleepQ ho with hst | ⟨hst, -⟩ <;> simp [hw.2] at hst

section Steps

variable (h : Timely s)
include h

theorem timely_pass {d : ℕ} : Timely { s with time := s.time + d } :=
  ⟨h.calm, h.queued, h.clock, h.passed.trans (Nat.le_add_right _ _), h.left⟩

theorem timely_act {a : Vp.Action} (he : Vp.Enabled s.vp a) (ho : other a = true)
    (hc : Calls.Calm s.vp a) : Timely { s with vp := Vp.apply s.vp a } := by
  have hs := (sound_reach h.calm).1
  obtain ⟨hclock, hq, hk⟩ := kept_apply hs h.queued h.current_notin he (by rintro y rfl; simp [other] at ho)
    (by rintro now rfl; simp [other] at ho)
  refine ⟨.step h.calm he hc, hq, hclock.trans h.clock, h.passed, fun t ht u hu => ?_⟩
  obtain ⟨hm, hr, hx⟩ := hk t ht u hu
  obtain ⟨h1, h2, h3⟩ := h.left t hm u (hx.symm.trans hu)
  exact ⟨h1, h2, by rw [← h3]; exact congrArg (· + s.read) hr⟩

theorem timely_nap {k : Nap} (he : Vp.Enabled s.vp (.call (.usleep k.usecs))) :
    Timely (s.apply (.nap k)) := by
  have hn : Naps (.usleep k.usecs) k.usecs s.vp (Vp.apply s.vp (.call (.usleep k.usecs))) := by
    have hn := naps_usleep (y := k.usecs) (s := s.vp.log (.called s.vp.current (.usleep k.usecs)
      (s.vp.thr s.vp.current).interrupt)) h.current_notin ⟨h.queued.wf, h.queued.flagged⟩
    exact ⟨hn.clock, hn.queued, hn.sleepers⟩
  refine ⟨.step h.calm he trivial, hn.queued, hn.clock.trans h.clock, h.passed, fun t ht u hu => ?_⟩
  rcases hn.sleepers t ht with ⟨rfl, hr, hc⟩ | ⟨hne, hm, hr, hc⟩
  · obtain rfl : k.usecs = u := by simpa using hc.symm.trans hu
    simp only [Timed.apply, update_self, true_and]
    refine ⟨le_rfl, ?_⟩
    rw [hr, Nat.add_comm]
  · simp only [Timed.apply, update_of_ne hne]
    obtain ⟨h1, h2, h3⟩ := h.left t hm u (hc.symm.trans hu)
    exact ⟨h1, h2, by rw [← h3]; exact congrArg (· + s.read) hr⟩

/-- Who the clock makes runnable: the sleepers whose time has passed on it since the reading before. -/
theorem clockWoke_clock : clockWoke s.vp (s.vp.idleClock (utime s.time)) =
    (s.vp.sq.links.filter fun t => remaining s.vp.sq t ≤ shown s.last s.time).reverse := by
  obtain ⟨-, -, htr, -⟩ := idleClock_spec h.queued (utime s.time)
  rw [h.clock] at htr
  rw [clockWoke, htr, List.length_append, Nat.add_sub_cancel, List.take_left, ← List.map_reverse,
    List.filterMap_map]
  exact List.filterMap_some

theorem timely_clock (he : Vp.Enabled s.vp (.idleClock (utime s.time))) : Timely s.clock := by
  obtain ⟨hq, hclock, -, hk⟩ := idleClock_spec h.queued (utime s.time)
  rw [h.clock] at hk
  refine ⟨.step (a := Vp.Action.idleClock (utime s.time)) h.calm he trivial, hq, hclock, le_rfl,
    fun t ht u hu => ?_⟩
  obtain ⟨hm, hlt, hr, hc⟩ := hk t ht
  have hne : t ≠ s.vp.current := fun hx => h.current_notin (hx ▸ hm)
  obtain ⟨h1, h2, h3⟩ := h.left t hm u ((hc hne).symm.trans hu)
  refine ⟨h1, h2.trans (Nat.le_add_right _ _), ?_⟩
  change remaining (s.vp.idleClock (utime s.time)).sq t + (s.read + shown s.last s.time) =
    (s.asks t).read + u.toNat
  have hlt : shown s.last s.time < remaining s.vp.sq t := hlt
  have hr : remaining (s.vp.idleClock (utime s.time)).sq t = remaining s.vp.sq t - shown s.last s.time := hr
  omega

/-- A reading wakes nobody early exactly if it is clear. -/
theorem noEarly_clock : NoEarly s.clock ↔ NoEarly s ∧ Clear s .clock := by
  have hdue : ∀ t, t ∈ s.vp.sq.links → napping (s.vp.thr t).ctx = true →
      (remaining s.vp.sq t ≤ shown s.last s.time ↔
        (s.asks t).read + (s.asks t).nap.usecs.toNat ≤ s.read + shown s.last s.time) := by
    intro t ht hn
    obtain ⟨u, hu⟩ : ∃ u, (s.vp.thr t).ctx = .within (.usleep u) := by
      unfold napping at hn
      split at hn
      · exact ⟨_, ‹_›⟩
      · cases hn
    obtain ⟨h1, h2, h3⟩ := h.left t ht u hu
    rw [h1]
    omega
  simp only [NoEarly, Timed.clock, clockWoke_clock h, List.mem_append, List.mem_map, List.mem_filter,
    List.mem_reverse, decide_eq_true_eq]
  constructor
  · refine fun hall => ⟨fun w hw => hall w (.inr hw), fun t ht hn hover => ?_⟩
    exact hall (s.asks t, s.time) (.inl ⟨t, ⟨⟨ht, (hdue t ht hn).mpr hover⟩, hn⟩, rfl⟩)
  · rintro ⟨hold, hclear⟩ w (⟨t, ⟨⟨ht, hr⟩, hn⟩, rfl⟩ | hw)
    · exact hclear t ht hn ((hdue t ht hn).mp hr)
    · exact hold w hw

end Steps

/-- A step of a calm run: the invariant, and whom it wakes early. -/
theorem timely_apply {a : Action} (h : Timely s) (he : s.Enabled a) (hc : Calm s a) :
    Timely (s.apply a) ∧ (NoEarly (s.apply a) ↔ NoEarly s ∧ Clear s a) := by
  match a, he, hc with
  | .pass d, _, _ => exact ⟨timely_pass h, (and_iff_left trivial).symm⟩
  | .nap k, he, _ => exact ⟨timely_nap h he.1, (and_iff_left trivial).symm⟩
  | .act a, he, hc => exact ⟨timely_act h he.1 he.2 hc, (and_iff_left trivial).symm⟩
  | .clock, he, _ => exact ⟨timely_clock h he, noEarly_clock h⟩

/-! ### Runs -/

theorem timely_init (hi : machine.init s) : Timely s ∧ NoEarly s := by
  obtain ⟨idle, prim, now, asks, hne, rfl⟩ := hi
  have hflag : ∀ t, ((Vp.stInit idle prim (utime now)).thr t).onSleepQ = false := fun t => by
    rw [thr_stInit hne]
    split_ifs <;> rfl
  refine ⟨⟨.init ⟨idle, prim, _, hne, rfl⟩, ⟨⟨List.nodup_nil, fun t ht => absurd ht List.not_mem_nil, rfl⟩,
    fun t ht => absurd ht (by simp [hflag])⟩, rfl, le_rfl, fun t ht => absurd ht List.not_mem_nil⟩,
    fun w hw => absurd hw List.not_mem_nil⟩

theorem noEarly_foldl : ∀ {as : List Action} {s : Timed}, Timely s → Enables machine Calm s as →
    (NoEarly (as.foldl machine.apply s) ↔ NoEarly s ∧ Enables machine Clear s as)
  | [], _, _, _ => (and_iff_left trivial).symm
  | a :: as, s, h, ⟨⟨he, hc⟩, has⟩ => by
    obtain ⟨ht, hn⟩ := timely_apply h he hc
    have hrest := noEarly_foldl ht has
    simp only [List.foldl_cons, Enables]
    exact hrest.trans ⟨fun ⟨h1, h2⟩ => ⟨(hn.mp h1).1, ⟨he, (hn.mp h1).2⟩, h2⟩,
      fun ⟨h1, h2, h3⟩ => ⟨hn.mpr ⟨h1, h2.2⟩, h3⟩⟩

/-- **When sleepers wake**: in a run with calm I/O the clock makes no sleeper runnable early if and only if
every clock reading is clear. -/
theorem early_iff {as : List Action} (hi : machine.init s) (he : Enables machine Calm s as) :
    NoEarly (as.foldl machine.apply s) ↔ Enables machine Clear s as := by
  obtain ⟨ht, hn⟩ := timely_init hi
  exact (noEarly_foldl ht he).trans (and_iff_right hn)

instance decidableOver (k : Ask) (now : ℕ) : Decidable (k.Over now) :=
  match h : k.nap.asked with
  | some n => decidable_of_iff (k.time + n ≤ now) (by simp [Ask.Over, h])
  | none => .isFalse (by simp [Ask.Over, h])

instance decidableNap : ∀ k : Nap, Decidable k.Valid
  | .usleep _ => .isTrue trivial
  | .sleep secs => inferInstanceAs (Decidable (-1 ≤ secs ∧ secs < 2 ^ 31))

instance decidableTimed (s : Timed) : ∀ a, Decidable (machine.enabled s a)
  | .pass d => inferInstanceAs (Decidable (s.time + d - s.last < 2 ^ 32))
  | .nap _ => inferInstanceAs (Decidable (_ ∧ _))
  | .act _ => inferInstanceAs (Decidable (_ ∧ _))
  | .clock => inferInstanceAs (Decidable (Vp.Enabled s.vp (.idleClock (utime s.time))))

instance decidableClear (s : Timed) : ∀ a, Decidable (Clear s a)
  | .clock => inferInstanceAs (Decidable (∀ t ∈ s.vp.sq.links, _ → _ → (s.asks t).Over s.time))
  | .pass _ | .nap _ | .act _ => .isTrue trivial

/-- The start of the runs below. -/
def start : Timed := ⟨Vp.stInit 1 2 0, 0, 0, 0, fun _ => ⟨.usleep 0, 0, 0⟩, []⟩

theorem init_start : machine.init start := ⟨1, 2, 0, _, by decide, rfl⟩

/-- The thread runs for `999` microseconds before it asks for a thousand, and the clock is read after one. -/
def lateRun : List Action := [.pass 999, .nap (.usleep 1000), .act (.idleWait false), .pass 1, .clock]

theorem lateRun_early : ¬ ∀ s, Reach machine s → NoEarly s := by
  intro h
  have hr : Reach machine (lateRun.foldl machine.apply start) :=
    (ReachVia.init init_start).foldl lateRun (by decide +kernel)
  exact absurd (h _ hr) (by unfold NoEarly; decide +kernel)

/-- The same with a second to sleep, and the clock read after two. -/
def clearRun : List Action := [.pass 100, .nap (.sleep 1), .act (.idleWait false), .pass 2000000, .clock]

instance decidableCalm (s : Timed) : ∀ a, Decidable (Calm s a)
  | .act a => Completion.decidableCalm s.vp a
  | .pass _ | .nap _ | .clock => .isTrue trivial

theorem clearRun_onTime : NoEarly (clearRun.foldl machine.apply start) :=
  (early_iff init_start (by decide +kernel)).mpr (by decide +kernel)

/-! ### Nobody oversleeps -/

/-- The clock is read before `2^32` microseconds have passed on it. -/
def InTime (s : Timed) : Action → Prop
  | .clock => s.time / 1000 * 1000 - s.last / 1000 * 1000 < 2 ^ 32
  | _ => True

/-- A sleeper asked after the reading before, and if the clock was read since, it has time left. -/
structure Punctual (s : Timed) (t : ThreadPtr) : Prop where
  valid : (s.asks t).nap.Valid
  asked : (s.asks t).read ≤ (s.asks t).time
  left : s.last ≤ (s.asks t).time ∨ 0 < remaining s.vp.sq t

/-- The sleepers are punctual. -/
def AllPunctual (s : Timed) : Prop :=
  ∀ t ∈ s.vp.sq.links, ∀ u, (s.vp.thr t).ctx = .within (.usleep u) → Punctual s t

theorem punctual_act {a : Vp.Action} (h : Timely s) (hp : AllPunctual s) (he : Vp.Enabled s.vp a)
    (ho : other a = true) : AllPunctual { s with vp := Vp.apply s.vp a } := by
  have hs := (sound_reach h.calm).1
  obtain ⟨-, -, hk⟩ := kept_apply hs h.queued h.current_notin he (by rintro y rfl; simp [other] at ho)
    (by rintro now rfl; simp [other] at ho)
  intro t ht u hu
  obtain ⟨hm, hr, hx⟩ := hk t ht u hu
  obtain ⟨hv, h1, h2⟩ := hp t hm u (hx.symm.trans hu)
  refine ⟨hv, h1, h2.imp_right fun hpos => ?_⟩
  change 0 < remaining (Vp.apply s.vp a).sq t
  rwa [hr]

theorem punctual_nap {k : Nap} (h : Timely s) (hr : s.read = s.last / 1000 * 1000) (hp : AllPunctual s)
    (hk : k.Valid) :
    AllPunctual (s.apply (.nap k)) := by
  have hn := naps_usleep (y := k.usecs) (s := s.vp.log (.called s.vp.current (.usleep k.usecs)
    (s.vp.thr s.vp.current).interrupt)) h.current_notin ⟨h.queued.wf, h.queued.flagged⟩
  intro t ht u hu
  rcases hn.sleepers t ht with ⟨ht, -, -⟩ | ⟨hne, hm, hrem, hc⟩
  · have hask : (s.apply (.nap k)).asks t = ⟨k, s.time, s.read⟩ := by
      rw [ht]
      exact update_self _ _ _
    have hpassed := h.passed
    refine ⟨?_, ?_, .inl ?_⟩ <;> rw [hask]
    · exact hk
    · change s.read ≤ s.time
      omega
    · exact hpassed
  · obtain ⟨hv, h1, h2⟩ := hp t hm u (hc.symm.trans hu)
    have hask : (s.apply (.nap k)).asks t = s.asks t := update_of_ne hne _ _
    refine ⟨?_, ?_, ?_⟩ <;> rw [hask]
    · exact hv
    · exact h1
    · refine h2.imp_right fun hpos => ?_
      change 0 < remaining (Vp.apply s.vp (.call (.usleep k.usecs))).sq t
      exact hrem.symm ▸ hpos

theorem punctual_clock (h : Timely s) (hp : AllPunctual s) : AllPunctual s.clock := by
  obtain ⟨-, -, -, hk⟩ := idleClock_spec h.queued (utime s.time)
  intro t ht u hu
  obtain ⟨hm, hlt, hr, hc⟩ := hk t ht
  have hne : t ≠ s.vp.current := fun hx => h.current_notin (hx ▸ hm)
  obtain ⟨hv, h1, -⟩ := hp t hm u ((hc hne).symm.trans hu)
  refine ⟨hv, h1, .inr ?_⟩
  change 0 < remaining (s.vp.idleClock (utime s.time)).sq t
  rw [hr]
  omega

/-- The conditions under which nobody oversleeps. -/
def CalmInTime (s : Timed) (a : Action) : Prop := Calm s a ∧ InTime s a

theorem timely_reach (h : ReachVia machine CalmInTime s) : Timely s :=
  h.invariant (fun _ hi => (timely_init hi).1) fun _ _ ht he hc => (timely_apply ht he hc.1).1

/-- **The clock stands at the time of its last reading**, cut to milliseconds. -/
theorem read_reach (h : ReachVia machine CalmInTime s) : s.read = s.last / 1000 * 1000 := by
  refine h.invariant_of (I := Timely) (J := fun s => s.read = s.last / 1000 * 1000) (fun s => timely_reach) ?_
    fun s a ht hr he hc => ?_
  · rintro s ⟨idle, prim, now, asks, -, rfl⟩
    rfl
  · cases a with
    | pass d | nap k | act a => exact hr
    | clock =>
      have hpassed := ht.passed
      have hshown := shown_eq hpassed hc.2
      change s.read + shown s.last s.time = s.time / 1000 * 1000
      rw [hshown, hr]
      omega

/-- What a clear reading is, when the clock is read in time. -/
theorem clear_inTime (h : ReachVia machine CalmInTime s) (hin : InTime s .clock) : Clear s .clock ↔
    ∀ t ∈ s.vp.sq.links, napping (s.vp.thr t).ctx = true →
      (s.asks t).read + (s.asks t).nap.usecs.toNat ≤ s.time / 1000 * 1000 → (s.asks t).Over s.time := by
  have hpassed := (timely_reach h).passed
  have hstands : s.read + shown s.last s.time = s.time / 1000 * 1000 := by
    rw [shown_eq hpassed hin, read_reach h]
    omega
  simp only [Clear, hstands]

theorem punctual_reach (h : ReachVia machine CalmInTime s) : AllPunctual s := by
  refine h.invariant_of (I := fun s => Timely s ∧ s.read = s.last / 1000 * 1000)
    (fun s h => ⟨timely_reach h, read_reach h⟩) ?_ fun s a ⟨ht, hr⟩ hp he hc => ?_
  · rintro s ⟨idle, prim, now, asks, -, rfl⟩
    exact fun t ht => absurd ht List.not_mem_nil
  · cases a with
    | pass d => exact fun t hm u hu => ⟨(hp t hm u hu).valid, (hp t hm u hu).asked, (hp t hm u hu).left⟩
    | nap k => exact punctual_nap ht hr hp he.2
    | act a => exact punctual_act ht hp he.1 he.2
    | clock => exact punctual_clock ht hp

/-- What `st_usleep` is called with is at most what is asked for. -/
theorem usecs_le_asked {k : Nap} {n : ℕ} (h : k.asked = some n) (hv : k.Valid) : k.usecs.toNat ≤ n := by
  cases k with
  | usleep u =>
    simp only [Nap.asked] at h
    split_ifs at h
    exact (Option.some.inj h).le
  | sleep secs =>
    simp only [Nap.asked] at h
    split_ifs at h with hs
    obtain rfl := Option.some.inj h
    have h0 : 0 ≤ secs := by
      have hm := hv.1
      omega
    obtain ⟨m, rfl⟩ := Int.eq_ofNat_of_zero_le h0
    have hofNat : BitVec.ofInt 32 ((m : ℤ) * 1000000) = BitVec.ofNat 32 (m * 1000000) := by
      rw [← BitVec.ofInt_natCast]
      norm_cast
    simp only [Nap.usecs, if_neg hs, hofNat, BitVec.toNat_ofNat, Int.toNat_natCast]
    exact Nat.mod_le _ _

/-- **Nobody oversleeps**: in a run with calm I/O whose clock is read in time, whoever is asleep in `st_usleep`
or `st_sleep` has not seen the clock read since the call, or the time asked for was not over by what it
showed. -/
theorem never_late (h : ReachVia machine CalmInTime s) (ht : t ∈ s.vp.sq.links)
    (hn : napping (s.vp.thr t).ctx = true) {n : ℕ} (ha : (s.asks t).nap.asked = some n) :
    s.last ≤ (s.asks t).time ∨ s.last / 1000 * 1000 < (s.asks t).time + n := by
  obtain ⟨u, hu⟩ : ∃ u, (s.vp.thr t).ctx = .within (.usleep u) := by
    unfold napping at hn
    split at hn
    · exact ⟨_, ‹_›⟩
    · cases hn
  obtain ⟨hv, h1, h2⟩ := punctual_reach h t ht u hu
  refine h2.imp_right fun hpos => ?_
  obtain ⟨hu', hle, hrem⟩ := (timely_reach h).left t ht u hu
  have hasked := usecs_le_asked ha hv
  have hread := read_reach h
  rw [hu'] at hasked
  omega

instance decidableInTime (s : Timed) : ∀ a, Decidable (InTime s a)
  | .clock => inferInstanceAs (Decidable (_ < _))
  | .pass _ | .nap _ | .act _ => .isTrue trivial

instance decidableCalmInTime (s : Timed) (a : Action) : Decidable (CalmInTime s a) :=
  inferInstanceAs (Decidable (_ ∧ _))

/-- A thread sleeps for a second, and the clock is read after half of it. -/
def halfRun : List Action := [.pass 100, .nap (.sleep 1), .act (.idleWait false), .pass 500000, .clock]

theorem halfRun_punctual : ∃ s, s = halfRun.foldl machine.apply start ∧ s.last = 500100 ∧
    (s.last ≤ (s.asks 2).time ∨ s.last / 1000 * 1000 < (s.asks 2).time + 1000000) := by
  have hr : ReachVia machine CalmInTime (halfRun.foldl machine.apply start) :=
    (ReachVia.init init_start).foldl halfRun (by decide +kernel)
  exact ⟨_, rfl, by decide +kernel, never_late hr (by decide +kernel) (by decide +kernel) (by decide +kernel)⟩

end StNvs.Sched.Usleep
