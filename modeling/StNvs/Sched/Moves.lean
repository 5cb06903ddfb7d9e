import StNvs.Sched.Model
import Mathlib.Data.List.Count

/-! # The moves of the scheduler

A step of the machine is a call, or the rest of one, and touches several threads. `Move u s s'` lists
what such a step is made of; each move is about one thread `u`. What a thread is, for itself, is its
`View`: its fields, how often it is on each queue, and the events about it.

* `Move.view_of_ne`: a move about `u` leaves the view of every other thread as it is.
* the `view_…` lemmas: what it does to the view of `u`.

Everything proved of all runs is proved of the moves; that the calls are made of moves is shown once, in
`Sched.Calls`. -/

namespace StNvs.Sched.Moves

open StNvs.Sched.Sleep StNvs.Sched.Model Function

/-! ### What a thread is, for itself -/

/-- The wait queue a thread is on. -/
def waitsOn : Ctx → Option WaitQ
  | .within (.condTimedwait c _) => some (.cond c)
  | .within (.mutexLock m) => some (.mutex m)
  | .within (.join t) => some (.term t)
  | _ => none

@[simp] theorem waitsOn_user : waitsOn .user = none := rfl

@[simp] theorem waitsOn_idle (p : IdlePhase) : waitsOn (.idle p) = none := rfl

@[simp] theorem waitsOn_usleep (u : UTime) : waitsOn (.within (.usleep u)) = none := rfl

@[simp] theorem waitsOn_exit (v : ℕ) : waitsOn (.within (.exit v)) = none := rfl

@[simp] theorem waitsOn_io (k : IoKind) (o : Submit) (n : ℕ) :
    waitsOn (.within (.io k o n)) = none := rfl

@[simp] theorem waitsOn_join (t : ThreadPtr) : waitsOn (.within (.join t)) = some (.term t) := rfl

@[simp] theorem waitsOn_mutexLock (m : ℕ) : waitsOn (.within (.mutexLock m)) = some (.mutex m) := rfl

@[simp] theorem waitsOn_condTimedwait (c : ℕ) (u : UTime) :
    waitsOn (.within (.condTimedwait c u)) = some (.cond c) := rfl

/-- The state a thread is in until it is woken. -/
def blockState : Ctx → Option TState
  | .within (.usleep _) => some .sleeping
  | .within (.condTimedwait _ _) | .within (.join _) => some .condWait
  | .within (.mutexLock _) => some .lockWait
  | .within (.io _ _ _) => some .ioWait
  | .within (.exit _) => some .zombie
  | _ => none

/-- The thread an event is about. -/
def subject : Event → ThreadPtr
  | .created t | .called t _ _ | .woken t _ | .interrupted t | .returned t _ _ | .stackFreed t => t

/-- The call a thread is in, from the events about it: the last one that has not returned, with the
flag it was entered with. -/
def openCall : List Event → Option (Op × Bool)
  | [] | .created _ :: _ | .returned _ _ _ :: _ => none
  | .called _ op p :: _ => some (op, p)
  | .woken _ _ :: l | .interrupted _ :: l | .stackFreed _ :: l => openCall l

/-- One thread: its fields, how often it is in each list, the events about it. -/
structure View where
  th : Thread
  alive : ℕ
  runs : ℕ
  sleeps : ℕ
  zombies : ℕ
  waits : WaitQ → ℕ
  isIdle : Bool
  log : List Event

def view (s : Vp) (t : ThreadPtr) : View where
  th := s.thr t
  alive := s.live.count t
  runs := s.runQ.count t
  sleeps := s.sq.links.count t
  zombies := s.zombieQ.count t
  waits w := (s.waitQ w).count t
  isIdle := t == s.idle
  log := s.trace.filter (subject · = t)

/-! ### The parts of a call -/

/-- The current thread blocks inside `op`. -/
def pause (op : Op) (st : TState) (timeout : Option UTime) (s : Vp) : Vp :=
  let me := s.current
  { s with
    thr := update s.thr me { s.thr me with
      state := st, ctx := .within op, onSleepQ := timeout.isSome || (s.thr me).onSleepQ }
    waitQ := fun w => if waitsOn (.within op) = some w then s.waitQ w ++ [me] else s.waitQ w
    sq := match timeout with
      | some u => s.sq.add me u
      | none => s.sq }

/-- The current thread returns from `op` with the flag `_ST_FL_INTERRUPT` equal to `i`. -/
def back (op : Op) (r : Ret) (i : Bool) (s : Vp) : Vp :=
  let me := s.current
  { s with
    thr := update s.thr me { s.thr me with timedOut := false, interrupt := i, ctx := .user }
    waitQ := fun w => if waitsOn (s.thr me).ctx = some w then (s.waitQ w).erase me else s.waitQ w
    trace := .returned me op r :: s.trace }

/-- `thread->flags |= _ST_FL_INTERRUPT`. -/
def flag (t : ThreadPtr) (s : Vp) : Vp :=
  (s.modify t fun th => { th with interrupt := true }).log (.interrupted t)

/-- The current thread becomes a zombie. -/
def die (retval : ℕ) (s : Vp) : Vp :=
  let me := s.current
  { s with
    thr := update s.thr me { s.thr me with
      retval := retval, state := .zombie, ctx := .within (.exit retval) }
    activeCount := s.activeCount - 1
    zombieQ := s.zombieQ ++ [me] }

/-- The current thread ceases to exist, with `f` done to its fields. -/
def depart (f : Thread → Thread) (active : ℤ) (s : Vp) : Vp :=
  let me := s.current
  { s with
    thr := update s.thr me (f (s.thr me))
    live := s.live.erase me
    activeCount := active
    trace := if (f (s.thr me)).primordial then s.trace else .stackFreed me :: s.trace }

/-- The current thread runs, and continues as `c` says. -/
structure Runs (c : Ctx) (s : Vp) : Prop where
  live : s.current ∈ s.live
  state : (s.thr s.current).state = .running
  ctx : (s.thr s.current).ctx = c

/-- The current thread runs, inside the call `op`. -/
structure In (op : Op) (s : Vp) : Prop extends Runs .user s where
  opened : ∃ p, openCall (view s s.current).log = some (op, p)

/-- The calls that look at `_ST_FL_INTERRUPT` when they begin. -/
def checksInterrupt : Op → Bool
  | .usleep _ | .condTimedwait _ _ | .join _ | .mutexLock _ => true
  | _ => false

/-- What the current thread may return without having waited: the result, and the flag after it. -/
inductive Replies (s : Vp) : Op → Ret → Bool → Prop
  | intr {op : Op} : (s.thr s.current).interrupt = true → checksInterrupt op = true →
      Replies s op (.fail .eintr) false
  | lock {m : ℕ} {r : Ret} : (s.thr s.current).interrupt = false → s.owner m = some s.current →
      r = .ok ∨ r = .fail .edeadlk → Replies s (.mutexLock m) r false
  | trylock {m : ℕ} : s.owner m = some s.current →
      Replies s (.mutexTrylock m) .ok (s.thr s.current).interrupt
  | busy {m : ℕ} : Replies s (.mutexTrylock m) (.fail .ebusy) (s.thr s.current).interrupt
  | joined {t : ThreadPtr} : t ∈ s.live → s.Joined t →
      Replies s (.join t) (.joined (s.thr t).retval) (s.thr s.current).interrupt
  | notJoined {t : ThreadPtr} {e : Errno} : e = .einval ∨ e = .edeadlk →
      Replies s (.join t) (.fail e) (s.thr s.current).interrupt
  | io {k : IoKind} {o : Submit} {n : ℕ} {r : Ret} : Vp.waits k o ≠ true → r ≠ .fail .eintr →
      Replies s (.io k o n) r (s.thr s.current).interrupt
  | other {op : Op} {r : Ret} : checksInterrupt op = false → (∀ m, op ≠ .mutexTrylock m) →
      (∀ k o n, op ≠ .io k o n) → r ≠ .fail .eintr → Replies s op r (s.thr s.current).interrupt

/-- What the current thread may return after it has waited. -/
inductive Answers (s : Vp) : Op → Ret → Bool → Prop
  | slept {u : UTime} : (s.thr s.current).interrupt = false → Answers s (.usleep u) .ok false
  | intr {u : UTime} : (s.thr s.current).interrupt = true →
      Answers s (.usleep u) (.fail .eintr) false
  | cond {c : ℕ} {u : UTime} : Answers s (.condTimedwait c u)
      (match Vp.condResult (s.thr s.current) with
        | some e => .fail e
        | none => .ok) false
  | join {t : ThreadPtr} {e : Errno} : Vp.condResult (s.thr s.current) = some e →
      Answers s (.join t) (.fail e) false
  | lockIntr {m : ℕ} : (s.thr s.current).interrupt = true → s.owner m ≠ some s.current →
      Answers s (.mutexLock m) (.fail .eintr) false
  | lock {m : ℕ} : ¬ ((s.thr s.current).interrupt = true ∧ s.owner m ≠ some s.current) →
      Answers s (.mutexLock m) .ok (s.thr s.current).interrupt
  | io {k : IoKind} {o : Submit} {n : ℕ} : Answers s (.io k o n) (Vp.ioResult (s.thr s.current) k) false

/-- How the calls wait, but for I/O: the state, and the timeout. -/
inductive Pauses (s : Vp) : Op → TState → Option UTime → Prop
  | usleep (u : UTime) : Pauses s (.usleep u) .sleeping (some u)
  | cond (c : ℕ) {u : UTime} : u ≠ noTimeout → Pauses s (.condTimedwait c u) .condWait (some u)
  | condForever (c : ℕ) : Pauses s (.condTimedwait c noTimeout) .condWait none
  | join {t : ThreadPtr} : t ≠ s.current → t ∈ s.live → (s.thr t).term = true → ¬ s.Joined t →
      s.waitQ (.term t) = [] → Pauses s (.join t) .condWait none
  | lock {m : ℕ} {x : ThreadPtr} : s.owner m = some x → x ≠ s.current →
      Pauses s (.mutexLock m) .lockWait none

/-- The moves. -/
inductive Move : ThreadPtr → Vp → Vp → Prop
  | called {s : Vp} (op : Op) : Runs .user s →
      Move s.current s (s.log (.called s.current op (s.thr s.current).interrupt))
  | reply {s : Vp} {op : Op} {r : Ret} {i : Bool} : In op s → Replies s op r i →
      Move s.current s (back op r i s)
  | answer {s : Vp} {op : Op} {r : Ret} {i : Bool} : Runs (.within op) s → Answers s op r i →
      Move s.current s (back op r i s)
  | pause {s : Vp} {op : Op} {st : TState} {u : Option UTime} : In op s →
      (s.thr s.current).interrupt = false → Pauses s op st u → Move s.current s (pause op st u s)
  | leave {s : Vp} {t : ThreadPtr} : Runs (.within (.join t)) s →
      Vp.condResult (s.thr s.current) = none → Move s.current s (s.condTimedwaitLeave (.term t))
  | signal {s : Vp} {u : ThreadPtr} : u ∈ s.live → (s.thr u).state = .condWait →
      Move u s (s.wake u .signal)
  | flag {s : Vp} {u : ThreadPtr} : u ∈ s.live →
      (s.thr u).state = .running ∨ (s.thr u).state = .runnable → Move u s (flag u s)
  | interrupt {s : Vp} {u : ThreadPtr} : u ∈ s.live →
      (s.thr u).state = .condWait ∨ (s.thr u).state = .lockWait ∨ (s.thr u).state = .sleeping →
      Move u s ((Moves.flag u s).wake u .interrupt)
  | expire {s : Vp} {u : ThreadPtr} : u ∈ s.live → (s.thr u).onSleepQ = true →
      Move u s (s.expireThread u)
  | tick {s : Vp} (sleep : ThreadPtr → UTime) (max now : UTime) : Move s.current s
      { s with lastClock := now, sq := { s.sq with sleep := sleep, sleepMax := max } }
  | create {s : Vp} {a : ThreadPtr} {j : Bool} : In (.create (some a) j) s → a ∉ s.live →
      s.waitQ (.term a) = [] → Move a s (s.threadCreate a j .user)
  | die {s : Vp} {v : ℕ} : In (.exit v) s → (s.thr s.current).term = true →
      Move s.current s (die v s)
  | depart {s : Vp} {v : ℕ} : In (.exit v) s → (s.thr s.current).term = false →
      Move s.current s (depart (fun th => { th with retval := v }) (s.activeCount - 1) s)
  | cleanup {s : Vp} {v : ℕ} : Runs (.within (.exit v)) s →
      Move s.current s (Moves.depart (fun th => { th with term := false }) s.activeCount s)
  | join {s : Vp} {t : ThreadPtr} : In (.join t) s → t ∈ s.live → (s.thr t).state = .zombie →
      s.waitQ (.term t) = [] → Move t s ((s.delZombieQ t).makeRunnable t .join)
  | acquire {s : Vp} {m : ℕ} : In (.mutexLock m) s ∨ In (.mutexTrylock m) s → s.owner m = none →
      Move s.current s { s with owner := update s.owner m (some s.current) }
  | release {s : Vp} {m : ℕ} : In (.mutexUnlock m) s → s.owner m = some s.current →
      (∀ t ∈ s.waitQ (.mutex m), (s.thr t).state ≠ .lockWait) →
      Move s.current s { s with owner := update s.owner m none }
  | handOff {s : Vp} {m : ℕ} {u : ThreadPtr} : In (.mutexUnlock m) s → s.owner m = some s.current →
      u ∈ s.waitQ (.mutex m) → (s.thr u).state = .lockWait →
      Move u s ({ s with owner := update s.owner m (some u) }.makeRunnable u .unlock)
  | idle {s : Vp} {p : IdlePhase} (p' : IdlePhase) : Runs (.idle p) s →
      Move s.current s (s.setCtx s.current (.idle p'))
  | yield {s : Vp} {p : IdlePhase} : Runs (.idle p) s →
      Move s.current s ((s.setState s.current .runnable).setCtx s.current (.idle .wait))
  | schedule {s : Vp} : (∀ t ∈ s.live, (s.thr t).state ≠ .running) →
      Move s.vpSchedule.current s s.vpSchedule
  | ioSkip {s : Vp} : Move s.current s { s with nextIo := s.nextIo + 1 }
  | ioPause {s : Vp} {k : IoKind} {o : Submit} : In (.io k o s.nextIo) s →
      Vp.waits k o = true → (s.thr s.current).interrupt = false →
      Move s.current s (Moves.pause (.io k o s.nextIo) .ioWait none
        { s with
          nextIo := s.nextIo + 1
          inflight := s.inflight ++ [⟨s.current, k, s.nextIo⟩] })
  | complete {s : Vp} {e : Entry} (bytes : ℤ) : e ∈ s.inflight → Move e.thread s (s.complete e bytes)
  | drain {s : Vp} {e : Entry} {q : List Entry} : s.readyQ = e :: q → e.thread ∈ s.live →
      (s.thr e.thread).state = .ioWait → Move e.thread s ({ s with readyQ := q }.wake e.thread .io)

variable {s s' : Vp} {t u : ThreadPtr}

/-! ### Moves and the other threads -/

theorem count_links_add {W : Type} [Zero W] [Add W] [Sub W] [LE W] [LT W] [DecidableLE W]
    [DecidableLT W] {sq : SleepQ W} {t : ThreadPtr} {u : W} {x : ThreadPtr} :
    (sq.add t u).links.count x = sq.links.count x + if t = x then 1 else 0 := by
  unfold SleepQ.add
  split_ifs with h1 h2 h2
  · simp [h2]
  · simp [h2]
  all_goals
    have hq := scan_append sq.sleep sq.links u
    generalize scan sq.sleep u sq.links = r at hq ⊢
    rw [← hq]
    simp [h2, Nat.add_assoc]

section OfNe
variable (h : t ≠ u)
include h

theorem view_modify_of_ne (f : Thread → Thread) : view (s.modify u f) t = view s t := by
  simp [view, Vp.modify, h]

theorem view_log_of_ne {e : Event} (he : subject e = u) : view (s.log e) t = view s t := by
  simp [view, Vp.log, he, h.symm]

theorem view_addRunQ_of_ne : view (s.addRunQ u) t = view s t := by
  simp [view, Vp.addRunQ, h.symm]

theorem view_delZombieQ_of_ne : view (s.delZombieQ u) t = view s t := by
  simp [view, Vp.delZombieQ, List.count_erase_of_ne h]

theorem view_delSleepQ_of_ne (x : Bool) : view (s.delSleepQ u x) t = view s t := by
  simp [view, Vp.delSleepQ, Vp.modify, h, List.count_erase_of_ne h]

theorem view_delWaitQ_of_ne (w : WaitQ) : view (s.delWaitQ w u) t = view s t := by
  simp only [view, Vp.delWaitQ, View.mk.injEq, true_and, and_true]
  funext w'
  by_cases hw : w' = w
  · subst hw; simp [List.count_erase_of_ne h]
  · rw [update_of_ne hw]

end OfNe

/-- A move about `u` leaves the views of the other threads alone. -/
theorem view_wake_of_ne (h : t ≠ u) (w : Wake) : view (s.wake u w) t = view s t := by
  rw [Vp.wake, Vp.makeRunnable, Vp.setState, view_log_of_ne h rfl, view_addRunQ_of_ne h,
    view_modify_of_ne h]
  split
  · exact view_delSleepQ_of_ne h _
  · rfl

theorem view_flag_of_ne (h : t ≠ u) : view (flag u s) t = view s t := by
  rw [flag, view_log_of_ne h rfl, view_modify_of_ne h]

theorem view_expireThread_of_ne (h : t ≠ u) : view (s.expireThread u) t = view s t := by
  simp only [Vp.expireThread, Vp.makeRunnable, Vp.setState]
  rw [view_log_of_ne h rfl, view_addRunQ_of_ne h, view_modify_of_ne h]
  split
  · rw [view_modify_of_ne h, view_delSleepQ_of_ne h]
  · exact view_delSleepQ_of_ne h _

theorem view_threadCreate_of_ne (h : t ≠ u) (j : Bool) (hw : s.waitQ (.term u) = []) :
    view (s.threadCreate u j .user) t = view s t := by
  have he : update s.waitQ (.term u) [] = s.waitQ := by rw [← hw, update_eq_self]
  simp [view, Vp.threadCreate, Vp.addRunQ, Vp.log, subject, h, h.symm, he]

theorem view_vpSchedule_of_ne (h : t ≠ s.vpSchedule.current) : view s.vpSchedule t = view s t := by
  unfold Vp.vpSchedule at h ⊢
  split at h
  · rename_i x q hq
    simp [view, hq, Vp.delRunQ, Vp.setState, Vp.modify, h, Ne.symm h]
  · rename_i hq
    simp [view, hq, Vp.setState, Vp.modify, h]

theorem view_pause_of_ne (h : t ≠ s.current) (op : Op) (st : TState) (x : Option UTime) :
    view (pause op st x s) t = view s t := by
  have hw (w : WaitQ) : ((pause op st x s).waitQ w).count t = (s.waitQ w).count t := by
    by_cases hop : waitsOn (.within op) = some w <;> simp [pause, hop, h.symm]
  have hs : (pause op st x s).sq.links.count t = s.sq.links.count t := by
    cases x <;> simp [pause, count_links_add, h.symm]
  simp only [view, hw, hs]
  simp [pause, h]

theorem view_back_of_ne (h : t ≠ s.current) (op : Op) (r : Ret) (i : Bool) :
    view (back op r i s) t = view s t := by
  have hw (w : WaitQ) : ((back op r i s).waitQ w).count t = (s.waitQ w).count t := by
    by_cases hop : waitsOn (s.thr s.current).ctx = some w <;>
      simp [back, hop, List.count_erase_of_ne h]
  simp only [view, hw]
  simp [back, h, h.symm, subject]

theorem view_depart_of_ne (h : t ≠ s.current) (f : Thread → Thread) (n : ℤ) :
    view (depart f n s) t = view s t := by
  by_cases hp : (f (s.thr s.current)).primordial = true <;>
    simp [view, depart, hp, h, h.symm, List.count_erase_of_ne h, subject]

/-- **A move about `u`** leaves the views of the other threads alone. -/
theorem Move.view_of_ne (h : Move u s s') (t : ThreadPtr) (ht : t ≠ u) : view s' t = view s t := by
  cases h with
  | called op => exact view_log_of_ne ht rfl
  | reply | answer => exact view_back_of_ne ht _ _ _
  | pause => exact view_pause_of_ne ht _ _ _
  | leave => rw [Vp.condTimedwaitLeave, view_modify_of_ne ht, view_delWaitQ_of_ne ht]
  | signal => exact view_wake_of_ne ht _
  | flag => exact view_flag_of_ne ht
  | interrupt => rw [view_wake_of_ne ht, view_flag_of_ne ht]
  | expire => exact view_expireThread_of_ne ht
  | tick | acquire | release | ioSkip => rfl
  | create _ _ hw => exact view_threadCreate_of_ne ht _ hw
  | die => simp [view, Moves.die, ht, ht.symm]
  | depart | cleanup => exact view_depart_of_ne ht _ _
  | join =>
    rw [Vp.makeRunnable, Vp.setState, view_log_of_ne ht rfl, view_addRunQ_of_ne ht,
      view_modify_of_ne ht, view_delZombieQ_of_ne ht]
  | handOff =>
    rw [Vp.makeRunnable, Vp.setState, view_log_of_ne ht rfl, view_addRunQ_of_ne ht,
      view_modify_of_ne ht]
    rfl
  | idle => exact view_modify_of_ne ht _
  | yield => rw [Vp.setState, Vp.setCtx, view_modify_of_ne ht, view_modify_of_ne ht]
  | schedule => exact view_vpSchedule_of_ne ht
  | ioPause => exact view_pause_of_ne (s := { s with nextIo := _, inflight := _ }) ht _ _ _
  | @complete e bytes =>
    simp only [Vp.complete]
    split
    · rfl
    · exact view_modify_of_ne ht _
  | drain => exact view_wake_of_ne ht _

/-! ### What a move does to its own thread -/

theorem view_log_self (op : Op) (p : Bool) : view (s.log (.called u op p)) u =
    { view s u with log := .called u op p :: (view s u).log } := by
  simp [view, Vp.log, subject]

theorem view_back (op : Op) (r : Ret) (i : Bool) : view (back op r i s) s.current =
    { view s s.current with
      th := { s.thr s.current with timedOut := false, interrupt := i, ctx := .user }
      waits := fun w => (view s s.current).waits w -
        if waitsOn (s.thr s.current).ctx = some w then 1 else 0
      log := .returned s.current op r :: (view s s.current).log } := by
  have hw (w : WaitQ) : ((back op r i s).waitQ w).count s.current = (s.waitQ w).count s.current -
      if waitsOn (s.thr s.current).ctx = some w then 1 else 0 := by
    by_cases hop : waitsOn (s.thr s.current).ctx = some w <;> simp [back, hop]
  simp only [view, hw]
  simp [back, subject]

theorem view_pause (op : Op) (st : TState) (x : Option UTime) :
    view (pause op st x s) s.current =
      { view s s.current with
        th := { s.thr s.current with
          state := st, ctx := .within op, onSleepQ := x.isSome || (s.thr s.current).onSleepQ }
        sleeps := (view s s.current).sleeps + if x.isSome then 1 else 0
        waits := fun w => (view s s.current).waits w +
          if waitsOn (.within op) = some w then 1 else 0 } := by
  have hw (w : WaitQ) : ((pause op st x s).waitQ w).count s.current = (s.waitQ w).count s.current +
      if waitsOn (.within op) = some w then 1 else 0 := by
    by_cases hop : waitsOn (.within op) = some w <;> simp [pause, hop]
  have hs : (pause op st x s).sq.links.count s.current =
      s.sq.links.count s.current + if x.isSome then 1 else 0 := by
    cases x <;> simp [pause, count_links_add]
  simp only [view, hw, hs]
  simp [pause]

theorem view_wake (w : Wake) : view (s.wake u w) u =
    { view s u with
      th := { s.thr u with state := .runnable, onSleepQ := false }
      runs := (view s u).runs + 1
      sleeps := (view s u).sleeps - if (s.thr u).onSleepQ then 1 else 0
      log := .woken u w :: (view s u).log } := by
  by_cases hs : (s.thr u).onSleepQ = true
  · simp [view, Vp.wake, Vp.makeRunnable, Vp.setState, Vp.modify, Vp.addRunQ, Vp.delSleepQ, Vp.log,
      subject, hs]
  · simp [view, Vp.wake, Vp.makeRunnable, Vp.setState, Vp.modify, Vp.addRunQ, Vp.log, subject, hs]

theorem view_makeRunnable (w : Wake) : view (s.makeRunnable u w) u =
    { view s u with
      th := { s.thr u with state := .runnable }
      runs := (view s u).runs + 1
      log := .woken u w :: (view s u).log } := by
  simp [view, Vp.makeRunnable, Vp.setState, Vp.modify, Vp.addRunQ, Vp.log, subject]

theorem view_joined : view ((s.delZombieQ u).makeRunnable u .join) u =
    { view s u with
      th := { s.thr u with state := .runnable }
      runs := (view s u).runs + 1
      zombies := (view s u).zombies - 1
      log := .woken u .join :: (view s u).log } := by
  rw [view_makeRunnable]
  simp [view, Vp.delZombieQ]

theorem view_modify (f : Thread → Thread) :
    view (s.modify u f) u = { view s u with th := f (s.thr u) } := by
  simp [view, Vp.modify]

theorem view_leave (w : WaitQ) : view (s.condTimedwaitLeave w) s.current =
    { view s s.current with
      th := { s.thr s.current with timedOut := false, interrupt := false, ctx := .user }
      waits := fun w' => (view s s.current).waits w' - if w = w' then 1 else 0 } := by
  have hw (w' : WaitQ) : ((s.condTimedwaitLeave w).waitQ w').count s.current =
      (s.waitQ w').count s.current - if w = w' then 1 else 0 := by
    by_cases he : w' = w
    · subst he; simp [Vp.condTimedwaitLeave, Vp.modify, Vp.delWaitQ]
    · simp [Vp.condTimedwaitLeave, Vp.modify, Vp.delWaitQ, update_of_ne he, Ne.symm he]
  simp only [view, hw]
  simp [Vp.condTimedwaitLeave, Vp.modify, Vp.delWaitQ]

theorem view_flag : view (flag u s) u =
    { view s u with
      th := { s.thr u with interrupt := true }
      log := .interrupted u :: (view s u).log } := by
  simp [view, flag, Vp.modify, Vp.log, subject]

theorem view_expireThread : view (s.expireThread u) u =
    { view s u with
      th := { s.thr u with
        state := .runnable, onSleepQ := false
        timedOut := (s.thr u).timedOut || ((s.thr u).state == .condWait) }
      runs := (view s u).runs + 1
      sleeps := (view s u).sleeps - 1
      log := .woken u .clock :: (view s u).log } := by
  by_cases hs : (s.thr u).state = .condWait
  · simp [view, Vp.expireThread, Vp.makeRunnable, Vp.setState, Vp.modify, Vp.addRunQ, Vp.delSleepQ,
      Vp.log, subject, hs]
  · simp [view, Vp.expireThread, Vp.makeRunnable, Vp.setState, Vp.modify, Vp.addRunQ, Vp.delSleepQ,
      Vp.log, subject, hs]

theorem view_create {a : ThreadPtr} (j : Bool) (hw : s.waitQ (.term a) = []) :
    view (s.threadCreate a j .user) a =
      { view s a with
        th := Vp.newThread j .user
        alive := (view s a).alive + 1
        runs := (view s a).runs + 1
        log := .created a :: (view s a).log } := by
  have he : update s.waitQ (.term a) [] = s.waitQ := by rw [← hw, update_eq_self]
  simp [view, Vp.threadCreate, Vp.addRunQ, Vp.log, subject, he]

theorem view_die (v : ℕ) : view (die v s) s.current =
    { view s s.current with
      th := { s.thr s.current with retval := v, state := .zombie, ctx := .within (.exit v) }
      zombies := (view s s.current).zombies + 1 } := by
  simp [view, die]

theorem view_depart (f : Thread → Thread) (n : ℤ) : view (depart f n s) s.current =
    { view s s.current with
      th := f (s.thr s.current)
      alive := (view s s.current).alive - 1
      log := if (f (s.thr s.current)).primordial then (view s s.current).log
        else .stackFreed s.current :: (view s s.current).log } := by
  by_cases hp : (f (s.thr s.current)).primordial = true <;> simp [view, depart, hp, subject]

/-- Who is scheduled: the head of the run queue, else the idle thread. -/
theorem vpSchedule_current : s.vpSchedule.current = s.runQ.head?.getD s.idle := by
  unfold Vp.vpSchedule
  split <;> rename_i hq <;> simp [hq]

theorem view_vpSchedule : view s.vpSchedule s.vpSchedule.current =
    { view s s.vpSchedule.current with
      th := { s.thr s.vpSchedule.current with state := .running }
      runs := (view s s.vpSchedule.current).runs - 1 } := by
  unfold Vp.vpSchedule
  split
  · rename_i x q hq
    simp [view, hq, Vp.delRunQ, Vp.setState, Vp.modify]
  · rename_i hq
    simp [view, hq, Vp.setState, Vp.modify]

/-! ### The fields of that thread -/

@[simp] theorem thr_back (op : Op) (r : Ret) (i : Bool) : (back op r i s).thr s.current =
    { s.thr s.current with timedOut := false, interrupt := i, ctx := .user } :=
  congrArg View.th (view_back op r i)

@[simp] theorem thr_pause (op : Op) (st : TState) (x : Option UTime) :
    (pause op st x s).thr s.current = { s.thr s.current with
      state := st, ctx := .within op, onSleepQ := x.isSome || (s.thr s.current).onSleepQ } :=
  congrArg View.th (view_pause op st x)

@[simp] theorem thr_wake (w : Wake) :
    (s.wake u w).thr u = { s.thr u with state := .runnable, onSleepQ := false } :=
  congrArg View.th (view_wake w)

@[simp] theorem thr_makeRunnable (w : Wake) :
    (s.makeRunnable u w).thr u = { s.thr u with state := .runnable } :=
  congrArg View.th (view_makeRunnable w)

@[simp] theorem thr_flag : (flag u s).thr u = { s.thr u with interrupt := true } :=
  congrArg View.th view_flag

@[simp] theorem thr_expireThread : (s.expireThread u).thr u = { s.thr u with
    state := .runnable, onSleepQ := false
    timedOut := (s.thr u).timedOut || ((s.thr u).state == .condWait) } :=
  congrArg View.th view_expireThread

@[simp] theorem thr_leave (w : WaitQ) : (s.condTimedwaitLeave w).thr s.current =
    { s.thr s.current with timedOut := false, interrupt := false, ctx := .user } :=
  congrArg View.th (view_leave w)

@[simp] theorem thr_modify (f : Thread → Thread) : (s.modify u f).thr u = f (s.thr u) :=
  congrArg View.th (view_modify f)

@[simp] theorem thr_threadCreate (j : Bool) :
    (s.threadCreate u j .user).thr u = Vp.newThread j .user := by
  simp [Vp.threadCreate, Vp.log, Vp.addRunQ]

@[simp] theorem thr_die (v : ℕ) : (die v s).thr s.current =
    { s.thr s.current with retval := v, state := .zombie, ctx := .within (.exit v) } :=
  congrArg View.th (view_die v)

@[simp] theorem thr_depart (f : Thread → Thread) (n : ℤ) :
    (depart f n s).thr s.current = f (s.thr s.current) :=
  congrArg View.th (view_depart f n)

theorem complete_eq (e : Entry) (n : ℤ) : ∃ v, s.complete e n =
    { s.modify e.thread fun th => { th with validLen := v } with
      inflight := s.inflight.erase e
      readyQ := s.readyQ ++ [e] } := by
  unfold Vp.complete
  by_cases hk : e.kind = .db
  · exact ⟨(s.thr e.thread).validLen, by simp [hk, Vp.modify]⟩
  · exact ⟨n, by simp [hk, Vp.modify]⟩

@[simp] theorem thr_vpSchedule : s.vpSchedule.thr s.vpSchedule.current =
    { s.thr s.vpSchedule.current with state := .running } :=
  congrArg View.th view_vpSchedule

end StNvs.Sched.Moves
