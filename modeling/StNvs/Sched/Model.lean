import StNvs.Lib.Runs
import StNvs.Sched.Sleep

/-! # The virtual processor: threads, queues, and the blocking calls

`Vp` is the state of the scheduler: the threads, the run, sleep and zombie queues, the wait queues of
condition variables and mutexes, the current thread. A queue is the list of its threads from the head.
A thread that is switched away from keeps in `ctx` the call it is inside (`jmp_buf context`); when
`vpSchedule` restores it, the rest of the call is a step of its own (`resume`), and then its code runs
on to the next call.

The operations are those of `sched_win.cpp` and `sync.cpp`. What is not kept: the stack and the private
data of a thread (`stk.cpp`, `key.cpp`), the time cache of `st_time`, and the contents of I/O buffers.
`trace` is the history of what happened, newest first; no function reads it. -/

namespace StNvs.Sched.Model

open StNvs.Sched.Sleep StNvs.Lib.Runs Function

/-! ### The data -/

/-- `_ST_ST_RUNNING` … `_ST_ST_ZOMBIE`. -/
inductive TState
  | running | runnable | ioWait | lockWait | condWait | sleeping | zombie
  deriving DecidableEq, Repr

/-- The lists a thread's `wait_links` may be on: those of the condition variables and mutexes a program
has, and of the termination condition `thread->term`. -/
inductive WaitQ
  | cond (c : ℕ)
  | mutex (m : ℕ)
  | term (t : ThreadPtr)
  deriving DecidableEq, Repr

/-- The calls that start an operation outside the scheduler and then wait for it. -/
inductive IoKind
  | read | write (nbyte : ℤ) | accept | connect | db
  deriving DecidableEq, Repr

/-- What the system call that starts an operation reports: that it succeeded at once, and whether
`WSAGetLastError()` is `ERROR_IO_PENDING` after it. -/
structure Submit where
  done : Bool
  pending : Bool
  deriving DecidableEq, Repr

/-- A call of the library. `io k o n` is the `n`-th operation that is started. -/
inductive Op
  | create (a : Option ThreadPtr) (joinable : Bool)
  | exit (retval : ℕ)
  | join (t : ThreadPtr)
  | usleep (usecs : UTime)
  | condTimedwait (c : ℕ) (timeout : UTime)
  | condSignal (c : ℕ) (broadcast : Bool)
  | mutexLock (m : ℕ)
  | mutexUnlock (m : ℕ)
  | mutexTrylock (m : ℕ)
  | interrupt (t : ThreadPtr)
  | io (k : IoKind) (o : Submit) (n : ℕ)
  deriving DecidableEq, Repr

/-- Where the idle thread is in its loop. -/
inductive IdlePhase
  | wait | drain | clock
  deriving DecidableEq, Repr

/-- Where a thread continues: in its own code, after the switch of a call, or in the idle loop. -/
inductive Ctx
  | user
  | within (op : Op)
  | idle (p : IdlePhase)
  deriving DecidableEq, Repr

inductive Errno
  | eintr | einval | edeadlk | ebusy | eperm | etime
  deriving DecidableEq, Repr

/-- What a call returns: `0`, `0` with the exit value stored, a thread or `NULL`, a byte count, a
descriptor or `NULL`, or `-1` with `errno`. -/
inductive Ret
  | ok
  | joined (retval : ℕ)
  | created (a : Option ThreadPtr)
  | bytes (n : ℤ)
  | fd (valid : Bool)
  | fail (e : Errno)
  deriving DecidableEq, Repr

/-- Who made a thread runnable. -/
inductive Wake
  | signal | clock | interrupt | unlock | join | io
  deriving DecidableEq, Repr

/-- `called t op p`: `t` enters `op`, with the flag `_ST_FL_INTERRUPT` equal to `p`. -/
inductive Event
  | created (t : ThreadPtr)
  | called (t : ThreadPtr) (op : Op) (pending : Bool)
  | woken (t : ThreadPtr) (w : Wake)
  | interrupted (t : ThreadPtr)
  | returned (t : ThreadPtr) (op : Op) (r : Ret)
  | stackFreed (t : ThreadPtr)
  deriving DecidableEq, Repr

/-- `st_thread_t`: state, flags, and `term` for `thread->term != NULL`. `validLen` is the field of the
thread's `context_switch`. -/
structure Thread where
  state : TState
  primordial : Bool
  idleThread : Bool
  onSleepQ : Bool
  interrupt : Bool
  timedOut : Bool
  retval : ℕ
  term : Bool
  validLen : ℤ
  ctx : Ctx
  deriving DecidableEq, Repr

/-- An operation in flight: the thread its `OVERLAPPED` or request names, and its number. -/
structure Entry where
  thread : ThreadPtr
  kind : IoKind
  num : ℕ
  deriving DecidableEq, Repr

/-- `st_vp_t` with the globals of the scheduler, the owners of the mutexes, the operations in flight and
the ready queue. `live` are the threads that exist. -/
structure Vp where
  thr : ThreadPtr → Thread
  live : List ThreadPtr
  runQ : List ThreadPtr
  sq : SleepQ UTime
  zombieQ : List ThreadPtr
  waitQ : WaitQ → List ThreadPtr
  owner : ℕ → Option ThreadPtr
  current : ThreadPtr
  idle : ThreadPtr
  activeCount : ℤ
  lastClock : UTime
  inflight : List Entry
  readyQ : List Entry
  nextIo : ℕ
  trace : List Event

/-- `ST_UTIME_NO_TIMEOUT`, converted to `st_utime_t`. -/
def noTimeout : UTime := BitVec.allOnes 32

instance decidableWithin (c : Ctx) : Decidable (∃ op, c = .within op) :=
  match c with
  | .within op => .isTrue ⟨op, rfl⟩
  | .user | .idle _ => .isFalse (by simp)

instance decidableExiting (c : Ctx) : Decidable (∃ v, c = .within (.exit v)) :=
  match c with
  | .within (.exit v) => .isTrue ⟨v, rfl⟩
  | .user | .idle _ | .within (.create _ _) | .within (.join _) | .within (.usleep _)
  | .within (.condTimedwait _ _) | .within (.condSignal _ _) | .within (.mutexLock _)
  | .within (.mutexUnlock _) | .within (.mutexTrylock _) | .within (.interrupt _)
  | .within (.io _ _ _) => .isFalse (by simp)

namespace Vp

/-! ### Fields of a thread, and the queues -/

def modify (t : ThreadPtr) (f : Thread → Thread) (s : Vp) : Vp :=
  { s with thr := update s.thr t (f (s.thr t)) }

def setState (t : ThreadPtr) (st : TState) (s : Vp) : Vp :=
  s.modify t fun th => { th with state := st }

def setCtx (t : ThreadPtr) (c : Ctx) (s : Vp) : Vp := s.modify t fun th => { th with ctx := c }

def clearInterrupt (t : ThreadPtr) (s : Vp) : Vp :=
  s.modify t fun th => { th with interrupt := false }

def log (e : Event) (s : Vp) : Vp := { s with trace := e :: s.trace }

/-- `_ST_ADD_RUNQ`. -/
def addRunQ (t : ThreadPtr) (s : Vp) : Vp := { s with runQ := s.runQ ++ [t] }

/-- `_ST_DEL_RUNQ`. -/
def delRunQ (t : ThreadPtr) (s : Vp) : Vp := { s with runQ := s.runQ.erase t }

/-- `_ST_ADD_ZOMBIEQ`. -/
def addZombieQ (t : ThreadPtr) (s : Vp) : Vp := { s with zombieQ := s.zombieQ ++ [t] }

/-- `_ST_DEL_ZOMBIEQ`. -/
def delZombieQ (t : ThreadPtr) (s : Vp) : Vp := { s with zombieQ := s.zombieQ.erase t }

/-- `_st_add_sleep_q`. -/
def addSleepQ (t : ThreadPtr) (timeout : UTime) (s : Vp) : Vp :=
  { s.modify t (fun th => { th with onSleepQ := true }) with sq := s.sq.add t timeout }

/-- `_st_del_sleep_q`. -/
def delSleepQ (t : ThreadPtr) (expired : Bool) (s : Vp) : Vp :=
  { s.modify t (fun th => { th with onSleepQ := false }) with sq := s.sq.del t expired }

/-- `ST_APPEND_LINK(&t->wait_links, &w->wait_q)`. -/
def addWaitQ (w : WaitQ) (t : ThreadPtr) (s : Vp) : Vp :=
  { s with waitQ := update s.waitQ w (s.waitQ w ++ [t]) }

/-- `ST_REMOVE_LINK(&t->wait_links)`. -/
def delWaitQ (w : WaitQ) (t : ThreadPtr) (s : Vp) : Vp :=
  { s with waitQ := update s.waitQ w ((s.waitQ w).erase t) }

/-- `thread->state = _ST_ST_RUNNABLE; _ST_ADD_RUNQ(thread)`. -/
def makeRunnable (t : ThreadPtr) (w : Wake) (s : Vp) : Vp :=
  ((s.setState t .runnable).addRunQ t).log (.woken t w)

/-- The same for a thread that may be asleep: it leaves the sleep queue first. -/
def wake (t : ThreadPtr) (w : Wake) (s : Vp) : Vp :=
  (if (s.thr t).onSleepQ then s.delSleepQ t false else s).makeRunnable t w

/-- `_st_vp_schedule`: the first thread of the run queue, or the idle thread. -/
def vpSchedule (s : Vp) : Vp :=
  match s.runQ with
  | t :: _ => { (s.delRunQ t).setState t .running with current := t }
  | [] => { s.setState s.idle .running with current := s.idle }

/-- `_ST_SWITCH_CONTEXT` of the current thread, inside the call `op`. -/
def switchContext (op : Op) (s : Vp) : Vp := (s.setCtx s.current (.within op)).vpSchedule

/-- The call of the current thread returns. -/
def ret (op : Op) (r : Ret) (s : Vp) : Vp :=
  (s.setCtx s.current .user).log (.returned s.current op r)

/-! ### The clock -/

/-- A sleeper whose time is over, in `_st_vp_check_clock`. -/
def expireThread (t : ThreadPtr) (s : Vp) : Vp :=
  let s := s.delSleepQ t true
  let s := if (s.thr t).state = .condWait then s.modify t fun th => { th with timedOut := true } else s
  s.makeRunnable t .clock

/-- The loop of `_st_vp_check_clock`. -/
def checkClockLoop (elapsed : UTime) : List ThreadPtr → Vp → Vp
  | [], s => s
  | t :: q, s =>
    if elapsed < s.sq.sleep t then
      { s with sq := { s.sq with
                        sleep := update s.sq.sleep t (s.sq.sleep t - elapsed)
                        sleepMax := s.sq.sleepMax - elapsed } }
    else checkClockLoop (elapsed - s.sq.sleep t) q (s.expireThread t)

/-- `_st_vp_check_clock`, at the clock reading `now`. -/
def vpCheckClock (now : UTime) (s : Vp) : Vp :=
  checkClockLoop (now - s.lastClock) s.sq.links { s with lastClock := now }

/-! ### Threads -/

/-- The fresh `st_thread_t` of `st_thread_create`; `start` is where its start function begins. -/
def newThread (joinable : Bool) (start : Ctx) : Thread :=
  { state := .runnable, primordial := false, idleThread := false, onSleepQ := false,
    interrupt := false, timedOut := false, retval := 0, term := joinable, validLen := 0, ctx := start }

/-- `st_thread_create`, with its stack at hand and the thread at `a`. -/
def threadCreate (a : ThreadPtr) (joinable : Bool) (start : Ctx) (s : Vp) : Vp :=
  ({ s with
      thr := update s.thr a (newThread joinable start)
      live := a :: s.live
      waitQ := if joinable then update s.waitQ (.term a) [] else s.waitQ
      activeCount := s.activeCount + 1 }.addRunQ a).log (.created a)

/-- The end of `st_thread_exit`: the stack, and the thread on it, are free again. -/
def threadGone (s : Vp) : Vp :=
  let me := s.current
  let s := if (s.thr me).primordial then s else s.log (.stackFreed me)
  { s with live := s.live.erase me }.vpSchedule

/-- The loop of `_st_cond_signal` over the wait queue. -/
def condSignalLoop (broadcast : Bool) : List ThreadPtr → Vp → Vp
  | [], s => s
  | t :: q, s =>
    if (s.thr t).state = .condWait then
      if broadcast then condSignalLoop broadcast q (s.wake t .signal) else s.wake t .signal
    else condSignalLoop broadcast q s

/-- `_st_cond_signal`. -/
def condSignal (w : WaitQ) (broadcast : Bool) (s : Vp) : Vp :=
  condSignalLoop broadcast (s.waitQ w) s

/-- `st_thread_exit`, up to the switch. The signal leaves the thread itself alone, so that where it
continues is noted before it. -/
def threadExit (retval : ℕ) (s : Vp) : Vp :=
  let me := s.current
  let s := s.modify me fun th => { th with retval := retval }
  let s := { s with activeCount := s.activeCount - 1 }
  if (s.thr me).term then
    ((((s.setState me .zombie).setCtx me (.within (.exit retval))).addZombieQ me).condSignal (.term me)
      false).vpSchedule
  else s.threadGone

/-- `st_thread_exit`, after the thread was joined: `term` is destroyed and the cleanup goes on. -/
def threadExitResume (s : Vp) : Vp :=
  (s.modify s.current fun th => { th with term := false }).threadGone

/-- `st_thread_interrupt`. -/
def threadInterrupt (t : ThreadPtr) (s : Vp) : Vp :=
  if (s.thr t).state = .zombie then s
  else
    let s := (s.modify t fun th => { th with interrupt := true }).log (.interrupted t)
    if (s.thr t).state = .running ∨ (s.thr t).state = .runnable then s else s.wake t .interrupt

/-! ### Sleeping, conditions, joining -/

/-- `st_usleep`, up to the switch. -/
def usleep (usecs : UTime) (s : Vp) : Vp :=
  let me := s.current
  if (s.thr me).interrupt then (s.clearInterrupt me).ret (.usleep usecs) (.fail .eintr)
  else ((s.setState me .sleeping).addSleepQ me usecs).switchContext (.usleep usecs)

/-- `st_usleep`, after the switch. -/
def usleepResume (usecs : UTime) (s : Vp) : Vp :=
  let me := s.current
  if (s.thr me).interrupt then (s.clearInterrupt me).ret (.usleep usecs) (.fail .eintr)
  else s.ret (.usleep usecs) .ok

/-- `st_cond_timedwait` up to the switch, as part of the call `op`. -/
def condTimedwait (w : WaitQ) (timeout : UTime) (op : Op) (s : Vp) : Vp :=
  let me := s.current
  if (s.thr me).interrupt then (s.clearInterrupt me).ret op (.fail .eintr)
  else
    let s := (s.setState me .condWait).addWaitQ w me
    (if timeout = noTimeout then s else s.addSleepQ me timeout).switchContext op

/-- What `st_cond_timedwait` returns after the switch: an interrupt overrides a timeout. -/
def condResult (th : Thread) : Option Errno :=
  if th.interrupt then some .eintr else if th.timedOut then some .etime else none

/-- `st_cond_timedwait` after the switch, but for its result: the thread runs on from there. -/
def condTimedwaitLeave (w : WaitQ) (s : Vp) : Vp :=
  (s.delWaitQ w s.current).modify s.current fun th =>
    { th with timedOut := false, interrupt := false, ctx := .user }

/-- `st_cond_timedwait`, after the switch. -/
def condTimedwaitResume (c : ℕ) (timeout : UTime) (s : Vp) : Vp :=
  (s.condTimedwaitLeave (.cond c)).ret (.condTimedwait c timeout)
    (match condResult (s.thr s.current) with
      | some e => .fail e
      | none => .ok)

/-- The loop of `st_thread_join` and what follows it. -/
def joinLoop (t : ThreadPtr) (s : Vp) : Vp :=
  if (s.thr t).state = .zombie then
    ((s.delZombieQ t).makeRunnable t .join).ret (.join t) (.joined (s.thr t).retval)
  else s.condTimedwait (.term t) noTimeout (.join t)

/-- `st_thread_join`. -/
def threadJoin (t : ThreadPtr) (s : Vp) : Vp :=
  if (s.thr t).term = false then s.ret (.join t) (.fail .einval)
  else if s.current = t then s.ret (.join t) (.fail .edeadlk)
  else if s.waitQ (.term t) ≠ [] then s.ret (.join t) (.fail .einval)
  else s.joinLoop t

/-- `st_thread_join`, after the switch. -/
def threadJoinResume (t : ThreadPtr) (s : Vp) : Vp :=
  match condResult (s.thr s.current) with
  | some e => (s.condTimedwaitLeave (.term t)).ret (.join t) (.fail e)
  | none => (s.condTimedwaitLeave (.term t)).joinLoop t

/-! ### Mutexes -/

/-- `st_mutex_lock`, up to the switch. -/
def mutexLock (m : ℕ) (s : Vp) : Vp :=
  let me := s.current
  if (s.thr me).interrupt then (s.clearInterrupt me).ret (.mutexLock m) (.fail .eintr)
  else if s.owner m = none then
    { s with owner := update s.owner m (some me) }.ret (.mutexLock m) .ok
  else if s.owner m = some me then s.ret (.mutexLock m) (.fail .edeadlk)
  else ((s.setState me .lockWait).addWaitQ (.mutex m) me).switchContext (.mutexLock m)

/-- `st_mutex_lock`, after the switch. -/
def mutexLockResume (m : ℕ) (s : Vp) : Vp :=
  let me := s.current
  let s := s.delWaitQ (.mutex m) me
  if (s.thr me).interrupt ∧ s.owner m ≠ some me then
    (s.clearInterrupt me).ret (.mutexLock m) (.fail .eintr)
  else s.ret (.mutexLock m) .ok

/-- `st_mutex_unlock`: the mutex goes to the first thread of the wait queue that still waits. -/
def mutexUnlock (m : ℕ) (s : Vp) : Vp :=
  if s.owner m ≠ some s.current then s.ret (.mutexUnlock m) (.fail .eperm)
  else
    match (s.waitQ (.mutex m)).find? fun t => (s.thr t).state = .lockWait with
    | some t =>
      ({ s with owner := update s.owner m (some t) }.makeRunnable t .unlock).ret (.mutexUnlock m) .ok
    | none => { s with owner := update s.owner m none }.ret (.mutexUnlock m) .ok

/-- `st_mutex_trylock`. -/
def mutexTrylock (m : ℕ) (s : Vp) : Vp :=
  if s.owner m ≠ none then s.ret (.mutexTrylock m) (.fail .ebusy)
  else { s with owner := update s.owner m (some s.current) }.ret (.mutexTrylock m) .ok

/-! ### I/O -/

/-- Whether the operation was started, so that its completion will be posted. A system call that
succeeds at once still posts one; a DB request is always queued. -/
def posted : IoKind → Submit → Bool
  | .db, _ => true
  | _, o => o.done || o.pending

/-- Whether the call goes on to `_st_wait`. `st_accept` looks at the error code alone: it does not keep
the result of `AcceptEx`. -/
def waits : IoKind → Submit → Bool
  | .db, _ => true
  | .accept, o => o.pending
  | _, o => o.done || o.pending

/-- What the call returns after `_st_wait`; none of them looks at what that returned. -/
def ioResult (th : Thread) : IoKind → Ret
  | .read => .bytes th.validLen
  | .write n => .bytes n
  | .accept | .connect => .fd true
  | .db => .ok

/-- What the call returns when it does not wait. -/
def ioFailed : IoKind → Ret
  | .read | .write _ => .bytes (-1)
  | .accept | .connect => .fd false
  | .db => .ok

/-- `st_read`, `st_write`, `st_accept`, `st_connect`, `st_db_*` up to the switch of `_st_wait`. -/
def ioCall (k : IoKind) (o : Submit) (n : ℕ) (s : Vp) : Vp :=
  let me := s.current
  let s := { s with nextIo := s.nextIo + 1 }
  let s := if posted k o then { s with inflight := s.inflight ++ [⟨me, k, n⟩] } else s
  if waits k o then
    if (s.thr me).interrupt then (s.clearInterrupt me).ret (.io k o n) (ioResult (s.thr me) k)
    else (s.setState me .ioWait).switchContext (.io k o n)
  else s.ret (.io k o n) (ioFailed k)

/-- The same calls, after the switch. -/
def ioResume (k : IoKind) (o : Submit) (n : ℕ) (s : Vp) : Vp :=
  let me := s.current
  (if (s.thr me).interrupt then s.clearInterrupt me else s).ret (.io k o n) (ioResult (s.thr me) k)

/-! ### The idle thread and the other OS threads -/

/-- `_st_vp_idle`: the wait for `_st_notify_event` ends, signalled or timed out. -/
def idleWait (signalled : Bool) (s : Vp) : Vp :=
  s.setCtx s.current (.idle (if signalled then .drain else .clock))

/-- `_st_vp_idle`: one round of the drain loop. -/
def idleDrain (s : Vp) : Vp :=
  match s.readyQ with
  | [] => s.setCtx s.current (.idle .clock)
  | e :: q => { s with readyQ := q }.wake e.thread .io

/-- The rest of a round of `_st_idle_thread_start`. -/
def idleClock (now : UTime) (s : Vp) : Vp :=
  let me := s.current
  (((s.vpCheckClock now).setState me .runnable).setCtx me (.idle .wait)).vpSchedule

/-- `_st_iocp_thread_pool` or `db_server` puts the thread of a finished operation on the ready queue;
`bytes` is stored for I/O. -/
def complete (e : Entry) (bytes : ℤ) (s : Vp) : Vp :=
  let s := { s with inflight := s.inflight.erase e, readyQ := s.readyQ ++ [e] }
  if e.kind = .db then s else s.modify e.thread fun th => { th with validLen := bytes }

/-! ### Steps -/

/-- The part of a call before its first switch. -/
def callOp : Op → Vp → Vp
  | .create none j, s => s.ret (.create none j) (.created none)
  | .create (some a) j, s => (s.threadCreate a j .user).ret (.create (some a) j) (.created (some a))
  | .exit v, s => s.threadExit v
  | .join t, s => s.threadJoin t
  | .usleep u, s => s.usleep u
  | .condTimedwait c u, s => s.condTimedwait (.cond c) u (.condTimedwait c u)
  | .condSignal c b, s => (s.condSignal (.cond c) b).ret (.condSignal c b) .ok
  | .mutexLock m, s => s.mutexLock m
  | .mutexUnlock m, s => s.mutexUnlock m
  | .mutexTrylock m, s => s.mutexTrylock m
  | .interrupt t, s => (s.threadInterrupt t).ret (.interrupt t) .ok
  | .io k o n, s => s.ioCall k o n

/-- The part of a call after a switch. -/
def resumeOp : Op → Vp → Vp
  | .exit _, s => s.threadExitResume
  | .join t, s => s.threadJoinResume t
  | .usleep u, s => s.usleepResume u
  | .condTimedwait c u, s => s.condTimedwaitResume c u
  | .mutexLock m, s => s.mutexLockResume m
  | .io k o n, s => s.ioResume k o n
  | _, s => s

/-- The thread was joined and only has its cleanup left. -/
def Joined (s : Vp) (t : ThreadPtr) : Prop :=
  (∃ v, (s.thr t).ctx = .within (.exit v)) ∧ (s.thr t).state ≠ .zombie

/-- What a program owes the library: a thread is placed where none exists, a thread argument is one that
exists and was not joined. The primordial thread has no `context_switch`, so it does no socket I/O. -/
def Op.Valid (s : Vp) : Op → Prop
  | .create (some a) _ => a ∉ s.live
  | .join t => t ∈ s.live ∧ ¬ s.Joined t
  | .interrupt t => t ∈ s.live ∧ ¬ s.Joined t
  | .io k _ n => n = s.nextIo ∧ (k = .db ∨ (s.thr s.current).primordial = false)
  | _ => True

/-- A step: the current thread makes a call or goes on with one, the idle thread goes on, or a finished
operation is posted. -/
inductive Action
  | call (op : Op)
  | resume
  | idleWait (signalled : Bool)
  | idleDrain
  | idleClock (now : UTime)
  | complete (e : Entry) (bytes : ℤ)
  deriving DecidableEq, Repr

/-- The idle thread leaves its loop, and the process ends, when no active thread is left. -/
def Enabled (s : Vp) : Action → Prop
  | .call op => (s.thr s.current).ctx = .user ∧ Op.Valid s op
  | .resume => ∃ op, (s.thr s.current).ctx = .within op
  | .idleWait _ => (s.thr s.current).ctx = .idle .wait ∧ 0 < s.activeCount
  | .idleDrain => (s.thr s.current).ctx = .idle .drain
  | .idleClock _ => (s.thr s.current).ctx = .idle .clock
  | .complete e _ => e ∈ s.inflight

instance decidableJoined (s : Vp) (t : ThreadPtr) : Decidable (s.Joined t) :=
  inferInstanceAs (Decidable ((∃ v, (s.thr t).ctx = .within (.exit v)) ∧ _))

instance decidableValid (s : Vp) : ∀ op : Op, Decidable (Op.Valid s op)
  | .create (some _) _ => inferInstanceAs (Decidable (_ ∉ s.live))
  | .create none _ => .isTrue trivial
  | .join t => inferInstanceAs (Decidable (t ∈ s.live ∧ ¬ s.Joined t))
  | .interrupt t => inferInstanceAs (Decidable (t ∈ s.live ∧ ¬ s.Joined t))
  | .io _ _ _ => inferInstanceAs (Decidable (_ ∧ _))
  | .exit _ | .usleep _ | .condTimedwait _ _ | .condSignal _ _ | .mutexLock _ | .mutexUnlock _
  | .mutexTrylock _ => .isTrue trivial

instance decidableEnabled (s : Vp) : ∀ a : Action, Decidable (Enabled s a)
  | .call _ => inferInstanceAs (Decidable (_ ∧ _))
  | .resume => inferInstanceAs (Decidable (∃ op, (s.thr s.current).ctx = .within op))
  | .idleWait _ => inferInstanceAs (Decidable (_ ∧ _))
  | .idleDrain | .idleClock _ => inferInstanceAs (Decidable (_ = _))
  | .complete e _ => inferInstanceAs (Decidable (e ∈ s.inflight))

def apply (s : Vp) : Action → Vp
  | .call op => (s.log (.called s.current op (s.thr s.current).interrupt)).callOp op
  | .resume =>
    match (s.thr s.current).ctx with
    | .within op => s.resumeOp op
    | _ => s
  | .idleWait b => s.idleWait b
  | .idleDrain => s.idleDrain
  | .idleClock now => s.idleClock now
  | .complete e n => s.complete e n

/-! ### The start -/

/-- The primordial thread. -/
def primordialThread : Thread :=
  { newThread false .user with state := .running, primordial := true }

/-- The globals before `st_init`. -/
def blank (now : UTime) : Vp :=
  { thr := fun _ => newThread false .user, live := [], runQ := [], sq := ⟨[], fun _ => 0, 0⟩,
    zombieQ := [], waitQ := fun _ => [], owner := fun _ => none, current := 0, idle := 0,
    activeCount := 0, lastClock := now, inflight := [], readyQ := [], nextIo := 0, trace := [] }

/-- `st_init`: the idle thread is created and taken off the run queue, then the primordial thread. -/
def stInit (idle prim : ThreadPtr) (now : UTime) : Vp :=
  let s := (blank now).threadCreate idle false (.idle .wait)
  let s := ({ s with idle := idle, activeCount := s.activeCount - 1 }.delRunQ idle).modify idle
    fun th => { th with idleThread := true }
  { s with
    thr := update s.thr prim primordialThread
    live := prim :: s.live
    current := prim
    activeCount := s.activeCount + 1
    trace := [] }

end Vp

/-- The scheduler as a machine. -/
def machine : Machine Vp Vp.Action where
  init s := ∃ idle prim now, idle ≠ prim ∧ s = Vp.stInit idle prim now
  enabled := Vp.Enabled
  apply := Vp.apply

/-- The rest of the call the current thread is inside. -/
theorem apply_resume {s : Vp} {op : Op} (hc : (s.thr s.current).ctx = .within op) :
    machine.apply s .resume = s.resumeOp op := by
  simp only [machine, Vp.apply, hc]

instance decidableMachine : ∀ s a, Decidable (machine.enabled s a) := Vp.decidableEnabled

end StNvs.Sched.Model
