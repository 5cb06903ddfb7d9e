import StNvs.Sched.Lives
import StNvs.Sched.Stk

/-! # The stacks of the threads

`Sys` is the scheduler with the stack pool and the field `stack` of the threads. `st_thread_create` takes
its stack from the pool and places the thread on it; if the termination condition cannot be made, the
stack goes back. The end of `st_thread_exit` puts the stack of the current thread on the free list.
Everything else is a step of the scheduler.

* `stack_pool`: in every run the free list is sound, and no stack on it belongs to a thread that exists. -/

namespace StNvs.Sched.Stacks

open StNvs.Sched.Sleep StNvs.Sched.Model StNvs.Sched.Moves StNvs.Sched.Threads StNvs.Sched.Invariant
open StNvs.Sched.Calls StNvs.Sched.Queues StNvs.Sched.Lives StNvs.Sched.Stk
open StNvs.Lib.Runs Function

/-! ### The machine -/

/-- The scheduler, the stack pool, and `thread->stack`. -/
structure Sys where
  vp : Vp
  pool : Pool
  stack : ThreadPtr → Option StackPtr

/-- A step: `st_thread_create` with the answers of the allocators, or another one of the scheduler. -/
inductive Action
  | create (stkSize : ℤ) (joinable term : Bool) (mem : Option Segment)
  | other (a : Vp.Action)

/-- The stack size of `st_thread_create`, a multiple of the page size. -/
def stackSize (page n : ℤ) : ℤ :=
  let n := if n = 0 then 64 * 1024 else n
  Int.tdiv (n + page - 1) page * page

/-- The step is the end of `st_thread_exit`. -/
def leaves (s : Vp) : Vp.Action → Bool
  | .call (.exit _) => !(s.thr s.current).term
  | .resume => decide (∃ v, (s.thr s.current).ctx = .within (.exit v))
  | _ => false

/-- The step is a call of `st_thread_create`. -/
def creates : Vp.Action → Bool
  | .call (.create _ _) => true
  | _ => false

namespace Sys

/-- `st_thread_create`; `term` says whether `st_cond_new` succeeds. -/
def threadCreate (page n : ℤ) (joinable term : Bool) (mem : Option Segment) (s : Sys) : Sys :=
  match s.pool.stackNew (stackSize page n) mem with
  | none => s
  | some (none, p) => { s with vp := Vp.apply s.vp (.call (.create none joinable)), pool := p }
  | some (some ts, p) =>
    let thread := (p.stack ts).thread
    let stack := update s.stack thread (some ts)
    if joinable ∧ term = false then
      { vp := Vp.apply s.vp (.call (.create none joinable)), pool := p.stackFree (stack thread), stack }
    else { vp := Vp.apply s.vp (.call (.create (some thread) joinable)), pool := p, stack }

/-- A step of the scheduler; the end of `st_thread_exit` frees the stack. -/
def other (a : Vp.Action) (s : Sys) : Sys :=
  { s with
    vp := Vp.apply s.vp a
    pool := if leaves s.vp a ∧ (s.vp.thr s.vp.current).primordial = false then
        s.pool.stackFree (s.stack s.vp.current)
      else s.pool }

/-- `calloc` and the segment allocator return memory that is not in use. -/
def Fresh (s : Sys) (m : Segment) : Prop :=
  m.ts ∉ s.pool.allocated ∧ m.thread ∉ s.vp.live ∧ ∀ ts ∈ s.pool.allocated, (s.pool.stack ts).thread ≠ m.thread

def Enabled (s : Sys) : Action → Prop
  | .create _ _ _ mem => (s.vp.thr s.vp.current).ctx = .user ∧ ∀ m ∈ mem, s.Fresh m
  | .other a => livesMachine.enabled s.vp a ∧ creates a = false

/-- `st_init`: the idle thread gets the first stack, the primordial thread has none. -/
def stInit (page : ℤ) (m : Segment) (prim : ThreadPtr) (now : UTime) : Sys where
  vp := Vp.stInit m.thread prim now
  pool := Pool.init.make (stackSize page 0) m
  stack := update (fun _ => none) m.thread (some m.ts)

end Sys

/-- The scheduler with its stack pool. -/
def machine (page : ℤ) : Machine Sys Action where
  init s := ∃ m prim now, m.thread ≠ prim ∧ s = Sys.stInit page m prim now
  enabled := Sys.Enabled
  apply s
    | .create n j term mem => s.threadCreate page n j term mem
    | .other a => s.other a

instance decidableEnabled (page : ℤ) (s : Sys) : ∀ a, Decidable ((machine page).enabled s a)
  | .create _ _ _ none =>
    decidable_of_iff ((s.vp.thr s.vp.current).ctx = .user) (and_iff_left (by simp)).symm
  | .create _ _ _ (some m) =>
    decidable_of_iff ((s.vp.thr s.vp.current).ctx = .user ∧ m.ts ∉ s.pool.allocated ∧
      m.thread ∉ s.vp.live ∧ ∀ ts ∈ s.pool.allocated, (s.pool.stack ts).thread ≠ m.thread)
      (and_congr_right fun _ => ⟨fun h _ hm => Option.some.inj hm ▸ h, fun h => h m rfl⟩)
  | .other _ => inferInstanceAs (Decidable (_ ∧ _))

/-! ### Who exists -/

/-- The threads that exist, and which is the primordial one. -/
def census (s : Vp) : List ThreadPtr × (ThreadPtr → Bool) := (s.live, fun t => (s.thr t).primordial)

variable {s : Vp} {t u : ThreadPtr} {op : Op}

theorem census_modify {f : Thread → Thread} (hf : ∀ th, (f th).primordial = th.primordial) :
    census (s.modify t f) = census s := by
  refine Prod.ext rfl (funext fun x => ?_)
  rcases eq_or_ne x t with rfl | hne
  · simp [census, Vp.modify, hf]
  · simp [census, Vp.modify, hne]

@[simp] theorem census_setState (st : TState) : census (s.setState t st) = census s :=
  census_modify fun _ => rfl

@[simp] theorem census_setCtx (c : Ctx) : census (s.setCtx t c) = census s := census_modify fun _ => rfl

@[simp] theorem census_clearInterrupt : census (s.clearInterrupt t) = census s :=
  census_modify fun _ => rfl

@[simp] theorem census_log (e : Event) : census (s.log e) = census s := rfl

@[simp] theorem census_ret (r : Ret) : census (s.ret op r) = census s :=
  census_setCtx (s := s) (t := s.current) .user

@[simp] theorem census_makeRunnable (w : Wake) : census (s.makeRunnable t w) = census s :=
  census_setState (s := s) (t := t) .runnable

@[simp] theorem census_addSleepQ (y : UTime) : census (s.addSleepQ t y) = census s :=
  census_modify (s := s) (t := t) (f := fun th => { th with onSleepQ := true }) fun _ => rfl

@[simp] theorem census_delSleepQ (b : Bool) : census (s.delSleepQ t b) = census s :=
  census_modify (s := s) (t := t) (f := fun th => { th with onSleepQ := false }) fun _ => rfl

@[simp] theorem census_addWaitQ (w : WaitQ) : census (s.addWaitQ w t) = census s := rfl

@[simp] theorem census_delWaitQ (w : WaitQ) : census (s.delWaitQ w t) = census s := rfl

@[simp] theorem census_wake (w : Wake) : census (s.wake t w) = census s := by
  rw [Vp.wake, census_makeRunnable]
  split <;> simp

@[simp] theorem census_expireThread : census (s.expireThread t) = census s := by
  simp only [Vp.expireThread, census_makeRunnable]
  split
  · exact (census_modify (by simp)).trans (census_delSleepQ true)
  · exact census_delSleepQ true

@[simp] theorem census_vpSchedule : census s.vpSchedule = census s := by
  unfold Vp.vpSchedule
  split
  · rename_i x _ _
    exact census_setState (s := s) (t := x) .running
  · exact census_setState (s := s) (t := s.idle) .running

@[simp] theorem census_switchContext : census (s.switchContext op) = census s := by
  simp [Vp.switchContext]

theorem census_checkClockLoop : ∀ (q : List ThreadPtr) (e : UTime) (s : Vp),
    census (s.checkClockLoop e q) = census s
  | [], _, _ => rfl
  | t :: q, e, s => by
    rw [Vp.checkClockLoop]
    split_ifs
    · rfl
    · rw [census_checkClockLoop q, census_expireThread]

theorem census_condSignalLoop (b : Bool) : ∀ (q : List ThreadPtr) (s : Vp),
    census (s.condSignalLoop b q) = census s
  | [], _ => rfl
  | t :: q, s => by
    rw [Vp.condSignalLoop]
    split_ifs
    · rw [census_condSignalLoop b q, census_wake]
    · exact census_wake _
    · exact census_condSignalLoop b q s

@[simp] theorem census_condTimedwait (w : WaitQ) (y : UTime) :
    census (s.condTimedwait w y op) = census s := by
  rw [Vp.condTimedwait]
  dsimp only
  split_ifs <;> simp

@[simp] theorem census_leave (w : WaitQ) : census (s.condTimedwaitLeave w) = census s :=
  census_modify (s := s.delWaitQ w s.current) (t := s.current) (by simp)

@[simp] theorem census_joinLoop : census (s.joinLoop t) = census s := by
  rw [Vp.joinLoop]
  split_ifs
  · rw [census_ret, census_makeRunnable]; rfl
  · exact census_condTimedwait _ _

/-- At the end of `st_thread_exit` the thread ceases to exist. -/
theorem census_threadGone : census s.threadGone = (s.live.erase s.current, (census s).2) := by
  rw [Vp.threadGone, census_vpSchedule]
  split <;> rfl

/-- A call that neither creates a thread nor ends one. -/
theorem census_callOp (hc : ∀ a j, op ≠ .create a j) (hx : ∀ v, op ≠ .exit v) :
    census (s.callOp op) = census s := by
  cases op with
  | create a j => exact absurd rfl (hc a j)
  | exit v => exact absurd rfl (hx v)
  | join t =>
    simp only [Vp.callOp, Vp.threadJoin]
    split_ifs <;> simp
  | usleep y =>
    simp only [Vp.callOp, Vp.usleep]
    split_ifs <;> simp
  | condTimedwait c y => exact census_condTimedwait _ _
  | condSignal c b => exact (census_ret _).trans (census_condSignalLoop b _ s)
  | mutexLock m =>
    simp only [Vp.callOp, Vp.mutexLock]
    split_ifs
    · simp
    · exact census_ret _
    · simp
    · simp
  | mutexUnlock m =>
    simp only [Vp.callOp, Vp.mutexUnlock]
    split_ifs
    · simp
    · split
      · exact (census_ret _).trans (census_makeRunnable _)
      · exact census_ret _
  | mutexTrylock m =>
    simp only [Vp.callOp, Vp.mutexTrylock]
    split_ifs
    · simp
    · exact census_ret _
  | interrupt t =>
    simp only [Vp.callOp, Vp.threadInterrupt]
    split_ifs <;> simp [census_modify]
  | io k o n =>
    simp only [Vp.callOp, Vp.ioCall]
    split_ifs <;> simp <;> rfl

/-- `st_thread_exit`: a joinable thread stays until it was joined. -/
theorem census_threadExit (v : ℕ) : census (s.threadExit v) =
    if (s.thr s.current).term = false then (s.live.erase s.current, (census s).2) else census s := by
  have hm : census (s.modify s.current fun th => { th with retval := v }) = census s :=
    census_modify fun _ => rfl
  cases ht : (s.thr s.current).term with
  | true =>
    have he : census (s.threadExit v) = census ((die v s).condSignal (.term s.current) false).vpSchedule := by
      rw [← die_eq, Vp.threadExit]
      exact congrArg census (if_pos (by simpa [Vp.modify] using ht))
    rw [he, if_neg (by simp), census_vpSchedule, Vp.condSignal, census_condSignalLoop, ← die_eq]
    exact ((census_setCtx _).trans (census_setState _)).trans hm
  | false =>
    rw [if_pos rfl, Vp.threadExit]
    refine (congrArg census (if_neg (by simpa [Vp.modify] using ht))).trans ?_
    exact census_threadGone.trans (Prod.ext rfl (congrArg Prod.snd hm :))

theorem census_threadExitResume : census s.threadExitResume = (s.live.erase s.current, (census s).2) := by
  have hm : census (s.modify s.current fun th => { th with term := false }) = census s :=
    census_modify fun _ => rfl
  exact census_threadGone.trans (Prod.ext rfl (congrArg Prod.snd hm :))

/-- The rest of a call. -/
theorem census_resumeOp (hx : ∀ v, op ≠ .exit v) : census (s.resumeOp op) = census s := by
  cases op with
  | exit v => exact absurd rfl (hx v)
  | join t =>
    simp only [Vp.resumeOp, Vp.threadJoinResume]
    split <;> simp
  | usleep | mutexLock | io =>
    simp only [Vp.resumeOp, Vp.usleepResume, Vp.mutexLockResume, Vp.ioResume]
    split_ifs <;> simp
  | condTimedwait c y => exact (census_ret _).trans (census_leave _)
  | _ => rfl

/-- **A step** that creates no thread: the one that leaves ceases to exist, and the others stay. -/
theorem census_apply {a : Vp.Action} (he : Lives.Enabled s a) (hc : creates a = false) :
    census (Vp.apply s a) =
      if leaves s a then (s.live.erase s.current, (census s).2) else census s := by
  match a, he, hc with
  | .call op, he, hc =>
    by_cases hx : ∃ v, op = .exit v
    · obtain ⟨v, rfl⟩ := hx
      refine (census_threadExit v).trans ?_
      cases ht : (s.thr s.current).term <;> simp [leaves, ht, Vp.log] <;> rfl
    · have hl : leaves s (.call op) = false := by cases op <;> simp_all [leaves]
      rw [hl, if_neg (by simp)]
      refine (census_callOp (fun a j ha => ?_) fun v hv => hx ⟨v, hv⟩).trans (census_log _)
      subst ha
      simp [creates] at hc
  | .resume, he, _ =>
    obtain ⟨op, hop⟩ := he
    change census (Model.machine.apply s .resume) = _
    rw [apply_resume hop]
    by_cases hx : ∃ v, op = .exit v
    · obtain ⟨v, rfl⟩ := hx
      rw [if_pos (by simp [leaves, hop])]
      exact census_threadExitResume
    · rw [if_neg (by simpa [leaves, hop] using fun v hv => hx ⟨v, hv⟩)]
      exact census_resumeOp fun v hv => hx ⟨v, hv⟩
  | .idleWait b, _, _ => exact census_setCtx _
  | .idleDrain, _, _ =>
    change census s.idleDrain = _
    rw [Vp.idleDrain]
    split
    · exact census_setCtx _
    · exact census_wake _
  | .idleClock now, _, _ =>
    refine ((census_vpSchedule.trans (census_setCtx _)).trans (census_setState _)).trans ?_
    exact census_checkClockLoop _ _ _

theorem census_create (a : ThreadPtr) (j p : Bool) :
    census ((s.log (.called s.current (.create (some a) j) p)).callOp (.create (some a) j)) =
      (a :: s.live, update (census s).2 a false) := by
  refine (census_ret _).trans (Prod.ext rfl (funext fun x => ?_))
  rcases eq_or_ne x a with rfl | hne
  · simp [census, Vp.threadCreate, Vp.addRunQ, Vp.log, Vp.newThread]
  · simp [census, Vp.threadCreate, Vp.addRunQ, Vp.log, hne]

/-! ### Who owns which stack -/

/-- The free list is `l`, and of the threads that exist every one but the primordial has a stack, which
it is placed on and which is not free. -/
structure Pooled (l : List StackPtr) (s : Sys) : Prop where
  lives : Reach livesMachine s.vp
  free : Free s.pool l
  owns : ∀ t ∈ s.vp.live, (s.vp.thr t).primordial = false → ∃ ts ∈ s.pool.allocated,
    s.stack t = some ts ∧ (s.pool.stack ts).thread = t ∧ ts ∉ l
  prim : ∀ t ∈ s.vp.live, (s.vp.thr t).primordial = true →
    s.stack t = none ∧ ∀ ts ∈ s.pool.allocated, (s.pool.stack ts).thread ≠ t
  places : ∀ ts ∈ s.pool.allocated, ∀ ts' ∈ s.pool.allocated,
    (s.pool.stack ts).thread = (s.pool.stack ts').thread → ts = ts'

namespace Pooled

variable {y : Sys} {l : List StackPtr} {page n : ℤ} {j : Bool} {mem : Option Segment} {m : Segment}
  {ts : StackPtr} {p : Pool}

theorem nodup_live (h : Pooled l y) : y.vp.live.Nodup := List.nodup_iff_count.mpr fun t =>
  ((tidy_reach h.lives).1.placed t).alive

/-- The stacks of the threads that exist. -/
theorem stack_iff (h : Pooled l y) (ht : t ∈ y.vp.live) :
    y.stack t = some ts → ts ∈ y.pool.allocated ∧ (y.pool.stack ts).thread = t ∧ ts ∉ l := by
  intro hs
  cases hp : (y.vp.thr t).primordial with
  | true => simp [(h.prim t ht hp).1] at hs
  | false =>
    obtain ⟨ts', hm, hs', hth, hl⟩ := h.owns t ht hp
    obtain rfl : ts' = ts := Option.some.inj (hs'.symm.trans hs)
    exact ⟨hm, hth, hl⟩

/-- A step in which the threads stay the same, and so do the stacks. -/
theorem of_census (h : Pooled l y) {y' : Sys} (hr : Reach livesMachine y'.vp)
    (hc : census y'.vp = census y.vp) (hp : y'.pool = y.pool) (hs : y'.stack = y.stack) : Pooled l y' := by
  obtain ⟨hl, hpr⟩ := Prod.mk.inj hc
  have hpr : ∀ t, (y'.vp.thr t).primordial = (y.vp.thr t).primordial := congrFun hpr
  refine ⟨hr, hp ▸ h.free, fun t ht h0 => ?_, fun t ht h0 => ?_, hp ▸ h.places⟩
  · rw [hp, hs]
    exact h.owns t (hl ▸ ht) ((hpr t).symm.trans h0)
  · rw [hp, hs]
    exact h.prim t (hl ▸ ht) ((hpr t).symm.trans h0)

/-- The end of `st_thread_exit` puts the stack on the list; any other step leaves the stacks alone. -/
theorem other (h : Pooled l y) {a : Vp.Action} (he : livesMachine.enabled y.vp a) (hc : creates a = false) :
    ∃ l', Pooled l' (y.other a) := by
  have hr : Reach livesMachine (Vp.apply y.vp a) := .step h.lives he trivial
  have hcen := census_apply he hc
  cases hl : leaves y.vp a with
  | false =>
    rw [hl, if_neg (by simp)] at hcen
    exact ⟨l, h.of_census hr hcen (if_neg (by simp [hl])) rfl⟩
  | true =>
    rw [hl, if_pos rfl] at hcen
    obtain ⟨hlive, hpr⟩ := Prod.mk.inj hcen
    have hpr : ∀ t, ((Vp.apply y.vp a).thr t).primordial = (y.vp.thr t).primordial := congrFun hpr
    have hcur : y.vp.current ∈ y.vp.live := (tidy_reach h.lives).2.1.1
    have hlive : ∀ t, t ∈ (Vp.apply y.vp a).live → t ≠ y.vp.current ∧ t ∈ y.vp.live := fun t ht => by
      rw [hlive] at ht
      exact h.nodup_live.mem_erase_iff.mp ht
    cases hp : (y.vp.thr y.vp.current).primordial with
    | true =>
      have hpool : (y.other a).pool = y.pool := if_neg (by simp [hp])
      refine ⟨l, hr, hpool ▸ h.free, fun t ht h0 => ?_, fun t ht h0 => ?_, hpool ▸ h.places⟩
      · rw [hpool]
        exact h.owns t (hlive t ht).2 ((hpr t).symm.trans h0)
      · rw [hpool]
        exact h.prim t (hlive t ht).2 ((hpr t).symm.trans h0)
    | false =>
      obtain ⟨ts, hm, hs, hth, hts⟩ := h.owns _ hcur hp
      have hpool : (y.other a).pool = y.pool.stackFree (some ts) := by
        rw [← hs]
        exact if_pos ⟨hl, hp⟩
      obtain ⟨l', hfree, hperm⟩ := h.free.stackFree hts hm
      refine ⟨l', hr, hpool ▸ hfree, fun t ht h0 => ?_, fun t ht h0 => ?_, ?_⟩
      · rw [hpool]
        obtain ⟨ts', hm', hs', hth', hts'⟩ := h.owns t (hlive t ht).2 ((hpr t).symm.trans h0)
        refine ⟨ts', hm', hs', hth', fun hin => ?_⟩
        -- the freed stack is that of the thread that left
        rcases List.mem_cons.mp (hperm.mem_iff.mp hin) with rfl | hin
        · exact (hlive t ht).1 (hth'.symm.trans hth)
        · exact hts' hin
      · rw [hpool]
        exact h.prim t (hlive t ht).2 ((hpr t).symm.trans h0)
      · rw [hpool]
        exact h.places

/-- A stack at hand, off the list, and no thread is where it would place one. -/
structure Ready (l : List StackPtr) (y : Sys) (p : Pool) (ts : StackPtr) (l' : List StackPtr) : Prop where
  free : Free p l'
  made : ts ∈ p.allocated
  off : ts ∉ l'
  sub : ∀ x ∈ l', x ∈ l
  kept : ∀ x ∈ y.pool.allocated, x ∈ p.allocated ∧ p.stack x = y.pool.stack x
  only : ∀ x ∈ p.allocated, x = ts ∨ x ∈ y.pool.allocated
  vacant : (p.stack ts).thread ∉ y.vp.live
  places : ∀ ts ∈ p.allocated, ∀ ts' ∈ p.allocated, (p.stack ts).thread = (p.stack ts').thread → ts = ts'

/-- No thread that exists is placed on a stack of the list. -/
theorem ready_take {l₁ l₂ : List StackPtr} (h : Pooled (l₁ ++ ts :: l₂) y) :
    Ready (l₁ ++ ts :: l₂) y (y.pool.take ts) ts (l₁ ++ l₂) := by
  have hts : ts ∈ l₁ ++ ts :: l₂ := by simp
  obtain ⟨hfree, hoff⟩ := h.free.take
  refine ⟨hfree, h.free.made _ hts, hoff, fun x hx => ?_, fun x hx => ⟨hx, rfl⟩, fun x hx => .inr hx,
    fun hlive => ?_, h.places⟩
  · rcases List.mem_append.mp hx with hx | hx <;> simp [hx]
  · cases hp : (y.vp.thr (y.pool.stack ts).thread).primordial with
    | true => exact (h.prim _ hlive hp).2 ts (h.free.made _ hts) rfl
    | false =>
      obtain ⟨ts', hm, -, hth, hl⟩ := h.owns _ hlive hp
      obtain rfl := h.places _ hm _ (h.free.made _ hts) hth
      exact hl hts

theorem ready_make (h : Pooled l y) (hm : y.Fresh m) : Ready l y (y.pool.make n m) m.ts l := by
  obtain ⟨hnew, hplace, hothers⟩ := hm
  obtain ⟨hfree, hoff⟩ := h.free.make (n := n) hnew
  have hst : ∀ x ∈ y.pool.allocated, (y.pool.make n m).stack x = y.pool.stack x := fun x hx =>
    update_of_ne (fun he : x = m.ts => hnew (he ▸ hx)) _ _
  have hself : ((y.pool.make n m).stack m.ts).thread = m.thread := by simp [Pool.make]
  refine ⟨hfree, List.mem_cons_self, hoff, fun x hx => hx,
    fun x hx => ⟨List.mem_cons_of_mem _ hx, hst x hx⟩, fun x hx => List.mem_cons.mp hx,
    by rwa [hself], fun x hx x' hx' hxx => ?_⟩
  rcases List.mem_cons.mp hx with rfl | hx <;> rcases List.mem_cons.mp hx' with rfl | hx'
  · rfl
  · rw [hself, hst _ hx'] at hxx
    exact absurd hxx.symm (hothers _ hx')
  · rw [hself, hst _ hx] at hxx
    exact absurd hxx (hothers _ hx)
  · rw [hst _ hx, hst _ hx'] at hxx
    exact h.places _ hx _ hx' hxx

/-- **A thread is created** on the stack at hand. -/
theorem born (h : Pooled l y) {l' : List StackPtr} (hy : Ready l y p ts l')
    (hc : (y.vp.thr y.vp.current).ctx = .user) :
    Pooled l' { vp := Vp.apply y.vp (.call (.create (some (p.stack ts).thread) j)), pool := p,
                stack := update y.stack (p.stack ts).thread (some ts) } := by
  have he : livesMachine.enabled y.vp (.call (.create (some (p.stack ts).thread) j)) := ⟨hc, hy.vacant⟩
  obtain ⟨hlive, hpr⟩ := Prod.mk.inj (census_create (s := y.vp) (p.stack ts).thread j
    (y.vp.thr y.vp.current).interrupt)
  have hpr : ∀ t ≠ (p.stack ts).thread, ((Vp.apply y.vp (.call (.create (some (p.stack ts).thread) j))).thr
      t).primordial = (y.vp.thr t).primordial := fun t ht => (congrFun hpr t).trans (update_of_ne ht _ _)
  have hlive : ∀ t ≠ (p.stack ts).thread, t ∈ (Vp.apply y.vp (.call (.create (some (p.stack ts).thread)
      j))).live → t ∈ y.vp.live := fun t ht hm => by
    rw [show (Vp.apply y.vp (.call (.create (some (p.stack ts).thread) j))).live = _ from hlive] at hm
    exact (List.mem_cons.mp hm).resolve_left ht
  refine ⟨.step h.lives he trivial, hy.free, fun t ht h0 => ?_, fun t ht h0 => ?_, hy.places⟩
  · rcases eq_or_ne t (p.stack ts).thread with rfl | hne
    · exact ⟨ts, hy.made, update_self .., rfl, hy.off⟩
    · obtain ⟨ts', hm, hs, hth, hl⟩ := h.owns t (hlive t hne ht) ((hpr t hne).symm.trans h0)
      obtain ⟨hm', hst⟩ := hy.kept ts' hm
      exact ⟨ts', hm', (update_of_ne hne _ _).trans hs, hst ▸ hth, fun hin => hl (hy.sub _ hin)⟩
  · rcases eq_or_ne t (p.stack ts).thread with rfl | hne
    · have hnew : ((Vp.apply y.vp (.call (.create (some (p.stack ts).thread) j))).thr
          (p.stack ts).thread).primordial = false :=
        (congrFun (Prod.mk.inj (census_create (s := y.vp) (p.stack ts).thread j
          (y.vp.thr y.vp.current).interrupt)).2 _).trans (update_self ..)
      rw [hnew] at h0
      cases h0
    · obtain ⟨hs, hno⟩ := h.prim t (hlive t hne ht) ((hpr t hne).symm.trans h0)
      refine ⟨(update_of_ne hne _ _).trans hs, fun x hx => ?_⟩
      rcases hy.only x hx with rfl | hx
      · exact hne.symm
      · rw [(hy.kept x hx).2]
        exact hno x hx

/-- The termination condition cannot be made: the stack goes back. -/
theorem back (h : Pooled l y) {l' : List StackPtr} (hy : Ready l y p ts l')
    (hc : (y.vp.thr y.vp.current).ctx = .user) :
    ∃ l'', Pooled l'' { vp := Vp.apply y.vp (.call (.create none j)), pool := p.stackFree (some ts),
                        stack := update y.stack (p.stack ts).thread (some ts) } := by
  have he : livesMachine.enabled y.vp (.call (.create none j)) := ⟨hc, trivial⟩
  have hcen : census (Vp.apply y.vp (.call (.create none j))) = census y.vp := census_ret _
  obtain ⟨hlive, hpr⟩ := Prod.mk.inj hcen
  have hpr : ∀ t, ((Vp.apply y.vp (.call (.create none j))).thr t).primordial =
    (y.vp.thr t).primordial := congrFun hpr
  obtain ⟨l'', hfree, hperm⟩ := hy.free.stackFree hy.off hy.made
  refine ⟨l'', .step h.lives he trivial, hfree, fun t ht h0 => ?_, fun t ht h0 => ?_, hy.places⟩
  · replace ht : t ∈ y.vp.live := hlive ▸ ht
    have hne : t ≠ (p.stack ts).thread := fun hx => hy.vacant (hx ▸ ht)
    obtain ⟨ts', hm, hs, hth, hl⟩ := h.owns t ht ((hpr t).symm.trans h0)
    obtain ⟨hm', hst⟩ := hy.kept ts' hm
    refine ⟨ts', hm', (update_of_ne hne _ _).trans hs, hst ▸ hth, fun hin => ?_⟩
    rcases List.mem_cons.mp (hperm.mem_iff.mp hin) with rfl | hin
    · exact hne (hst ▸ hth).symm
    · exact hl (hy.sub _ hin)
  · replace ht : t ∈ y.vp.live := hlive ▸ ht
    have hne : t ≠ (p.stack ts).thread := fun hx => hy.vacant (hx ▸ ht)
    obtain ⟨hs, hno⟩ := h.prim t ht ((hpr t).symm.trans h0)
    refine ⟨(update_of_ne hne _ _).trans hs, fun x hx => ?_⟩
    rcases hy.only x hx with rfl | hx
    · exact hne.symm
    · exact (hy.kept x hx).2 ▸ hno x hx

theorem create (h : Pooled l y) {term : Bool} (hc : (y.vp.thr y.vp.current).ctx = .user)
    (hm : ∀ m ∈ mem, y.Fresh m) : ∃ l', Pooled l' (y.threadCreate page n j term mem) := by
  have hready : ∀ {p ts l'}, Ready l y p ts l' → y.pool.stackNew (stackSize page n) mem = some (some ts, p) →
      ∃ l', Pooled l' (y.threadCreate page n j term mem) := by
    intro p ts l' hy hnew
    simp only [Sys.threadCreate, hnew]
    split_ifs
    · rw [update_self]
      exact h.back hy hc
    · exact ⟨l', h.born hy hc⟩
  rcases h.free.stackNew (n := stackSize page n) mem with ⟨l₁, ts, l₂, rfl, -, hnew⟩ | ⟨-, hnew⟩
  · exact hready h.ready_take hnew
  · cases mem with
    | some m => exact hready (h.ready_make (hm m rfl)) hnew
    | none =>
      simp only [Sys.threadCreate, hnew]
      have he : livesMachine.enabled y.vp (.call (.create none j)) := ⟨hc, trivial⟩
      exact ⟨l, h.of_census (.step h.lives he trivial) (census_ret _) rfl rfl⟩

theorem init {prim : ThreadPtr} {now : UTime} (hne : m.thread ≠ prim) :
    Pooled [] (Sys.stInit page m prim now) := by
  have hlive : (Vp.stInit m.thread prim now).live = [prim, m.thread] := rfl
  have halloc : (Sys.stInit page m prim now).pool.allocated = [m.ts] := rfl
  have hth : ((Sys.stInit page m prim now).pool.stack m.ts).thread = m.thread := by
    simp [Sys.stInit, Pool.make]
  refine ⟨.init ⟨m.thread, prim, now, hne, rfl⟩, (free_init.make (by simp [Pool.init])).1, fun t ht h0 => ?_,
    fun t ht h0 => ?_, fun ts hts ts' hts' _ => ?_⟩
  · rcases List.mem_pair.mp (hlive ▸ ht) with rfl | rfl
    · rw [show ((Sys.stInit page m t now).vp.thr t) = _ from thr_stInit_prim] at h0
      cases h0
    · exact ⟨m.ts, by simp [halloc], by simp [Sys.stInit], hth, by simp⟩
  · rcases List.mem_pair.mp (hlive ▸ ht) with rfl | rfl
    · refine ⟨by simp [Sys.stInit, hne.symm], fun ts hts => ?_⟩
      obtain rfl : ts = m.ts := List.mem_singleton.mp (halloc ▸ hts)
      exact hth ▸ hne
    · rw [show ((Sys.stInit page m prim now).vp.thr m.thread) = _ from thr_stInit_idle hne] at h0
      cases h0
  · rw [halloc] at hts hts'
    exact (List.mem_singleton.mp hts).trans (List.mem_singleton.mp hts').symm

end Pooled

/-! ### Runs -/

/-- In every run the stacks have their owners. -/
theorem pooled_reach {page : ℤ} {y : Sys} (h : Reach (machine page) y) : ∃ l, Pooled l y := by
  refine h.invariant (I := fun y => ∃ l, Pooled l y) ?_ ?_
  · rintro _ ⟨m, prim, now, hne, rfl⟩
    exact ⟨[], .init hne⟩
  · rintro y a ⟨l, hl⟩ he -
    cases a with
    | create n j term mem => exact hl.create he.1 he.2
    | other a => exact hl.other he.1 he.2

/-- What `_st_stack_new(n)` does on the free list `l`: it returns `r` and leaves the list `l'`. A stack of
the list that is big enough is handed out if there is one; otherwise a new one is made, if there is memory
for it. The stack is nobody's, and off the list. -/
structure Hands (y : Sys) (l : List StackPtr) (n : ℤ) (mem : Option Segment) (r : Option StackPtr)
    (p : Pool) (l' : List StackPtr) : Prop where
  free : Free p l'
  fits : ∀ ts, r = some ts → n ≤ (p.stack ts).stkSize ∧ ts ∉ l' ∧ ∀ t ∈ y.vp.live, y.stack t ≠ some ts
  reused : ∀ ts ∈ l, n ≤ (y.pool.stack ts).stkSize →
    ∃ ts' ∈ l, r = some ts' ∧ l.Perm (ts' :: l') ∧ p.allocated = y.pool.allocated
  made : (∀ ts ∈ l, (y.pool.stack ts).stkSize < n) → r = mem.map Segment.ts ∧ l' = l ∧
    p.allocated = r.toList ++ y.pool.allocated

/-- **The stack pool**: in every run, with whatever threads are created, fail to be created, exit and are
joined,

* the free list is a circular list without repeats, and `_st_num_free_stacks` is its length;
* the stack of a thread that exists is not on it, and belongs to that thread only; every thread but the
  primordial one has a stack;
* `_st_stack_new` comes to an end, and hands out a stack of the list that is big enough, or a new one if
  there is none; it returns `NULL` if there is no memory for that. -/
theorem stack_pool {page : ℤ} {y : Sys} (h : Reach (machine page) y) :
    ∃ l, Free y.pool l ∧
      (∀ t ∈ y.vp.live, ∀ ts, y.stack t = some ts → ts ∉ l) ∧
      (∀ t ∈ y.vp.live, (y.vp.thr t).primordial = false → ∃ ts, y.stack t = some ts) ∧
      (∀ t ∈ y.vp.live, ∀ u ∈ y.vp.live, ∀ ts, y.stack t = some ts → y.stack u = some ts → t = u) ∧
      ∀ n mem, (∀ m ∈ mem, y.Fresh m) → ∃ r p l', y.pool.stackNew n mem = some (r, p) ∧
        Hands y l n mem r p l' := by
  obtain ⟨l, hl⟩ := pooled_reach h
  refine ⟨l, hl.free, fun t ht ts hs => (hl.stack_iff ht hs).2.2, fun t ht hp => ?_,
    fun t ht u hu ts hs hs' => ?_, fun n mem hm => ?_⟩
  · obtain ⟨ts, -, hs, -⟩ := hl.owns t ht hp
    exact ⟨ts, hs⟩
  · exact (hl.stack_iff ht hs).2.1.symm.trans (hl.stack_iff hu hs').2.1
  -- a stack at hand belongs to no thread, since the thread on it does not exist
  have hnobody : ∀ {p ts l'}, Pooled.Ready l y p ts l' → ∀ t ∈ y.vp.live, y.stack t ≠ some ts := by
    intro p ts l' hy t ht hs
    obtain ⟨hm, hth, -⟩ := hl.stack_iff ht hs
    exact hy.vacant (((hy.kept ts hm).2 ▸ hth) ▸ ht)
  rcases hl.free.stackNew (n := n) mem with ⟨l₁, ts, l₂, rfl, hn, hnew⟩ | ⟨hsmall, hnew⟩
  · have hy := hl.ready_take
    have hts : ts ∈ l₁ ++ ts :: l₂ := List.mem_append_right _ List.mem_cons_self
    refine ⟨_, _, _, hnew, hy.free, ?_, fun _ _ _ => ⟨ts, hts, rfl, List.perm_middle, rfl⟩, fun hall => ?_⟩
    · rintro _ ⟨⟩
      exact ⟨hn, hy.off, hnobody hy⟩
    · exact absurd hn (not_le.mpr (hall ts hts))
  · have hnone (ts : StackPtr) (hts : ts ∈ l) (hn : n ≤ (y.pool.stack ts).stkSize) : False :=
      absurd hn (not_le.mpr (hsmall ts hts))
    cases mem with
    | some m =>
      have hy := hl.ready_make (n := n) (hm m rfl)
      refine ⟨_, _, _, hnew, hy.free, ?_, fun ts hts hn => (hnone ts hts hn).elim, fun _ => ⟨rfl, rfl, rfl⟩⟩
      rintro _ ⟨⟩
      exact ⟨by simp [Pool.make], hy.off, hnobody hy⟩
    | none =>
      refine ⟨_, _, _, hnew, hl.free, ?_, fun ts hts hn => (hnone ts hts hn).elim, fun _ => ⟨rfl, rfl, rfl⟩⟩
      rintro _ ⟨⟩

/-- The stack `1` is that of the idle thread. The threads `11` and `12` get the stacks `2` and `3` and
finish; the stack `4` goes back since the termination condition could not be made, and a thread that
needs more than the three of them have gets the stack `5`. The last thread gets a stack of the list, though
there is no memory left. -/
def poolRun : List Action :=
  [.create 0 false true (some ⟨2, 11⟩), .create 0 false true (some ⟨3, 12⟩),
    .create 70000 true false (some ⟨4, 13⟩), .other (.call (.usleep 5)), .other (.call (.exit 0)),
    .other (.call (.exit 0)), .other (.idleWait false), .other (.idleClock 5), .other .resume,
    .create 80000 false true (some ⟨5, 14⟩), .create 0 false true none]

/-- Of a list of three, the second and the third were freed before the last element, and the first is the
one that is handed out again. A stack bigger than the two left is not to be had. -/
theorem poolRun_pool : ∃ y, Reach (machine 4096) y ∧ y.pool.numFree = 2 ∧ y.stack 11 = some 2 ∧
    y.vp.live = [11, 14, 10, 9] ∧ ∃ l r p l', Free y.pool l ∧ y.pool.stackNew 90000 none = some (r, p) ∧
      Hands y l 90000 none r p l' ∧ r = none := by
  have hinit : (machine 4096).init (Sys.stInit 4096 ⟨1, 9⟩ 10 0) := ⟨⟨1, 9⟩, 10, 0, by decide, rfl⟩
  obtain ⟨y, hy⟩ : ∃ y, y = poolRun.foldl (machine 4096).apply (Sys.stInit 4096 ⟨1, 9⟩ 10 0) := ⟨_, rfl⟩
  have hr : Reach (machine 4096) y := hy ▸ (ReachVia.init hinit).foldl poolRun (by decide +kernel)
  obtain ⟨l, hfree, -, -, -, hnew⟩ := stack_pool hr
  obtain ⟨r, p, l', hp, hh⟩ := hnew 90000 none (fun m hm => by cases hm)
  have hnone : (y.pool.stackNew 90000 none).map Prod.fst = some none := by
    rw [hy]; decide +kernel
  refine ⟨y, hr, ?_, ?_, ?_, l, r, p, l', hfree, hp, hh, ?_⟩
  · rw [hy]; decide +kernel
  · rw [hy]; decide +kernel
  · rw [hy]; decide +kernel
  · rw [hp] at hnone
    exact Option.some.inj hnone

end StNvs.Sched.Stacks
