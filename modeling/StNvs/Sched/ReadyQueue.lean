import StNvs.Lib.Runs
import StNvs.Sched.Sleep

/-! # The ready queue and its event

The producers, `_st_iocp_thread_pool` and the threads `db_server`, enqueue a thread and then set
`_st_notify_event`; `_st_vp_idle` waits for the event for a second, drains the queue if it was signalled,
and resets the event in either case. The event is set until it is reset.

* `not_stranded_of_announced`: as long as no producer sets the event too late, between the last look at
  the queue and the reset, no thread is left in the queue while the idle thread waits.
* `stranded_of_late`: one that does leaves its thread there.
* `readyQueue_stranded`: a run in which that happens. -/

namespace StNvs.Sched.ReadyQueue

open StNvs.Lib.Runs StNvs.Sched.Sleep

/-- Where the idle thread is in `_st_vp_idle`; `away` while it checks the clock and others run. -/
inductive IdlePc
  | wait | drain | reset | away
  deriving DecidableEq, Repr

/-- The ready queue, `_st_notify_event`, the producers that have enqueued a thread and not set the event
yet, the idle thread, and the threads it has put on the run queue. -/
structure Sys where
  queue : List ThreadPtr
  event : Bool
  between : List ℕ
  pc : IdlePc
  runQ : List ThreadPtr
  deriving DecidableEq, Repr

/-- The steps of producer `p`, and those of the idle thread. -/
inductive Step
  | enqueue (p : ℕ) (t : ThreadPtr)
  | setEvent (p : ℕ)
  | signalled
  | timedOut
  | dequeue
  | resetEvent
  | back
  deriving DecidableEq, Repr

namespace Sys

def Enabled (s : Sys) : Step → Prop
  | .enqueue p _ => p ∉ s.between
  | .setEvent p => p ∈ s.between
  | .signalled => s.pc = .wait ∧ s.event = true
  | .timedOut => s.pc = .wait ∧ s.event = false
  | .dequeue => s.pc = .drain
  | .resetEvent => s.pc = .reset
  | .back => s.pc = .away

instance decidableEnabled (s : Sys) : ∀ a, Decidable (s.Enabled a)
  | .enqueue _ _ => inferInstanceAs (Decidable (_ ∉ s.between))
  | .setEvent _ => inferInstanceAs (Decidable (_ ∈ s.between))
  | .signalled | .timedOut => inferInstanceAs (Decidable (_ ∧ _))
  | .dequeue | .resetEvent | .back => inferInstanceAs (Decidable (_ = _))

/-- One round of the drain loop. -/
def dequeue (s : Sys) : Sys :=
  match s.queue with
  | [] => { s with pc := .reset }
  | t :: q => { s with queue := q, runQ := s.runQ ++ [t] }

/-- The idle thread runs again when the run queue is empty. -/
def apply (s : Sys) : Step → Sys
  | .enqueue p t => { s with queue := s.queue ++ [t], between := p :: s.between }
  | .setEvent p => { s with event := true, between := s.between.erase p }
  | .signalled => { s with pc := .drain }
  | .timedOut => { s with pc := .reset }
  | .dequeue => s.dequeue
  | .resetEvent => { s with event := false, pc := .away }
  | .back => { s with pc := .wait, runQ := [] }

/-- After `st_init`. -/
def start : Sys := ⟨[], false, [], .wait, []⟩

end Sys

def machine : Machine Sys Step where
  init s := s = Sys.start
  enabled := Sys.Enabled
  apply := Sys.apply

instance decidableMachine : ∀ s a, Decidable (machine.enabled s a) := Sys.decidableEnabled

/-- The idle thread waits, nobody is going to wake it, and yet the queue is not empty. -/
structure Stranded (s : Sys) : Prop where
  waits : s.pc = .wait
  event : s.event = false
  between : s.between = []
  queue : s.queue ≠ []

/-- No event is set when the idle thread has had its last look at the queue and is about to reset, unless
the queue is empty or another producer is yet to set the event. -/
def Announced (s : Sys) : Step → Prop
  | .setEvent p => s.pc = .reset → s.queue = [] ∨ s.between.erase p ≠ []
  | _ => True

/-! ### When nothing is set too late -/

/-- What is in the queue is going to be seen. -/
structure Heard (s : Sys) : Prop where
  awake : s.pc = .wait ∨ s.pc = .away → s.queue ≠ [] → s.event = true ∨ s.between ≠ []
  reset : s.pc = .reset → s.queue ≠ [] → s.between ≠ []

theorem heard_step {s : Sys} {a : Step} (h : Heard s) (he : s.Enabled a) (hok : Announced s a) :
    Heard (s.apply a) := by
  cases a with
  | enqueue p t => exact ⟨fun _ _ => .inr (List.cons_ne_nil _ _), fun _ _ => List.cons_ne_nil _ _⟩
  | setEvent p => exact ⟨fun _ _ => .inl rfl, fun hp hq => (hok hp).resolve_left hq⟩
  | signalled => constructor <;> simp [Sys.apply]
  | timedOut =>
    -- the event is clear, so whoever has put something in the queue has yet to set it
    refine ⟨by simp [Sys.apply], fun _ hq => ?_⟩
    exact (h.awake (.inl he.1) hq).resolve_left (by simp [he.2])
  | dequeue =>
    have hp : s.pc = .drain := he
    change Heard s.dequeue
    unfold Sys.dequeue
    split <;> rename_i hq
    · exact ⟨by simp, fun _ hne => absurd hq hne⟩
    · constructor <;> simp [hp]
  | resetEvent => exact ⟨fun _ hq => .inr (h.reset he hq), by simp [Sys.apply]⟩
  | back => exact ⟨fun _ hq => h.awake (.inr he) hq, by simp [Sys.apply]⟩

theorem heard_reach {s : Sys} (h : ReachVia machine Announced s) : Heard s := by
  refine h.invariant ?_ fun s a hs he hok => heard_step hs he hok
  rintro s rfl
  constructor <;> simp [Sys.start]

/-- An event that is set too late is lost: the next two steps of the idle thread leave the queue as it is,
and it waits. -/
theorem stranded_of_late {s : Sys} {p : ℕ} (he : s.Enabled (.setEvent p))
    (hlate : ¬ Announced s (.setEvent p)) :
    Enables machine (fun _ _ => True) s [.setEvent p, .resetEvent, .back] ∧
      Stranded ([Step.setEvent p, .resetEvent, .back].foldl machine.apply s) := by
  obtain ⟨hp, hq⟩ := Classical.not_imp.mp hlate
  obtain ⟨hq, hb⟩ := not_or.mp hq
  exact ⟨⟨⟨he, trivial⟩, ⟨hp, trivial⟩, ⟨rfl, trivial⟩, trivial⟩, rfl, rfl, not_not.mp hb, hq⟩

/-- **No thread is stranded** in the ready queue, in a run in which no event is set too late; and one that
is set too late strands the threads in it. -/
theorem not_stranded_of_announced (s : Sys) :
    (ReachVia machine Announced s → ¬ Stranded s) ∧
      ∀ p, Reach machine s → machine.enabled s (.setEvent p) → ¬ Announced s (.setEvent p) →
        Reach machine ([Step.setEvent p, .resetEvent, .back].foldl machine.apply s) ∧
          Stranded ([Step.setEvent p, .resetEvent, .back].foldl machine.apply s) := by
  refine ⟨fun h hs => ?_, fun p h he hlate => ?_⟩
  · rcases (heard_reach h).awake (.inl hs.waits) hs.queue with hx | hx
    · simp [hs.event] at hx
    · exact hx hs.between
  · obtain ⟨hen, hst⟩ := stranded_of_late he hlate
    exact ⟨h.foldl _ hen, hst⟩

instance decidableAnnounced (s : Sys) : ∀ a, Decidable (Announced s a)
  | .setEvent _ => inferInstanceAs (Decidable (_ → _))
  | .enqueue _ _ | .signalled | .timedOut | .dequeue | .resetEvent | .back => .isTrue trivial

/-- Two producers; the second sets the event while the idle thread drains the queue. -/
def drainRun : List Step :=
  [.enqueue 0 7, .setEvent 0, .signalled, .enqueue 1 8, .dequeue, .setEvent 1, .dequeue, .dequeue,
    .resetEvent, .back]

theorem drainRun_heard : ¬ Stranded (drainRun.foldl machine.apply Sys.start) :=
  (not_stranded_of_announced _).1 ((ReachVia.init rfl).foldl drainRun (by decide +kernel))

/-- The wait times out, and a thread is put in the queue before the event is reset. -/
def lateRun : List Step := [.timedOut, .enqueue 0 7, .setEvent 0, .resetEvent, .back]

theorem readyQueue_stranded : ¬ ∀ s, Reach machine s → ¬ Stranded s := by
  intro hall
  have hr : Reach machine (lateRun.foldl machine.apply Sys.start) :=
    (ReachVia.init rfl).foldl lateRun (by decide +kernel)
  exact hall _ hr ⟨by decide, by decide, by decide, by decide⟩

end StNvs.Sched.ReadyQueue
