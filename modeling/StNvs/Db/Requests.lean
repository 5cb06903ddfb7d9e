import StNvs.Db.Server

/-! # The requests and the worker's event

`db_server` takes one request for each time it finds its event set, and `SetEvent` on an event that is
set already does nothing. So the queue holds one request for each caller that has not set the event yet,
one if the event is set, one if the worker is about to take it, and one for each notification that found
the event set (`length_queue`); the last are never served.

* `requests_served`: a run leaves no request behind if and only if no notification in it found the event
  set.
* `requests_left`: a run that leaves one behind. -/

namespace StNvs.Db.Requests

open StNvs.Lib.Runs StNvs.Sched.Sleep StNvs.Db.Server Function

/-- The requests put in the queue so far, last first. -/
def posted : List Event → List Request
  | [] => []
  | .posted r :: l => r :: posted l
  | .called _ :: l | .notified _ _ :: l | .executed _ _ :: l | .returned _ _ _ _ :: l => posted l

/-- The requests the worker has finished, last first. -/
def finished : List Event → List Request
  | [] => []
  | .executed r _ :: l => r :: finished l
  | .called _ :: l | .posted _ :: l | .notified _ _ :: l | .returned _ _ _ _ :: l => finished l

/-- The notifications that found the event set. -/
def lost : List Event → ℕ
  | [] => 0
  | .notified _ true :: l => lost l + 1
  | .notified _ false :: l | .called _ :: l | .posted _ :: l | .executed _ _ :: l
  | .returned _ _ _ _ :: l => lost l

/-- The request the worker is working on. -/
def inService : Worker → List Request
  | .serve r _ _ => [r]
  | .wait | .reset | .dequeue => []

/-- The requests the worker is about to take. -/
def due : Worker → ℕ
  | .dequeue => 1
  | .wait | .reset | .serve _ _ _ => 0

/-- The worker waits, and nobody is going to wake it. -/
structure Quiet (s : Sys) : Prop where
  worker : s.worker = .wait
  event : s.event = false
  between : s.between = []

/-- No request is left behind. -/
structure Served (s : Sys) : Prop where
  queue : s.queue = []
  all : finished s.trace = posted s.trace

/-- No request is notified while the event is still set. -/
def Fresh (s : Sys) : Step → Prop
  | .notify _ => s.event = false
  | _ => True

/-- The books of the queue. -/
structure Counted (s : Sys) : Prop where
  length : s.queue.length = s.between.length + s.event.toNat + due s.worker + lost s.trace
  reset : s.worker = .reset → s.event = true
  order : posted s.trace = s.queue.reverse ++ (inService s.worker ++ finished s.trace)

variable {s : Sys} {r : Request} {o : Outcome}

theorem counted_dequeue (h : Counted s) (hw : s.worker = .dequeue) : Counted (s.dequeue o) := by
  have hlen := h.length
  have hord := h.order
  rw [hw] at hlen hord
  cases hq : s.queue with
  | nil =>
    -- the event that woke the worker stands for a request
    simp only [hq, List.length_nil, due] at hlen
    omega
  | cons r q =>
    have he : s.dequeue o = { s with queue := q, worker := .serve r o o.writes } := by
      simp only [Sys.dequeue, hq]
    rw [he]
    refine ⟨?_, by simp, by simp [hord, hq, inService]⟩
    simp only [hq, List.length_cons, due] at hlen ⊢
    omega

theorem counted_store (h : Counted s) {w : Write} {todo : List Write} (hw : inService s.worker = [r])
    (hd : due s.worker = 0) : Counted { s.store w with worker := .serve r o todo } := by
  have hlen := h.length
  have hord := h.order
  rw [hd] at hlen
  rw [hw] at hord
  cases w <;> exact ⟨hlen, by simp, hord⟩

theorem counted_step {a : Step} (h : Counted s) (he : s.Enabled a) : Counted (s.apply a) := by
  have hlen := h.length
  have hord := h.order
  cases a with
  | call | ret | block | resume => exact ⟨hlen, h.reset, hord⟩
  | collect r =>
    change Counted (s.collect r)
    unfold Sys.collect
    split_ifs <;> exact ⟨hlen, h.reset, hord⟩
  | enqueue r =>
    refine ⟨?_, h.reset, ?_⟩
    · simp only [Sys.apply, lost, List.length_append, List.length_cons, List.length_nil, Sys.setCaller]
      omega
    · simp [Sys.apply, posted, finished, hord, Sys.setCaller]
  | notify t =>
    have hb := List.length_erase_of_mem he
    have hpos := List.length_pos_of_mem he
    refine ⟨?_, fun _ => rfl, hord⟩
    cases hx : s.event <;> simp only [Sys.apply, lost, hx, hb, Bool.toNat_true, Bool.toNat_false] at hlen ⊢ <;>
      omega
  | wait =>
    obtain ⟨hw, hx⟩ := he
    rw [hw] at hlen hord
    exact ⟨hlen, fun _ => hx, hord⟩
  | reset =>
    have hw : s.worker = .reset := he
    rw [hw, h.reset hw] at hlen
    rw [hw] at hord
    exact ⟨hlen, by simp [Sys.apply], hord⟩
  | dequeue o => exact counted_dequeue h he.1
  | write =>
    obtain ⟨r, o, w, todo, hw⟩ := he
    have hs : s.apply .write = { s.store w with worker := .serve r o todo } := by
      simp only [Sys.apply, Sys.write, hw]
    rw [hs]
    exact counted_store h (by rw [hw]; rfl) (by rw [hw]; rfl)
  | reply =>
    obtain ⟨r, o, hw⟩ := he
    have hs : s.apply .reply = { s with
        worker := .wait, ready := s.ready ++ [r.thread], trace := .executed r o :: s.trace } := by
      simp only [Sys.apply, Sys.reply, hw]
    rw [hw] at hlen hord
    rw [hs]
    exact ⟨hlen, by simp, hord⟩

/-- **The books** are right in every state. -/
theorem counted_reach (h : Reach machine s) : Counted s := by
  refine h.invariant (I := Counted) ?_ ?_
  · rintro s rfl
    exact ⟨rfl, by simp [Sys.start], rfl⟩
  · rintro s a hs ⟨-, he⟩ -
    exact counted_step hs he

/-- When the worker waits and nobody is going to wake it, the requests left are those whose notification
was lost. -/
theorem length_queue (h : Reach machine s) (hq : Quiet s) : s.queue.length = lost s.trace := by
  have hlen := (counted_reach h).length
  simpa [hq.worker, hq.event, hq.between, due] using hlen

theorem served_iff (h : Reach machine s) (hq : Quiet s) : Served s ↔ lost s.trace = 0 := by
  rw [← length_queue h hq, List.length_eq_zero_iff]
  refine ⟨Served.queue, fun hn => ⟨hn, ?_⟩⟩
  have hord := (counted_reach h).order
  simpa [hn, hq.worker, inService] using hord.symm

theorem lost_pos : ∀ {l : List Event}, lost l ≠ 0 ↔ ∃ t, Event.notified t true ∈ l
  | [] => by simp [lost]
  | .notified t true :: l => by simp only [lost]; exact ⟨fun _ => ⟨t, by simp⟩, fun _ => by simp⟩
  | .notified t false :: l => by simpa [lost] using lost_pos (l := l)
  | .called _ :: l | .posted _ :: l | .executed _ _ :: l | .returned _ _ _ _ :: l => by
    simpa [lost] using lost_pos (l := l)

/-- In a run in which every notification finds the event clear, none is lost. -/
theorem lost_of_fresh (h : ReachVia machine Fresh s) : lost s.trace = 0 := by
  refine h.invariant (I := fun s => lost s.trace = 0) ?_ ?_
  · rintro s rfl
    rfl
  · intro s a hs he hf
    cases a with
    | notify t =>
      have hx : s.event = false := hf
      simp [machine, Sys.apply, lost, hx, hs]
    | collect r =>
      change lost (s.collect r).trace = 0
      unfold Sys.collect
      split_ifs <;> exact hs
    | dequeue o =>
      change lost (s.dequeue o).trace = 0
      unfold Sys.dequeue
      split <;> exact hs
    | write =>
      obtain ⟨-, r, o, w, todo, hw⟩ := he
      change lost s.write.trace = 0
      simp only [Sys.write, hw]
      cases w <;> exact hs
    | reply =>
      obtain ⟨-, r, o, hw⟩ := he
      change lost s.reply.trace = 0
      simpa only [Sys.reply, hw, lost] using hs
    | _ => exact hs

/-- **Every request is served** in a run in which no request is notified while the event is still set;
and once one is, the queue is not empty in any later state in which the worker waits for good. -/
theorem requests_served (s : Sys) (hq : Quiet s) :
    (ReachVia machine Fresh s → Served s) ∧
      (Reach machine s → (∃ t, Event.notified t true ∈ s.trace) → ¬ Served s) :=
  ⟨fun h => (served_iff h.reach hq).mpr (lost_of_fresh h),
    fun h hn hs => lost_pos.mpr hn ((served_iff h hq).mp hs)⟩

instance decidableFresh (s : Sys) : ∀ a, Decidable (Fresh s a)
  | .notify _ => inferInstanceAs (Decidable (s.event = false))
  | .call _ | .enqueue _ | .block _ | .resume _ | .collect _ | .ret _ _ _ | .wait | .reset
  | .dequeue _ | .write | .reply => .isTrue trivial

/-- The call that puts `r` in the queue and waits. -/
def post (r : Request) : List Step := [.call r, .enqueue r, .notify r.thread, .block r]

/-- The worker's round for a statement that succeeds. -/
def round (o : Outcome) : List Step := [.wait, .reset, .dequeue o, .write, .reply]

/-- Thread `4` posts a request while the worker works on that of thread `3`. -/
def freshRun : List Step :=
  post ⟨3, .exec, "a"⟩ ++ [.wait, .reset, .dequeue .executed] ++ post ⟨4, .exec, "b"⟩ ++
    [.write, .reply] ++ round .executed

theorem freshRun_served : Served (freshRun.foldl machine.apply Sys.start) :=
  (requests_served _ ⟨by decide +kernel, by decide +kernel, by decide +kernel⟩).1
    ((ReachVia.init rfl).foldl freshRun (by decide +kernel))

/-- Both post a request before the worker has reset the event. -/
def coalescedRun : List Step :=
  post ⟨3, .exec, "a"⟩ ++ post ⟨4, .exec, "b"⟩ ++ round .executed

theorem requests_left : ¬ ∀ s, Reach machine s → Quiet s → Served s := by
  intro hall
  have hr : Reach machine (coalescedRun.foldl machine.apply Sys.start) :=
    (ReachVia.init rfl).foldl coalescedRun (by decide +kernel)
  have hs := hall _ hr ⟨by decide +kernel, by decide +kernel, by decide +kernel⟩
  have hq : (coalescedRun.foldl machine.apply Sys.start).queue = [⟨4, .exec, "b"⟩] := by decide +kernel
  simp [hs.queue] at hq

end StNvs.Db.Requests
