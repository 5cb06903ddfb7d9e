import StNvs.Lib.History
import StNvs.Lib.Refinement
import Mathlib.Data.List.Basic
import Mathlib.Logic.Function.Basic

/-! # A queue whose calls take effect at once

Any number of producers put things into the queue, and one consumer gets them out again, in order. A call
begins, takes effect at some moment, all at once, and returns. What can be seen is when calls begin and
return, and with what; a queue that refines this one is *linearizable*.

* `answers_justified`: the consumer is told that the queue is empty only if it has been given all that was
  put into the queue by calls that had returned before it asked. -/

namespace StNvs.Lib.AtomicQueue

open StNvs.Lib.Runs StNvs.Lib.Refinement StNvs.Lib.History Function

variable {ι α : Type}

/-- Where a producer is: outside a call, inside one that has not taken effect, or after that. -/
inductive Put (α : Type)
  | idle
  | called (a : α)
  | done (a : α)

/-- The same for the consumer; `done none` when it has found the queue empty. -/
inductive Get (α : Type)
  | idle
  | called
  | done (r : Option α)

structure Queue (ι α : Type) where
  items : List α
  put : ι → Put α
  get : Get α

inductive Action (ι α : Type)
  | call (p : ι) (a : α)
  | put (p : ι)
  | ret (p : ι)
  | ask
  | get
  | answer

/-- What can be seen. -/
inductive Event (ι α : Type)
  | called (p : ι) (a : α)
  | returned (p : ι) (a : α)
  | asked
  | answered (r : Option α)
  deriving DecidableEq, Repr

namespace Queue

def Enabled (q : Queue ι α) : Action ι α → Prop
  | .call p _ => q.put p = .idle
  | .put p => ∃ a, q.put p = .called a
  | .ret p => ∃ a, q.put p = .done a
  | .ask => q.get = .idle
  | .get => q.get = .called
  | .answer => ∃ r, q.get = .done r

variable [DecidableEq ι]

def setPut (p : ι) (x : Put α) (q : Queue ι α) : Queue ι α := { q with put := update q.put p x }

/-- The call of `p` takes effect. -/
def takePut (p : ι) (q : Queue ι α) : Queue ι α :=
  match q.put p with
  | .called a => { q.setPut p (.done a) with items := q.items ++ [a] }
  | _ => q

/-- The call of the consumer takes effect. -/
def takeGet (q : Queue ι α) : Queue ι α :=
  match q.items with
  | [] => { q with get := .done none }
  | a :: l => { q with items := l, get := .done (some a) }

def apply (q : Queue ι α) : Action ι α → Queue ι α
  | .call p a => q.setPut p (.called a)
  | .put p => q.takePut p
  | .ret p => q.setPut p .idle
  | .ask => { q with get := .called }
  | .get => q.takeGet
  | .answer => { q with get := .idle }

end Queue

def queue [DecidableEq ι] : Machine (Queue ι α) (Action ι α) where
  init q := q = ⟨[], fun _ => .idle, .idle⟩
  enabled := Queue.Enabled
  apply := Queue.apply

/-- Calls and returns are seen, but not when a call takes effect. -/
def seen (q : Queue ι α) : Action ι α → Option (Event ι α)
  | .call p a => some (.called p a)
  | .ret p =>
    match q.put p with
    | .done a => some (.returned p a)
    | _ => none
  | .ask => some .asked
  | .answer =>
    match q.get with
    | .done r => some (.answered r)
    | _ => none
  | .put _ | .get => none

/-! ### What the histories say -/

/-- What was put into the queue by the calls that have returned. -/
def returned : List (Event ι α) → List (ι × α)
  | [] => []
  | .returned p a :: l => (p, a) :: returned l
  | _ :: l => returned l

/-- What the consumer was given. -/
def answered : List (Event ι α) → List α
  | [] => []
  | .answered (some a) :: l => a :: answered l
  | _ :: l => answered l

/-- What had happened when the consumer last asked; histories are read newest first. -/
def past : List (Event ι α) → List (Event ι α)
  | [] => []
  | .asked :: l => l
  | _ :: l => past l

/-- If the answer is that the queue is empty, the consumer had been given what was in it when it asked. -/
def Justifies (e : Event ι α) (l : List (Event ι α)) : Prop :=
  e = .answered none → ∀ y ∈ returned (past l), y.2 ∈ answered (past l)

/-- What the consumer is about to be given. -/
def inHand : Get α → List α
  | .done (some a) => [a]
  | .idle | .called | .done none => []

/-- `taken` is what was put into the queue, by whom, and each of it is accounted for. -/
structure Accounts (l : List (Event ι α)) (q : Queue ι α) (taken : List (ι × α)) : Prop where
  items : ∀ y ∈ taken, y.2 ∈ answered l ∨ y.2 ∈ inHand q.get ∨ y.2 ∈ q.items
  done : ∀ p a, q.put p = .done a → (p, a) ∈ taken
  returned : ∀ y ∈ returned l, y ∈ taken

/-- What is known of the history `l`, newest first, when the queue is `q`. -/
structure Told (l : List (Event ι α)) (q : Queue ι α) : Prop where
  accounts : ∃ taken, Accounts l q taken
  asked : q.get ≠ .idle → answered l = answered (past l)
  empty : q.get = .done none → ∀ y ∈ AtomicQueue.returned (past l), y.2 ∈ answered (past l)
  justified : Justified Justifies l

variable {l : List (Event ι α)} {q : Queue ι α} {p : ι} {a : α} {r : Option α} {y : Put α}
  {taken : List (ι × α)}

theorem mem_past {z : ι × α} (h : z ∈ returned (past l)) : z ∈ returned l := by
  fun_induction past l with
  | case1 => exact h
  | case2 l => exact h
  | case3 e l he ih =>
    have hz := ih h
    cases e with
    | returned p a => exact List.mem_cons_of_mem _ hz
    | _ => exact hz

theorem told_ask (h : Told l q) (hg : q.get = .idle) : Told (.asked :: l) { q with get := .called } := by
  obtain ⟨taken, ht⟩ := h.accounts
  refine ⟨⟨taken, fun y hy => ?_, ht.done, ht.returned⟩, fun _ => rfl, by rintro ⟨⟩, by rintro ⟨⟩, h.justified⟩
  have hy := ht.items y hy
  rwa [hg] at hy

theorem told_get (h : Told l q) (hg : q.get = .called) : Told l q.takeGet := by
  obtain ⟨taken, ht⟩ := h.accounts
  have hasked : answered l = answered (past l) := h.asked (by rw [hg]; rintro ⟨⟩)
  have hitems (y : ι × α) (hy : y ∈ taken) : y.2 ∈ answered l ∨ y.2 ∈ q.items := by
    obtain hy | hy | hy := ht.items y hy
    · exact .inl hy
    · rw [hg] at hy
      cases hy
    · exact .inr hy
  unfold Queue.takeGet
  cases hq : q.items with
  | nil =>
    refine ⟨⟨taken, fun y hy => .inl ?_, ht.done, ht.returned⟩, fun _ => hasked, fun _ y hy => ?_, h.justified⟩
    · exact (hitems y hy).resolve_right (by rw [hq]; exact List.not_mem_nil)
    · rw [← hasked]
      exact (hitems y (ht.returned y (mem_past hy))).resolve_right (by rw [hq]; exact List.not_mem_nil)
  | cons b items =>
    refine ⟨⟨taken, fun y hy => ?_, ht.done, ht.returned⟩, fun _ => hasked, by rintro ⟨⟩, h.justified⟩
    obtain hy | hy := hitems y hy
    · exact .inl hy
    · rw [hq] at hy
      obtain hy | hy := List.mem_cons.mp hy
      · exact .inr (.inl (by rw [hy]; exact List.mem_singleton_self b))
      · exact .inr (.inr hy)

theorem told_answer (h : Told l q) (hg : q.get = .done r) :
    Told (.answered r :: l) { q with get := .idle } := by
  obtain ⟨taken, ht⟩ := h.accounts
  refine ⟨⟨taken, fun y hy => ?_, ht.done, ?_⟩, fun hne => absurd rfl hne, by rintro ⟨⟩, ?_, h.justified⟩
  · obtain hy | hy | hy := ht.items y hy
    · cases r with
      | none => exact .inl hy
      | some b => exact .inl (List.mem_cons_of_mem _ hy)
    · rw [hg] at hy
      cases r with
      | none => cases hy
      | some b =>
        obtain hb := List.mem_singleton.mp hy
        exact .inl (by rw [hb]; exact List.mem_cons_self)
    · exact .inr (.inr hy)
  · exact ht.returned
  · intro hr
    cases hr
    exact h.empty hg

variable [DecidableEq ι]

theorem Accounts.setPut (h : Accounts l q taken) (hy : ∀ a, y = .done a → (p, a) ∈ taken) :
    Accounts l (q.setPut p y) taken := by
  refine ⟨h.items, fun r a hr => ?_, h.returned⟩
  obtain rfl | hne := eq_or_ne r p
  · exact hy a (by simpa [Queue.setPut] using hr)
  · exact h.done r a (by simpa [Queue.setPut, hne] using hr)

theorem told_call (h : Told l q) : Told (.called p a :: l) (q.setPut p (.called a)) := by
  obtain ⟨taken, ht⟩ := h.accounts
  have ha : Accounts l (q.setPut p (.called a)) taken := ht.setPut fun b hb => by cases hb
  exact ⟨⟨taken, ha.items, ha.done, ha.returned⟩, h.asked, h.empty, by rintro ⟨⟩, h.justified⟩

theorem told_put (h : Told l q) (hp : q.put p = .called a) : Told l (q.takePut p) := by
  obtain ⟨taken, ht⟩ := h.accounts
  have hq : q.takePut p = { q.setPut p (.done a) with items := q.items ++ [a] } := by
    simp only [Queue.takePut, hp]
  rw [hq]
  refine ⟨⟨(p, a) :: taken, fun y hy => ?_, fun r b hr => ?_, fun y hy => ?_⟩, h.asked, h.empty, h.justified⟩
  · obtain rfl | hy := List.mem_cons.mp hy
    · exact .inr (.inr (List.mem_append_right _ (List.mem_singleton_self a)))
    · obtain hy | hy | hy := ht.items y hy
      · exact .inl hy
      · exact .inr (.inl hy)
      · exact .inr (.inr (List.mem_append_left _ hy))
  · obtain rfl | hne := eq_or_ne r p
    · obtain rfl : a = b := by simpa [Queue.setPut] using hr
      exact List.mem_cons_self
    · exact List.mem_cons_of_mem _ (ht.done r b (by simpa [Queue.setPut, hne] using hr))
  · exact List.mem_cons_of_mem _ (ht.returned y hy)

theorem told_ret (h : Told l q) (hp : q.put p = .done a) :
    Told (.returned p a :: l) (q.setPut p .idle) := by
  obtain ⟨taken, ht⟩ := h.accounts
  have ha : Accounts l (q.setPut p .idle) taken := ht.setPut fun b hb => by cases hb
  refine ⟨⟨taken, ha.items, ha.done, fun y hy => ?_⟩, h.asked, h.empty, by rintro ⟨⟩, h.justified⟩
  obtain rfl | hy := List.mem_cons.mp hy
  · exact ht.done p a hp
  · exact ht.returned y hy

/-- **Answers are justified.** -/
theorem answers_justified {h : List (Event ι α)} (hs : Shown queue (fun _ _ => True) seen h q) :
    Justified Justifies h.reverse := by
  suffices ht : Told h.reverse q from ht.justified
  induction hs with
  | init hi =>
    subst hi
    have hnone : Accounts ([] : List (Event ι α)) ⟨[], fun _ => .idle, .idle⟩ [] := by
      refine ⟨?_, ?_, ?_⟩
      · rintro y ⟨⟩
      · rintro p a ⟨⟩
      · rintro y ⟨⟩
    refine ⟨⟨[], hnone⟩, fun hne => absurd rfl hne, ?_, trivial⟩
    rintro ⟨⟩
  | @step h q b _ he _ ih =>
    rw [List.reverse_append]
    cases b with
    | call p a => exact told_call ih
    | put p =>
      obtain ⟨a, ha⟩ := he
      exact told_put ih ha
    | ret p =>
      obtain ⟨a, ha⟩ := he
      have hseen : seen q (.ret p) = some (.returned p a) := by simp only [seen, ha]
      rw [hseen]
      exact told_ret ih ha
    | ask => exact told_ask ih he
    | get => exact told_get ih he
    | answer =>
      obtain ⟨r, hr⟩ := he
      have hseen : seen q (.answer : Action ι α) = some (.answered r) := by simp only [seen, hr]
      rw [hseen]
      exact told_answer ih hr

end StNvs.Lib.AtomicQueue
