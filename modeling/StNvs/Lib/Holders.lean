import Mathlib.Algebra.BigOperators.Group.Finset.Basic
import Mathlib.Algebra.Order.Group.Multiset
import Mathlib.Logic.Function.Basic

/-! # Who holds what

Things are held by the items of a list and in the numbered slots of a table; `held` and `slots` collect
what they hold, as multisets, so that moving a thing from one holder to another is an equation between
sums. -/

namespace StNvs.Lib.Holders

open Function Finset

variable {α β : Type} {g : α → Multiset β} {l l' : List α} {a v : α} {b : β}

/-! ### Lists -/

/-- What the items of a list hold. -/
def held (g : α → Multiset β) (l : List α) : Multiset β := (l.map g).sum

@[simp] theorem held_nil : held g [] = 0 := rfl

@[simp] theorem held_cons : held g (a :: l) = g a + held g l := by simp [held]

@[simp] theorem held_append : held g (l ++ l') = held g l + held g l' := by simp [held]

theorem held_perm (h : l.Perm l') : held g l = held g l' := (h.map g).sum_eq

theorem held_erase [DecidableEq α] (h : a ∈ l) : held g (l.erase a) + g a = held g l := by
  rw [held_perm (List.perm_cons_erase h), held_cons, add_comm]

theorem mem_held : b ∈ held g l ↔ ∃ a ∈ l, b ∈ g a := by
  induction l with
  | nil => simp
  | cons a l ih => simp [ih]

/-- Each item that holds something of a kind counts. -/
theorem count_le_countP [DecidableEq α] {P : β → Prop} [DecidablePred P] (hb : b ∈ g a) (hP : P b) :
    l.count a ≤ (held g l).countP P := by
  induction l with
  | nil => exact Nat.zero_le _
  | cons x l ih =>
    rw [held_cons, Multiset.countP_add, List.count_cons]
    split
    next h =>
      have hpos : 0 < (g x).countP P := Multiset.countP_pos.2 ⟨b, by rwa [eq_of_beq h], hP⟩
      omega
    next => omega

/-! ### Tables -/

/-- What the first `n` slots of a table hold. -/
def slots (g : α → Multiset β) (f : ℕ → α) (n : ℕ) : Multiset β := ∑ i ∈ range n, g (f i)

variable {f : ℕ → α} {n i : ℕ}

@[simp] theorem slots_zero : slots g f 0 = 0 := rfl

/-- A slot past the end is written. -/
theorem slots_update_ge (h : n ≤ i) : slots g (update f i v) n = slots g f n :=
  sum_congr rfl fun j hj => by rw [update_of_ne (Nat.ne_of_lt (lt_of_lt_of_le (mem_range.1 hj) h))]

/-- One more slot, with something in it. -/
theorem slots_push : slots g (update f n v) (n + 1) = slots g f n + g v := by
  rw [slots, sum_range_succ, update_self]
  exact congrArg (· + _) (slots_update_ge le_rfl)

/-- A slot is written. -/
theorem slots_update (h : i < n) : slots g (update f i v) n + g (f i) = slots g f n + g v := by
  unfold slots
  rw [← sum_erase_add _ _ (mem_range.2 h), ← sum_erase_add (range n) (fun j => g (f j)) (mem_range.2 h),
    update_self, sum_congr rfl fun j hj => by rw [update_of_ne (ne_of_mem_erase hj)]]
  exact add_right_comm _ _ _

/-- What a slot holds does not change. -/
theorem slots_update_same (h : g v = g (f i)) : slots g (update f i v) n = slots g f n :=
  sum_congr rfl fun j _ => by
    obtain rfl | hj := eq_or_ne j i
    · rw [update_self, h]
    · rw [update_of_ne hj]

theorem mem_slots : b ∈ slots g f n ↔ ∃ i < n, b ∈ g (f i) := by
  simp [slots, Multiset.mem_sum]

/-- Only one slot holds any of a thing. -/
theorem count_slots [DecidableEq β] (h : i < n) (hother : ∀ j, j ≠ i → (g (f j)).count b = 0) :
    (slots g f n).count b = (g (f i)).count b := by
  rw [slots, Multiset.count_sum', sum_eq_single_of_mem i (mem_range.2 h) fun j _ hj => hother j hj]

end StNvs.Lib.Holders
