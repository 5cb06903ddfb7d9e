import Mathlib.Data.List.Basic
import Mathlib.Data.List.Infix
import Mathlib.Data.Nat.Notation

/-! # Searching a string

`find pat l` is the number of the first place in `l` where `pat` stands. A place once found stays the
first one when the string goes on (`find_append`), and one that is not there yet is not found
(`find_take`). For a pattern whose first character does not occur before it see `find_of_not_mem`. -/

namespace StNvs.Lib.Search

variable {α : Type} [DecidableEq α] {pat l t : List α} {i k : ℕ} {c : α}

/-- The first place in a string where a pattern stands. -/
def find (pat : List α) : List α → Option ℕ
  | [] => if pat = [] then some 0 else none
  | x :: l => if pat <+: x :: l then some 0 else (find pat l).map (· + 1)

/-- The pattern stands where it is found. -/
theorem prefix_find : ∀ {l : List α} {i : ℕ}, find pat l = some i → pat <+: l.drop i
  | [], i, h => by
    unfold find at h
    split_ifs at h with hp
    simp [hp]
  | x :: l, i, h => by
    unfold find at h
    split_ifs at h with hp
    · obtain rfl := Option.some.inj h
      exact hp
    · obtain ⟨j, hj, rfl⟩ := Option.map_eq_some_iff.1 h
      exact prefix_find (l := l) hj

theorem find_length (h : find pat l = some i) (hp : pat ≠ []) : i + pat.length ≤ l.length := by
  have hle := (prefix_find h).length_le
  rw [List.length_drop] at hle
  have := List.length_pos_iff.2 hp
  omega

/-- What was found is found when the string goes on. -/
theorem find_append (hp : pat ≠ []) : ∀ {l : List α} {i : ℕ}, find pat l = some i →
    find pat (l ++ t) = some i
  | [], i, h => by simp [find, hp] at h
  | x :: l, i, h => by
    have hlen := find_length h hp
    unfold find at h
    rw [List.cons_append]
    unfold find
    split_ifs at h with hx
    · have hpre : pat <+: x :: (l ++ t) := hx.trans (List.prefix_append (x :: l) t)
      rw [if_pos hpre]
      exact h
    · obtain ⟨j, hj, rfl⟩ := Option.map_eq_some_iff.1 h
      have hnot : ¬ pat <+: x :: (l ++ t) := fun hpre => hx <| by
        refine List.prefix_of_prefix_length_le hpre (List.prefix_append (x :: l) t) ?_
        exact le_trans (Nat.le_add_left _ _) hlen
      rw [if_neg hnot, find_append hp hj]
      rfl

/-- What is found stands where the string ends already. -/
theorem find_take (hp : pat ≠ []) (h : find pat l = some i) (hk : k < i + pat.length) :
    find pat (l.take k) = none := by
  cases hf : find pat (l.take k) with
  | none => rfl
  | some j =>
    have hj := find_append (t := l.drop k) hp hf
    rw [List.take_append_drop, h] at hj
    obtain rfl := Option.some.inj hj
    have := find_length hf hp
    rw [List.length_take] at this
    omega

/-- A pattern that begins with a character not met before is looked for in what follows. -/
theorem find_append_of_not_mem (hc : c ∉ l) :
    find (c :: pat) (l ++ t) = (find (c :: pat) t).map (· + l.length) := by
  induction l with
  | nil => simp
  | cons x l ih =>
    obtain ⟨hx, hl⟩ := not_or.1 fun h => hc (List.mem_cons.2 h)
    have hnot : ¬ c :: pat <+: x :: (l ++ t) := fun h => hx (List.cons_prefix_cons.1 h).1
    rw [List.cons_append, find, if_neg hnot, ih hl, Option.map_map]
    rfl

/-- A string before which nothing stands is found there. -/
theorem find_self (h : pat <+: l) : find pat l = some 0 := by
  cases l with
  | nil => simp [find, List.prefix_nil.1 h]
  | cons x l => rw [find, if_pos h]

theorem find_of_not_mem (hc : c ∉ l) : find (c :: pat) (l ++ (c :: pat) ++ t) = some l.length := by
  rw [List.append_assoc, find_append_of_not_mem hc, find_self (List.prefix_append _ _)]
  simp

/-- Where the pattern stands somewhere, it is found. -/
theorem find_ne_none : ∀ {l : List α} {i : ℕ}, pat <+: l.drop i → find pat l ≠ none
  | [], i, h => by simp_all [find]
  | x :: l, 0, h => by
    rw [find_self (l := x :: l) h]
    simp
  | x :: l, i + 1, h => by
    unfold find
    split_ifs
    · simp
    · rw [Ne, Option.map_eq_none_iff]
      exact find_ne_none (l := l) h

theorem find_none_of_not_mem (hc : c ∉ l) : find (c :: pat) l = none := by
  induction l with
  | nil => simp [find]
  | cons x l ih =>
    obtain ⟨hx, hl⟩ := not_or.1 fun h => hc (List.mem_cons.2 h)
    have hnot : ¬ c :: pat <+: x :: l := fun h => hx (List.cons_prefix_cons.1 h).1
    rw [find, if_neg hnot, ih hl]
    rfl

/-- A pattern that does not stand in `l`, nor over its end, since what follows is not in the pattern. -/
theorem find_append_of_none (hp : pat ≠ []) (hc : c ∉ pat) : ∀ {l : List α}, find pat l = none →
    find pat (l ++ c :: t) = (find pat (c :: t)).map (· + l.length)
  | [], _ => by simp
  | x :: l, h => by
    unfold find at h
    split_ifs at h with hx
    have hnot : ¬ pat <+: x :: l ++ c :: t := fun hpre => by
      rcases Nat.lt_or_ge (x :: l).length pat.length with hlt | hle
      · -- the pattern would reach over the end of `l`
        obtain ⟨r, hr⟩ := List.prefix_of_prefix_length_le (List.prefix_append (x :: l) (c :: t)) hpre hlt.le
        obtain ⟨q, hq⟩ := hpre
        rw [← hr, List.append_assoc] at hq
        have hrq := List.append_cancel_left hq
        cases r with
        | nil =>
          rw [List.append_nil] at hr
          rw [hr] at hlt
          exact absurd hlt (lt_irrefl _)
        | cons y r =>
          obtain ⟨rfl, -⟩ := List.cons.inj hrq
          exact hc (hr ▸ by simp)
      · exact hx (List.prefix_of_prefix_length_le hpre (List.prefix_append (x :: l) (c :: t)) hle)
    rw [List.cons_append] at hnot ⊢
    rw [find, if_neg hnot, find_append_of_none hp hc (Option.map_eq_none_iff.1 h), Option.map_map]
    rfl

end StNvs.Lib.Search
