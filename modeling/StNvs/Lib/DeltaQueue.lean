import Mathlib.Algebra.Order.Group.Defs
import Mathlib.Algebra.Order.Group.Unbundled.Basic
import Mathlib.Data.List.Basic
import Mathlib.Tactic.Abel
import Mathlib.Tactic.Linarith

/-! # Timers, and the delta encoding of a timer queue

A timer queue says for each key how much time it has left, in nondecreasing order. `place` puts a new
timer after every timer that is due no later, `cancel` drops one, and `advance e` lets `e` time pass:
`expired e` are the keys that are then due, the others have `e` less left.

The *delta encoding* stores for each timer only the difference to the one in front of it, so that the
passing of time changes one entry. `undelta b` reads a delta list back, from the base `b`. The
operations on deltas are local (`deltaInsert` and `deltaDelete` patch the entry behind, `deltaAdvance`
the first that is left), and each commutes with reading back: `undelta_deltaInsert`,
`undelta_deltaDelete`, `undelta_deltaAdvance`. The times are in any ordered commutative group. -/

namespace StNvs.Lib.DeltaQueue

variable {κ W : Type}

/-! ### Timers -/

section Timers
variable [LinearOrder W]

/-- Add a timer, after those that are due no later. -/
def place (t : κ) (u : W) (ts : List (κ × W)) : List (κ × W) :=
  ts.takeWhile (·.2 ≤ u) ++ (t, u) :: ts.dropWhile (·.2 ≤ u)

/-- Drop a timer. -/
def cancel [DecidableEq κ] (t : κ) (ts : List (κ × W)) : List (κ × W) := ts.filter (·.1 ≠ t)

/-- The keys that are due after `e`, in queue order. -/
def expired (e : W) (ts : List (κ × W)) : List κ := (ts.takeWhile (·.2 ≤ e)).map Prod.fst

/-- What is left after `e`. -/
def advance [Sub W] (e : W) (ts : List (κ × W)) : List (κ × W) :=
  (ts.dropWhile (·.2 ≤ e)).map fun p => (p.1, p.2 - e)

end Timers

/-! ### Deltas -/

variable [AddCommGroup W]

/-- The times a delta list stands for, from the base `b`. -/
def undelta (b : W) : List (κ × W) → List (κ × W)
  | [] => []
  | (k, d) :: q => (k, b + d) :: undelta (b + d) q

/-- The sum of the deltas: the time of the last timer. -/
def total (q : List (κ × W)) : W := (q.map Prod.snd).sum

/-- Add `d` to the first delta. -/
def bump (d : W) : List (κ × W) → List (κ × W)
  | [] => []
  | (k, d') :: q => (k, d' + d) :: q

/-- Remove a timer and give its delta to the one behind it. -/
def deltaDelete [DecidableEq κ] (t : κ) : List (κ × W) → List (κ × W)
  | [] => []
  | (k, d) :: q => if k = t then bump d q else (k, d) :: deltaDelete t q

@[simp] theorem total_nil : total ([] : List (κ × W)) = 0 := rfl

@[simp] theorem total_cons (k : κ) (d : W) (q : List (κ × W)) :
    total ((k, d) :: q) = d + total q := by simp [total]

theorem total_append (p q : List (κ × W)) : total (p ++ q) = total p + total q := by simp [total]

theorem map_fst_undelta (b : W) : ∀ q : List (κ × W),
    (undelta b q).map Prod.fst = q.map Prod.fst
  | [] => rfl
  | (k, d) :: q => by simp [undelta, map_fst_undelta (b + d) q]

/-- Reading back from another base shifts every time. -/
theorem undelta_shift (b c : W) : ∀ q : List (κ × W),
    undelta (b + c) q = (undelta b q).map fun p => (p.1, p.2 + c)
  | [] => rfl
  | (k, d) :: q => by
    have h : b + c + d = b + d + c := by abel
    simp only [undelta, List.map_cons, h, undelta_shift (b + d) c q]

theorem undelta_bump (b d : W) (q : List (κ × W)) : undelta b (bump d q) = undelta (b + d) q := by
  rcases q with _ | ⟨⟨k, d'⟩, q⟩
  · rfl
  · have h : b + (d' + d) = b + d + d' := by abel
    simp only [bump, undelta, h]

theorem total_bump {d : W} {q : List (κ × W)} (h : q ≠ []) : total (bump d q) = d + total q := by
  rcases q with _ | ⟨⟨k, d'⟩, q⟩
  · exact absurd rfl h
  · rw [bump, total_cons, total_cons]; abel

variable [LinearOrder W]

/-- All deltas are nonnegative. -/
def Nonneg (q : List (κ × W)) : Prop := ∀ p ∈ q, 0 ≤ p.2

/-- Insert by walking down the deltas. -/
def deltaInsert (t : κ) (u : W) : List (κ × W) → List (κ × W)
  | [] => [(t, u)]
  | (k, d) :: q => if u < d then (t, u) :: (k, d - u) :: q else (k, d) :: deltaInsert t (u - d) q

/-- Let `e` pass: pop what is due, take the rest of `e` off the first that is not. -/
def deltaAdvance (e : W) : List (κ × W) → List (κ × W)
  | [] => []
  | (k, d) :: q => if e < d then (k, d - e) :: q else deltaAdvance (e - d) q

/-- The keys popped. -/
def deltaExpired (e : W) : List (κ × W) → List κ
  | [] => []
  | (k, d) :: q => if e < d then [] else k :: deltaExpired (e - d) q

@[simp] theorem nonneg_nil : Nonneg ([] : List (κ × W)) := by simp [Nonneg]

@[simp] theorem nonneg_cons {k : κ} {d : W} {q : List (κ × W)} :
    Nonneg ((k, d) :: q) ↔ 0 ≤ d ∧ Nonneg q := by simp [Nonneg]

variable [IsOrderedAddMonoid W]

theorem total_nonneg : ∀ {q : List (κ × W)}, Nonneg q → 0 ≤ total q
  | [], _ => le_rfl
  | (k, d) :: q, h => by
    rw [nonneg_cons] at h
    rw [total_cons]
    exact add_nonneg h.1 (total_nonneg h.2)

/-- Every time is at least the base. -/
theorem le_of_mem_undelta {b : W} : ∀ {q : List (κ × W)}, Nonneg q → ∀ p ∈ undelta b q, b ≤ p.2
  | [], _, p, hp => by simp [undelta] at hp
  | (k, d) :: q, h, p, hp => by
    rw [nonneg_cons] at h
    simp only [undelta, List.mem_cons] at hp
    rcases hp with rfl | hp
    · exact le_add_of_nonneg_right h.1
    · exact (le_add_of_nonneg_right h.1).trans (le_of_mem_undelta h.2 p hp)

/-- No time is after the sum of the deltas. -/
theorem mem_undelta_le {b : W} : ∀ {q : List (κ × W)}, Nonneg q →
    ∀ p ∈ undelta b q, p.2 ≤ b + total q
  | [], _, p, hp => by simp [undelta] at hp
  | (k, d) :: q, h, p, hp => by
    rw [nonneg_cons] at h
    have ht := total_nonneg h.2
    simp only [undelta, List.mem_cons] at hp
    rw [total_cons, ← add_assoc]
    rcases hp with rfl | hp
    · exact le_add_of_nonneg_right ht
    · exact mem_undelta_le h.2 p hp

omit [LinearOrder W] [IsOrderedAddMonoid W] in
/-- The last time is the sum of the deltas. -/
theorem getLast?_undelta (b : W) : ∀ {q : List (κ × W)}, q ≠ [] →
    ((undelta b q).getLast?).map Prod.snd = some (b + total q)
  | [(k, d)], _ => by simp [undelta]
  | (k, d) :: p :: q, _ => by
    have ih := getLast?_undelta (b + d) (q := p :: q) (by simp)
    rw [total_cons, ← add_assoc, ← ih]
    simp [undelta]

/-- The times do not decrease, so the timers due by `u` are those in front. -/
theorem takeWhile_undelta (u : W) : ∀ {q : List (κ × W)} {b : W}, Nonneg q →
    (undelta b q).takeWhile (·.2 ≤ u) = (undelta b q).filter (·.2 ≤ u)
  | [], b, _ => rfl
  | (k, d) :: q, b, h => by
    rw [nonneg_cons] at h
    by_cases hu : b + d ≤ u
    · simp [undelta, hu, takeWhile_undelta u (b := b + d) h.2]
    · have hall : ∀ p ∈ undelta (b + d) q, ¬ p.2 ≤ u := fun p hp hle =>
        hu ((le_of_mem_undelta h.2 p hp).trans hle)
      simp only [undelta, List.takeWhile_cons, List.filter_cons, hu, decide_false]
      exact (List.filter_eq_nil_iff.mpr fun p hp => by simpa using hall p hp).symm

theorem dropWhile_undelta (u : W) : ∀ {q : List (κ × W)} {b : W}, Nonneg q →
    (undelta b q).dropWhile (·.2 ≤ u) = (undelta b q).filter (u < ·.2)
  | [], b, _ => rfl
  | (k, d) :: q, b, h => by
    rw [nonneg_cons] at h
    by_cases hu : b + d ≤ u
    · simp [undelta, hu, dropWhile_undelta u (b := b + d) h.2]
    · have hall : ∀ p ∈ undelta (b + d) q, u < p.2 := fun p hp =>
        lt_of_lt_of_le (not_le.mp hu) (le_of_mem_undelta h.2 p hp)
      have hf : (undelta (b + d) q).filter (u < ·.2) = undelta (b + d) q :=
        List.filter_eq_self.mpr fun p hp => by simpa using hall p hp
      simp [undelta, hu, hf, not_le.mp hu]

/-! ### Inserting -/

theorem undelta_deltaInsert (t : κ) : ∀ {q : List (κ × W)} (b u : W), Nonneg q →
    undelta b (deltaInsert t u q) = place t (b + u) (undelta b q)
  | [], b, u, _ => rfl
  | (k, d) :: q, b, u, h => by
    rw [nonneg_cons] at h
    by_cases hud : u < d
    · have hle : ¬ b + d ≤ b + u := by simpa using hud
      have hb : b + u + (d - u) = b + d := by abel
      simp [deltaInsert, undelta, place, hud, hle, hb]
    · have hle : b + d ≤ b + u := by simpa using hud
      have hb : b + d + (u - d) = b + u := by abel
      have ih := undelta_deltaInsert t (b + d) (u - d) h.2
      rw [hb] at ih
      simp [deltaInsert, undelta, place, hud, hle, ih]

/-- A timer due no earlier than the last one goes to the end. -/
theorem deltaInsert_of_total_le (t : κ) : ∀ {q : List (κ × W)} {u : W}, Nonneg q → total q ≤ u →
    deltaInsert t u q = q ++ [(t, u - total q)]
  | [], u, _, _ => by simp [deltaInsert]
  | (k, d) :: q, u, h, hu => by
    rw [nonneg_cons] at h
    rw [total_cons] at hu
    have hd : ¬ u < d := not_lt.mpr ((le_add_of_nonneg_right (total_nonneg h.2)).trans hu)
    have hq : total q ≤ u - d := le_sub_iff_add_le'.mpr hu
    rw [deltaInsert, if_neg hd, deltaInsert_of_total_le t h.2 hq, total_cons, sub_sub]
    rfl

/-- A timer due before the last one leaves the sum as it is. -/
theorem total_deltaInsert_of_lt (t : κ) : ∀ {q : List (κ × W)} {u : W}, u < total q → 0 ≤ u →
    total (deltaInsert t u q) = total q
  | [], u, hu, h0 => absurd hu (not_lt.mpr h0)
  | (k, d) :: q, u, hu, h0 => by
    rw [total_cons] at hu
    by_cases hud : u < d
    · rw [deltaInsert, if_pos hud]
      simp only [total_cons]
      abel
    · have h1 : u - d < total q := sub_lt_iff_lt_add'.mpr hu
      rw [deltaInsert, if_neg hud, total_cons, total_cons,
        total_deltaInsert_of_lt t h1 (sub_nonneg.mpr (not_lt.mp hud))]

theorem total_deltaInsert_of_le (t : κ) {q : List (κ × W)} {u : W} (h : Nonneg q)
    (hu : total q ≤ u) : total (deltaInsert t u q) = u := by
  rw [deltaInsert_of_total_le t h hu]; simp [total]

theorem nonneg_deltaInsert (t : κ) : ∀ {q : List (κ × W)} {u : W}, Nonneg q → 0 ≤ u →
    Nonneg (deltaInsert t u q)
  | [], u, _, h0 => by simpa [deltaInsert] using h0
  | (k, d) :: q, u, h, h0 => by
    rw [nonneg_cons] at h
    by_cases hud : u < d
    · rw [deltaInsert, if_pos hud]
      simp [h0, hud.le, h.2]
    · rw [deltaInsert, if_neg hud, nonneg_cons]
      exact ⟨h.1, nonneg_deltaInsert t h.2 (sub_nonneg.mpr (not_lt.mp hud))⟩

/-! ### Deleting -/

section Delete
variable [DecidableEq κ]

omit [DecidableEq κ] in
theorem nonneg_bump {d : W} {q : List (κ × W)} (hd : 0 ≤ d) (h : Nonneg q) :
    Nonneg (bump d q) := by
  rcases q with _ | ⟨⟨k, d'⟩, q⟩
  · exact h
  · rw [nonneg_cons] at h
    rw [bump, nonneg_cons]
    exact ⟨add_nonneg h.1 hd, h.2⟩

omit [LinearOrder W] [IsOrderedAddMonoid W] in
theorem undelta_deltaDelete (t : κ) : ∀ {q : List (κ × W)} (b : W), (q.map Prod.fst).Nodup →
    undelta b (deltaDelete t q) = cancel t (undelta b q)
  | [], b, _ => rfl
  | (k, d) :: q, b, h => by
    simp only [List.map_cons, List.nodup_cons] at h
    by_cases hk : k = t
    · subst hk
      have hno : ∀ p ∈ undelta (b + d) q, p.1 ≠ k := by
        intro p hp he
        refine h.1 ?_
        rw [← map_fst_undelta (b + d), ← he]
        exact List.mem_map_of_mem hp
      have hf : (undelta (b + d) q).filter (·.1 ≠ k) = undelta (b + d) q :=
        List.filter_eq_self.mpr fun p hp => by simpa using hno p hp
      rw [deltaDelete, if_pos rfl, undelta_bump, undelta, cancel, List.filter_cons_of_neg (by simp),
        hf]
    · rw [deltaDelete, if_neg hk, undelta, undelta_deltaDelete t (b + d) h.2, undelta, cancel, cancel,
        List.filter_cons_of_pos (by simpa using hk)]

theorem nonneg_deltaDelete (t : κ) : ∀ {q : List (κ × W)}, Nonneg q → Nonneg (deltaDelete t q)
  | [], h => h
  | (k, d) :: q, h => by
    rw [nonneg_cons] at h
    by_cases hk : k = t
    · rw [deltaDelete, if_pos hk]; exact nonneg_bump h.1 h.2
    · rw [deltaDelete, if_neg hk, nonneg_cons]; exact ⟨h.1, nonneg_deltaDelete t h.2⟩

end Delete

/-! ### Letting time pass -/

theorem undelta_deltaAdvance : ∀ {q : List (κ × W)} (e : W), Nonneg q →
    undelta 0 (deltaAdvance e q) = advance e (undelta 0 q) := by
  suffices h : ∀ (q : List (κ × W)) (b e : W), Nonneg q →
      undelta 0 (deltaAdvance e q) = advance (b + e) (undelta b q) by
    intro q e hq
    simpa using h q 0 e hq
  intro q
  induction q with
  | nil => intro b e _; rfl
  | cons p q ih =>
    obtain ⟨k, d⟩ := p
    intro b e h
    rw [nonneg_cons] at h
    by_cases hed : e < d
    · have hle : ¬ b + d ≤ b + e := by simpa using hed
      have h1 : b + d - (b + e) = d - e := by abel
      have h2 : (undelta (b + d) q).map (fun p => (p.1, p.2 - (b + e))) = undelta (d - e) q := by
        have h3 : b + d = (d - e) + (b + e) := by abel
        rw [h3, undelta_shift, List.map_map]
        simp [Function.comp_def]
      simp [deltaAdvance, undelta, advance, hed, hle, h1, h2]
    · have hle : b + d ≤ b + e := by simpa using hed
      have hb : b + d + (e - d) = b + e := by abel
      have ih' := ih (b + d) (e - d) h.2
      rw [hb] at ih'
      simp only [deltaAdvance, if_neg hed, ih', undelta, advance]
      rw [List.dropWhile_cons_of_pos (by simpa using hle)]

theorem deltaExpired_eq : ∀ {q : List (κ × W)} (b e : W),
    deltaExpired e q = expired (b + e) (undelta b q)
  | [], b, e => rfl
  | (k, d) :: q, b, e => by
    by_cases hed : e < d
    · have hle : ¬ b + d ≤ b + e := by simpa using hed
      simp [deltaExpired, undelta, expired, hed, hle]
    · have hle : b + d ≤ b + e := by simpa using hed
      have hb : b + d + (e - d) = b + e := by abel
      have ih := deltaExpired_eq (q := q) (b + d) (e - d)
      rw [hb] at ih
      simp [deltaExpired, undelta, expired, hed, hle, ih]

theorem nonneg_deltaAdvance : ∀ {q : List (κ × W)} (e : W), Nonneg q → Nonneg (deltaAdvance e q)
  | [], e, h => h
  | (k, d) :: q, e, h => by
    rw [nonneg_cons] at h
    by_cases hed : e < d
    · rw [deltaAdvance, if_pos hed, nonneg_cons]
      exact ⟨(sub_pos.mpr hed).le, h.2⟩
    · rw [deltaAdvance, if_neg hed]; exact nonneg_deltaAdvance (e - d) h.2

omit [IsOrderedAddMonoid W] in
/-- What is left of the sum: nothing if all timers are due, else `e` less. -/
theorem total_deltaAdvance : ∀ {q : List (κ × W)} (e : W), deltaAdvance e q ≠ [] →
    total (deltaAdvance e q) = total q - e
  | [], e, h => absurd rfl h
  | (k, d) :: q, e, h => by
    by_cases hed : e < d
    · rw [deltaAdvance, if_pos hed, total_cons, total_cons]; abel
    · rw [deltaAdvance, if_neg hed] at h ⊢
      rw [total_deltaAdvance (e - d) h, total_cons]; abel

end StNvs.Lib.DeltaQueue
