import Mathlib.Algebra.Order.BigOperators.Group.List
import Mathlib.Algebra.Order.Group.Nat
import Mathlib.Algebra.Ring.Nat
import Mathlib.Data.Nat.Notation

/-! # Quoted literals

A text with literals between quotes, where a quote in a literal is written twice. `scan` reads it into
tokens; `render` writes tokens, and `plain` writes them without doubling the quotes in the literals.

* `render_scan`: what was read is written as it was.
* `scan_plain`: what `plain` writes is read as the same tokens when no literal has a quote.
* `scan_fill`: the room that literals with quotes in them take. -/

namespace StNvs.Lib.Quoted

/-- A character outside of the literals, or a literal with the string it stands for. -/
inductive Token (α : Type)
  | code (c : α)
  | lit (s : List α)
  deriving DecidableEq, Repr

variable {α : Type} [DecidableEq α] {q : α}

/-- Reads a text, in the middle of a literal of which `s` was read when the state is `some s`. -/
def scan (q : α) : Option (List α) → List α → Option (List (Token α))
  | none, [] => some []
  | none, c :: l => if c = q then scan q (some []) l else (scan q none l).map (.code c :: ·)
  | some _, [] => none
  | some s, [c] => if c = q then some [.lit s] else none
  | some s, c :: d :: l =>
    if c = q then
      if d = q then scan q (some (s ++ [q])) l else (scan q none (d :: l)).map (.lit s :: ·)
    else scan q (some (s ++ [c])) (d :: l)

/-- A string with its quotes doubled. -/
def escape (q : α) (s : List α) : List α := s.flatMap fun c => if c = q then [q, q] else [c]

def render (q : α) : List (Token α) → List α
  | [] => []
  | .code c :: ts => c :: render q ts
  | .lit s :: ts => q :: (escape q s ++ q :: render q ts)

def plain (q : α) : List (Token α) → List α
  | [] => []
  | .code c :: ts => c :: plain q ts
  | .lit s :: ts => q :: (s ++ q :: plain q ts)

/-- No quote outside of the literals, and no literal next to another. -/
def shaped (q : α) : List (Token α) → Bool
  | [] => true
  | .code c :: ts => c ≠ q ∧ shaped q ts
  | .lit _ :: .lit _ :: _ => false
  | .lit _ :: ts => shaped q ts

/-- The literals in order. -/
def lits : List (Token α) → List (List α)
  | [] => []
  | .code _ :: ts => lits ts
  | .lit s :: ts => s :: lits ts

/-- Other literals in the places of those of a text. -/
def fill : List (Token α) → List (List α) → List (Token α)
  | [], _ => []
  | .code c :: ts, as => .code c :: fill ts as
  | .lit s :: ts, [] => .lit s :: ts
  | .lit _ :: ts, a :: as => .lit a :: fill ts as

variable {s l : List α} {ts : List (Token α)} {as : List (List α)}

/-! ### What is written -/

theorem escape_append (s t : List α) : escape q (s ++ t) = escape q s ++ escape q t := List.flatMap_append

/-- A quote takes two places. -/
theorem escape_length (s : List α) : (escape q s).length = s.length + s.count q := by
  induction s with
  | nil => rfl
  | cons c s ih =>
    change ((if c = q then [q, q] else [c]) ++ escape q s).length = _
    rw [List.length_append, ih, List.length_cons, List.count_cons]
    by_cases hc : c = q
    · simp [hc]
      omega
    · simp [hc]
      omega

theorem render_length (ts : List (Token α)) :
    (render q ts).length = (plain q ts).length + ((lits ts).map (List.count q)).sum := by
  induction ts with
  | nil => rfl
  | cons t ts ih =>
    cases t with
    | code c =>
      simp only [render, plain, lits, List.length_cons, ih]
      omega
    | lit s =>
      simp only [render, plain, lits, List.length_cons, List.length_append, escape_length, ih, List.map_cons,
        List.sum_cons]
      omega

/-! ### What is read -/

/-- What the reader has seen already of the literal that it is in. -/
def seen (q : α) : Option (List α) → List α
  | none => []
  | some s => q :: escape q s

/-- **What was read is written as it was.** -/
theorem render_scan {st : Option (List α)} (h : scan q st l = some ts) : render q ts = seen q st ++ l := by
  fun_induction scan q st l generalizing ts with
  | case1 =>
    obtain rfl := Option.some.inj h
    rfl
  | case2 l ih => rw [ih h]; rfl
  | case3 c l hc ih =>
    obtain ⟨ts', hts', rfl⟩ := Option.map_eq_some_iff.1 h
    exact congrArg (c :: ·) (ih hts')
  | case4 => nomatch h
  | case5 s =>
    obtain rfl := Option.some.inj h
    rfl
  | case6 => nomatch h
  | case7 s l ih =>
    rw [ih h, seen, escape_append]
    simp [seen, escape]
  | case8 s d l hd ih =>
    obtain ⟨ts', hts', rfl⟩ := Option.map_eq_some_iff.1 h
    rw [render, ih hts']
    simp [seen]
  | case9 s c d l hc ih =>
    rw [ih h, seen, escape_append]
    simp [seen, escape, hc]

/-- A literal without quotes is read up to its end. -/
theorem scan_lit (hs : q ∉ s) (hl : l.head? ≠ some q) (s' : List α) :
    scan q (some s') (s ++ q :: l) = (scan q none l).map (.lit (s' ++ s) :: ·) := by
  induction s generalizing s' with
  | nil =>
    cases l with
    | nil => simp [scan]
    | cons d l =>
      have hd : d ≠ q := fun h => hl (congrArg some h)
      simp [scan, hd]
  | cons c s ih =>
    obtain ⟨hc, hs⟩ := not_or.1 fun hm => hs (List.mem_cons.2 hm)
    obtain ⟨d, r, hr⟩ : ∃ d r, s ++ q :: l = d :: r := by
      cases s with
      | nil => exact ⟨q, l, rfl⟩
      | cons d s => exact ⟨d, s ++ q :: l, rfl⟩
    have hih := ih hs (s' ++ [c])
    rw [hr] at hih
    rw [List.cons_append, hr, scan, if_neg (Ne.symm hc), hih, List.append_assoc]
    rfl

theorem head_plain {s : List α} (h : shaped q (.lit s :: ts)) : (plain q ts).head? ≠ some q := by
  cases ts with
  | nil => simp [plain]
  | cons t ts =>
    cases t with
    | code c =>
      simp only [shaped, Bool.decide_and, Bool.and_eq_true, decide_eq_true_eq] at h
      simpa [plain] using h.1
    | lit s => simp [shaped] at h

theorem shaped_of_lit {s : List α} (h : shaped q (.lit s :: ts)) : shaped q ts := by
  cases ts with
  | nil => rfl
  | cons t ts =>
    cases t with
    | code c => exact h
    | lit s => simp [shaped] at h

/-- **A text without quotes in its literals** is read as it was meant. -/
theorem scan_plain (h : shaped q ts) (hq : ∀ s ∈ lits ts, q ∉ s) : scan q none (plain q ts) = some ts := by
  induction ts with
  | nil => rfl
  | cons t ts ih =>
    cases t with
    | code c =>
      simp only [shaped, Bool.decide_and, Bool.and_eq_true, decide_eq_true_eq] at h
      rw [plain, scan, if_neg h.1, ih h.2 hq]
      rfl
    | lit s =>
      obtain ⟨hs, hts⟩ := List.forall_mem_cons.1 hq
      rw [plain, scan, if_pos rfl, scan_lit hs (head_plain h), ih (shaped_of_lit h) hts]
      rfl

/-! ### Literals in the places of others -/

theorem shaped_fill (ts : List (Token α)) (as : List (List α)) : shaped q (fill ts as) = shaped q ts := by
  fun_induction fill ts as with
  | case1 => rfl
  | case2 c ts as ih => rw [shaped, shaped, ih]
  | case3 => rfl
  | case4 s ts a as ih =>
    cases ts with
    | nil => rfl
    | cons t ts =>
      cases t with
      | code c => exact ih
      | lit s' => cases as <;> rfl

omit [DecidableEq α] in
/-- The room of a text with other literals. -/
theorem plain_fill_length (h : as.length = (lits ts).length) :
    (plain q (fill ts as)).length + (lits ts).flatten.length = (plain q ts).length + as.flatten.length := by
  fun_induction fill ts as with
  | case1 as =>
    obtain rfl := List.eq_nil_of_length_eq_zero h
    rfl
  | case2 c ts as ih =>
    have := ih h
    simp only [plain, lits, List.length_cons]
    omega
  | case3 => nomatch h
  | case4 s ts a as ih =>
    have := ih (Nat.succ.inj h)
    simp only [plain, lits, List.length_cons, List.length_append, List.flatten_cons]
    omega

omit [DecidableEq α] in
theorem lits_fill (h : as.length = (lits ts).length) : lits (fill ts as) = as := by
  fun_induction fill ts as with
  | case1 as => exact (List.eq_nil_of_length_eq_zero h).symm
  | case2 c ts as ih => exact ih h
  | case3 => nomatch h
  | case4 s ts a as ih => rw [lits, ih (Nat.succ.inj h)]

/-- A text that is read as tokens with other literals than it was written with has none with a quote, and
they need the same room. -/
theorem scan_fill {vs : List (List α)} (has : as.length = (lits ts).length) (hvs : vs.length = (lits ts).length)
    (h : scan q none (plain q (fill ts as)) = some (fill ts vs)) :
    as.flatten.length = vs.flatten.length + (vs.map (List.count q)).sum := by
  have hlen := congrArg List.length (render_scan h)
  rw [render_length, lits_fill hvs] at hlen
  have h1 := plain_fill_length (q := q) has
  have h2 := plain_fill_length (q := q) hvs
  simp only [seen, List.nil_append] at hlen
  omega

end StNvs.Lib.Quoted
