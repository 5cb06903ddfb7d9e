import StNvs.Lib.Runs

/-! # Machines seen from outside

`show s a` is what can be seen of the action `a` in the state `s`, if anything. `Shown M ok show h s`: some
run of `M` whose actions all meet `ok` has shown `h`, oldest first, and is now in `s`.

A machine refines another one if whatever it shows the other one can show too. `Simulation.shown` is the
rule for that: a relation of the states such that each action of the first is matched by a chain of actions
of the second (`Chain`) that shows the same. -/

namespace StNvs.Lib.Refinement

open StNvs.Lib.Runs

variable {σ τ α β ε : Type} {M : Machine σ α} {N : Machine τ β} {ok : σ → α → Prop}
  {view : σ → α → Option ε} {view' : τ → β → Option ε} {h h' : List ε} {s s' : σ} {t t' t'' : τ}

/-- What a run has shown, and where it is. -/
inductive Shown (M : Machine σ α) (ok : σ → α → Prop) (view : σ → α → Option ε) : List ε → σ → Prop
  | init {s : σ} : M.init s → Shown M ok view [] s
  | step {h : List ε} {s : σ} {a : α} : Shown M ok view h s → M.enabled s a → ok s a →
      Shown M ok view (h ++ (view s a).toList) (M.apply s a)

/-- A chain of actions from one state to another, and what it shows. -/
inductive Chain (N : Machine τ β) (view' : τ → β → Option ε) : τ → List ε → τ → Prop
  | refl {t : τ} : Chain N view' t [] t
  | tail {t t' : τ} {h : List ε} {b : β} : Chain N view' t h t' → N.enabled t' b →
      Chain N view' t (h ++ (view' t' b).toList) (N.apply t' b)

theorem Chain.silent {b : β} (hc : Chain N view' t h t') (he : N.enabled t' b) (hv : view' t' b = none) :
    Chain N view' t h (N.apply t' b) := by
  have hn := hc.tail he
  rwa [hv, Option.toList_none, List.append_nil] at hn

/-- One action. -/
theorem Chain.single {b : β} {e : Option ε} (he : N.enabled t b) (hv : view' t b = e) :
    Chain N view' t e.toList (N.apply t b) := by
  have hrefl : Chain N view' t [] t := .refl
  have hn := hrefl.tail he
  rwa [List.nil_append, hv] at hn

theorem Shown.chain (hs : Shown N (fun _ _ => True) view' h t) (hc : Chain N view' t h' t') :
    Shown N (fun _ _ => True) view' (h ++ h') t' := by
  induction hc with
  | refl => rwa [List.append_nil]
  | tail _ he ih =>
    rw [← List.append_assoc]
    exact ih.step he trivial

/-- `R` relates the states of the two machines, and is kept while they show the same. -/
structure Simulation (M : Machine σ α) (ok : σ → α → Prop) (view : σ → α → Option ε) (N : Machine τ β)
    (view' : τ → β → Option ε) (R : σ → τ → Prop) : Prop where
  init : ∀ s, M.init s → ∃ t, N.init t ∧ R s t
  step : ∀ s t a, R s t → M.enabled s a → ok s a →
    ∃ t', Chain N view' t (view s a).toList t' ∧ R (M.apply s a) t'

/-- **Simulations**: what the first machine has shown the second one can show, in a state that is related. -/
theorem Simulation.shown {R : σ → τ → Prop} (hr : Simulation M ok view N view' R) (hs : Shown M ok view h s) :
    ∃ t, Shown N (fun _ _ => True) view' h t ∧ R s t := by
  induction hs with
  | init hi =>
    obtain ⟨t, ht, hR⟩ := hr.init _ hi
    exact ⟨t, .init ht, hR⟩
  | step _ he hok ih =>
    obtain ⟨t, ht, hR⟩ := ih
    obtain ⟨t', hc, hR'⟩ := hr.step _ _ _ hR he hok
    exact ⟨t', ht.chain hc, hR'⟩

/-! ### Concrete runs -/

/-- What a list of actions shows. -/
def showing (M : Machine σ α) (view : σ → α → Option ε) : σ → List α → List ε
  | _, [] => []
  | s, a :: as => (view s a).toList ++ showing M view (M.apply s a) as

theorem Shown.foldl (hs : Shown M ok view h s) : ∀ as : List α, Enables M ok s as →
    Shown M ok view (h ++ showing M view s as) (as.foldl M.apply s) := by
  intro as
  induction as generalizing h s with
  | nil => exact fun _ => by rwa [showing, List.append_nil]
  | cons a as ih =>
    intro ha
    obtain ⟨⟨he, hok⟩, has⟩ := ha
    rw [showing, ← List.append_assoc]
    exact ih (hs.step he hok) has

end StNvs.Lib.Refinement
