import Mathlib.Data.List.Basic
import Mathlib.Tactic.Common

/-! # Labelled machines, their runs and their invariants

A machine has a set of initial states, actions that are *enabled* or not, and a function that applies
an enabled action; everything a run may choose (which party moves, what the environment answers) is in
the action. `ReachVia M ok s` says that `s` is reached from an initial state by enabled actions that all
meet the condition `ok` on the state before the action; `Reach M s` drops the condition.

* `ReachVia.invariant`: what holds initially and is kept by every such action holds in every state
  reached; `ReachVia.invariant_of` proves a second invariant with the help of a first.
* `Enables`: the list of actions can be performed in order; `ReachVia.foldl` turns such a list into a
  state reached, so that concrete runs are checked by evaluation. -/

namespace StNvs.Lib.Runs

/-- A machine: initial states, enabled actions, and what an action does. -/
structure Machine (σ α : Type) where
  init : σ → Prop
  enabled : σ → α → Prop
  apply : σ → α → σ

variable {σ α : Type} {M : Machine σ α} {ok ok' : σ → α → Prop}

/-- The states reached by enabled actions that meet `ok`. -/
inductive ReachVia (M : Machine σ α) (ok : σ → α → Prop) : σ → Prop
  | init {s : σ} : M.init s → ReachVia M ok s
  | step {s : σ} {a : α} : ReachVia M ok s → M.enabled s a → ok s a → ReachVia M ok (M.apply s a)

/-- The states reached by any enabled actions. -/
abbrev Reach (M : Machine σ α) : σ → Prop := ReachVia M fun _ _ => True

theorem ReachVia.mono {s : σ} (h : ReachVia M ok s) (himp : ∀ s a, ok s a → ok' s a) :
    ReachVia M ok' s := by
  induction h with
  | init h => exact .init h
  | step _ he hok ih => exact .step ih he (himp _ _ hok)

theorem ReachVia.reach {s : σ} (h : ReachVia M ok s) : Reach M s := h.mono fun _ _ _ => trivial

/-- **Invariants**: what holds initially and is kept by every step holds in every state reached. -/
theorem ReachVia.invariant {I : σ → Prop} (hinit : ∀ s, M.init s → I s)
    (hstep : ∀ s a, I s → M.enabled s a → ok s a → I (M.apply s a)) {s : σ}
    (h : ReachVia M ok s) : I s := by
  induction h with
  | init h => exact hinit _ h
  | step _ he hok ih => exact hstep _ _ ih he hok

/-- An invariant proved with the help of another one. -/
theorem ReachVia.invariant_of {I J : σ → Prop} (hI : ∀ s, ReachVia M ok s → I s)
    (hinit : ∀ s, M.init s → J s)
    (hstep : ∀ s a, I s → J s → M.enabled s a → ok s a → J (M.apply s a)) {s : σ}
    (h : ReachVia M ok s) : J s := by
  induction h with
  | init h => exact hinit _ h
  | step hr he hok ih => exact hstep _ _ (hI _ hr) ih he hok

/-- A condition on the actions that an invariant makes true need not be asked for. -/
theorem ReachVia.strengthen {I : σ → Prop} (hI : ∀ s, ReachVia M ok s → I s)
    (himp : ∀ s a, I s → M.enabled s a → ok s a → ok' s a) {s : σ} (h : ReachVia M ok s) :
    ReachVia M ok' s := by
  induction h with
  | init h => exact .init h
  | step hr he hok ih => exact .step ih he (himp _ _ (hI _ hr) he hok)

/-! ### Concrete runs -/

/-- The actions can be performed one after the other, each meeting `ok`. -/
def Enables (M : Machine σ α) (ok : σ → α → Prop) : σ → List α → Prop
  | _, [] => True
  | s, a :: as => (M.enabled s a ∧ ok s a) ∧ Enables M ok (M.apply s a) as

instance decidableEnables [∀ s a, Decidable (M.enabled s a)] [∀ s a, Decidable (ok s a)] :
    ∀ (s : σ) (as : List α), Decidable (Enables M ok s as)
  | _, [] => .isTrue trivial
  | s, a :: as =>
    have := decidableEnables (M.apply s a) as
    inferInstanceAs (Decidable (_ ∧ _))

theorem ReachVia.foldl {s : σ} (h : ReachVia M ok s) :
    ∀ (as : List α), Enables M ok s as → ReachVia M ok (as.foldl M.apply s) := by
  intro as
  induction as generalizing s with
  | nil => exact fun _ => h
  | cons a as ih => exact fun ⟨⟨he, hok⟩, has⟩ => ih (.step h he hok) has

end StNvs.Lib.Runs
