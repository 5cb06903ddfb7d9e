import Mathlib.Data.List.Basic
import Mathlib.Data.Nat.Notation

/-! # Programs that make calls

A program makes a call and goes on with what the call returns. `run` lets it run against a server with a
state, which may refuse a call, and keeps the calls with their answers. `Follows p log p'`: after the
answers in `log` the program `p` has become `p'`.

* `run_bind`, `run_mapM`: programs one after another.
* `follows_append`, `Follows.snoc`: a program after some answers, and after some more. -/

namespace StNvs.Lib.Programs

inductive Prog (C R α : Type)
  | ret (a : α)
  | call (c : C) (k : R → Prog C R α)

variable {C R α β σ : Type}

namespace Prog

def bind : Prog C R α → (α → Prog C R β) → Prog C R β
  | .ret a, f => f a
  | .call c k, f => .call c fun r => (k r).bind f

instance : Monad (Prog C R) where
  pure := .ret
  bind := bind

/-- One call. -/
def ask (c : C) : Prog C R R := .call c .ret

/-- A program for each element of a list. -/
def mapM (f : α → Prog C R β) : List α → Prog C R (List β)
  | [] => .ret []
  | a :: l => (f a).bind fun b => (mapM f l).bind fun bs => .ret (b :: bs)

/-- The result, the calls with their answers, and the state of the server. -/
def run (serve : C → σ → Option (R × σ)) : Prog C R α → σ → Option (α × List (C × R) × σ)
  | .ret a, s => some (a, [], s)
  | .call c k, s => (serve c s).bind fun x => ((k x.1).run serve x.2).map fun y => (y.1, (c, x.1) :: y.2.1, y.2.2)

/-- The results of a program for each element of a list, each with its calls. -/
def runEach (serve : C → σ → Option (R × σ)) (f : α → Prog C R β) :
    List α → σ → Option (List (β × List (C × R)) × σ)
  | [], s => some ([], s)
  | a :: l, s => ((f a).run serve s).bind fun x =>
      (runEach serve f l x.2.2).map fun y => ((x.1, x.2.1) :: y.1, y.2)

/-- What becomes of a program after some answers. -/
def Follows : Prog C R α → List (C × R) → Prog C R α → Prop
  | p, [], p' => p = p'
  | p, x :: log, p' => ∃ k, p = .call x.1 k ∧ (k x.2).Follows log p'

variable {serve : C → σ → Option (R × σ)} {p p'' : Prog C R α} {c : C} {r : R} {s s' : σ}

@[simp] theorem pure_eq (a : α) : (pure a : Prog C R α) = .ret a := rfl

@[simp] theorem bind_eq (p : Prog C R α) (f : α → Prog C R β) : (p >>= f) = p.bind f := rfl

@[simp] theorem ret_bind (a : α) (f : α → Prog C R β) : (ret a).bind f = f a := rfl

@[simp] theorem call_bind (c : C) (k : R → Prog C R α) (f : α → Prog C R β) :
    (call c k).bind f = .call c fun r => (k r).bind f := rfl

@[simp] theorem ask_bind (c : C) (f : R → Prog C R β) : (ask c).bind f = .call c f := rfl

@[simp] theorem run_ret (a : α) (s : σ) : (ret a : Prog C R α).run serve s = some (a, [], s) := rfl

/-- A call that is answered. -/
theorem run_call {k : R → Prog C R α} (h : serve c s = some (r, s')) : (call c k).run serve s =
    ((k r).run serve s').map fun y => (y.1, (c, r) :: y.2.1, y.2.2) := by
  rw [run, h]
  rfl

/-- A call that is refused. -/
theorem run_call_none {k : R → Prog C R α} (h : serve c s = none) : (call c k).run serve s = none := by
  rw [run, h]
  rfl

/-- **One program after another.** -/
theorem run_bind (p : Prog C R α) (f : α → Prog C R β) (s : σ) : (p.bind f).run serve s =
    (p.run serve s).bind fun x => ((f x.1).run serve x.2.2).map fun y => (y.1, x.2.1 ++ y.2.1, y.2.2) := by
  induction p generalizing s with
  | ret a => simp
  | call c k ih =>
    rw [call_bind, run, run]
    cases serve c s with
    | none => rfl
    | some x =>
      simp only [Option.bind_some, ih]
      cases (k x.1).run serve x.2 with
      | none => rfl
      | some y => simp [Function.comp_def]

/-- **The programs for the elements of a list.** -/
theorem run_mapM (f : α → Prog C R β) (l : List α) (s : σ) : (mapM f l).run serve s =
    (runEach serve f l s).map fun y => (y.1.map Prod.fst, (y.1.map Prod.snd).flatten, y.2) := by
  induction l generalizing s with
  | nil => rfl
  | cons a l ih =>
    rw [mapM, run_bind, runEach]
    cases (f a).run serve s with
    | none => rfl
    | some x =>
      simp only [Option.bind_some, run_bind, ih, Option.map_map]
      cases runEach serve f l x.2.2 with
      | none => rfl
      | some y => simp

/-! ### What a program becomes -/

theorem follows_append {l l' : List (C × R)} :
    p.Follows (l ++ l') p'' ↔ ∃ p', p.Follows l p' ∧ p'.Follows l' p'' := by
  induction l generalizing p with
  | nil => exact ⟨fun h => ⟨p, rfl, h⟩, fun ⟨_, h, h'⟩ => h ▸ h'⟩
  | cons x l ih =>
    simp only [List.cons_append, Follows, ih]
    exact ⟨fun ⟨k, hk, p', h, h'⟩ => ⟨p', ⟨k, hk, h⟩, h'⟩, fun ⟨p', ⟨k, hk, h⟩, h'⟩ => ⟨k, hk, p', h, h'⟩⟩

/-- One more answer. -/
theorem Follows.snoc {l : List (C × R)} {k : R → Prog C R α} (h : p.Follows l (.call c k)) (r : R) :
    p.Follows (l ++ [(c, r)]) (k r) :=
  follows_append.2 ⟨_, h, k, rfl, rfl⟩

end Prog

end StNvs.Lib.Programs
