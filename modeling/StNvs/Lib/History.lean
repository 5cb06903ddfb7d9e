import Mathlib.Data.List.Basic

/-! # Histories

A history is the list of what happened, newest first. `Justified J l` says that every event of `l`
stands in the relation `J` to the events before it; it is built up one event at a time
(`justified_cons`), or by events that need no reason (`Justified.append`), and read off anywhere
(`Justified.at`). -/

namespace StNvs.Lib.History

variable {ε : Type} {J : ε → List ε → Prop}

/-- Every event is justified by the events before it. -/
def Justified (J : ε → List ε → Prop) : List ε → Prop
  | [] => True
  | e :: l => J e l ∧ Justified J l

@[simp] theorem justified_nil : Justified J [] := trivial

@[simp] theorem justified_cons {e : ε} {l : List ε} :
    Justified J (e :: l) ↔ J e l ∧ Justified J l := Iff.rfl

/-- Events that are justified whatever was before them. -/
theorem Justified.append {l : List ε} (h : Justified J l) :
    ∀ {es : List ε}, (∀ e ∈ es, ∀ pre, J e pre) → Justified J (es ++ l)
  | [], _ => h
  | _ :: _, hes => ⟨hes _ List.mem_cons_self _, h.append fun e he => hes e (List.mem_cons_of_mem _ he)⟩

/-- An event anywhere in the history is justified by what comes before it. -/
theorem Justified.at {e : ε} {pre : List ε} : ∀ {post : List ε}, Justified J (post ++ e :: pre) →
    J e pre
  | [], h => h.1
  | _ :: _, h => Justified.at h.2

theorem Justified.mono {J' : ε → List ε → Prop} (h : ∀ e l, J e l → J' e l) :
    ∀ {l : List ε}, Justified J l → Justified J' l
  | [], _ => trivial
  | _ :: _, hj => ⟨h _ _ hj.1, hj.2.mono h⟩

theorem Justified.tail {pre : List ε} : ∀ {post : List ε}, Justified J (post ++ pre) →
    Justified J pre
  | [], h => h
  | _ :: _, h => Justified.tail h.2

end StNvs.Lib.History
