import Mathlib.Data.List.Basic
import Mathlib.Logic.Function.Basic
import Mathlib.Logic.Relation

/-! # Chains of links

`next` says which node follows a node, `null` that none does. `Chain null next a l`: from `a` the links
lead through `l` to the end. A chain is lengthened at its last node (`Chain.link`), and does not see what
is stored elsewhere (`Chain.congr`). `Follows` is what can be reached by the links. `Linked next h l` is
the same for pointers that may be absent and a list that may be empty. -/

namespace StNvs.Lib.Links

open Function

variable {α : Type} {null : α} {next next' : α → α} {a b n t : α} {l : List α}

/-- From `a` the links lead through `l` to the end. -/
def Chain (null : α) (next : α → α) : α → List α → Prop
  | a, [] => next a = null
  | a, b :: l => next a = b ∧ Chain null next b l

theorem Chain.congr : ∀ {a : α} {l : List α}, Chain null next a l → (∀ x ∈ a :: l, next' x = next x) →
    Chain null next' a l
  | a, [], h, he => (he a (by simp)).trans h
  | a, b :: l, h, he =>
    ⟨(he a (by simp)).trans h.1, h.2.congr fun x hx => he x (List.mem_cons_of_mem _ hx)⟩

/-- A node of the chain is followed by another node of it, or is the last one. -/
theorem Chain.next_mem : ∀ {a : α} {l : List α}, Chain null next a l → t ∈ a :: l → next t ≠ null →
    next t ∈ l
  | a, [], h, ht, hn => by
    obtain rfl := List.mem_singleton.mp ht
    exact absurd h hn
  | a, b :: l, h, ht, hn => by
    rcases List.mem_cons.mp ht with rfl | ht
    · rw [h.1]; exact List.mem_cons_self
    · exact List.mem_cons_of_mem _ (h.2.next_mem ht hn)

/-- If the chain goes on after `a`, something follows `a`. -/
theorem Chain.next_ne (h : Chain null next a l) (hl : null ∉ l) (hb : b ∈ l) : next a ≠ null := by
  cases l with
  | nil => exact absurd hb List.not_mem_nil
  | cons c l =>
    rw [h.1]
    exact fun he => hl (he ▸ List.mem_cons_self)

/-- What follows a node of the chain. -/
theorem Chain.next_of_split : ∀ {l₁ l₂ : List α} {a : α} {l : List α}, Chain null next a l →
    a :: l = l₁ ++ t :: l₂ → next t = l₂.head?.getD null
  | [], l₂, a, l, h, he => by
    obtain ⟨rfl, rfl⟩ := List.cons.inj he
    cases l with
    | nil => exact h
    | cons b l => exact h.1
  | x :: l₁, l₂, a, l, h, he => by
    obtain ⟨rfl, hl⟩ := List.cons.inj he
    cases l with
    | nil => simp at hl
    | cons b l => exact h.2.next_of_split hl

/-- The last node of the chain gets a new one as its next. -/
theorem Chain.link [DecidableEq α] : ∀ {a : α} {l : List α}, Chain null next a l → (a :: l).Nodup →
    null ∉ l → t ∈ a :: l → next t = null → n ∉ a :: l → next n = null →
    Chain null (update next t n) a (l ++ [n])
  | a, [], h, _, _, ht, _, hn, hz => by
    obtain rfl := List.mem_singleton.mp ht
    have hne : n ≠ t := fun he => hn (he ▸ List.mem_cons_self)
    exact ⟨update_self _ _ _, by rw [Chain, update_of_ne hne, hz]⟩
  | a, b :: l, h, hd, hl, ht, hz, hn, hnz => by
    obtain ⟨ha, hd⟩ := List.nodup_cons.mp hd
    have hat : a ≠ t := by
      rintro rfl
      exact h.next_ne hl List.mem_cons_self hz
    have htl : t ∈ b :: l := (List.mem_cons.mp ht).resolve_left (Ne.symm hat)
    refine ⟨(update_of_ne hat _ _).trans h.1, h.2.link hd (fun hx => hl (List.mem_cons_of_mem _ hx)) htl
      hz (fun hx => hn (List.mem_cons_of_mem _ hx)) hnz⟩

/-- There is one chain from a node. -/
theorem Chain.unique : ∀ {a : α} {l l' : List α}, Chain null next a l → Chain null next a l' → null ∉ l →
    null ∉ l' → l = l'
  | a, [], l', h, h', _, hl' => by
    cases l' with
    | nil => rfl
    | cons b l' => exact absurd (List.mem_cons.mpr (.inl (h.symm.trans h'.1))) hl'
  | a, b :: l, l', h, h', hl, hl' => by
    cases l' with
    | nil => exact absurd (List.mem_cons.mpr (.inl (h'.symm.trans h.1))) hl
    | cons c l' =>
      obtain rfl : b = c := h.1.symm.trans h'.1
      rw [h.2.unique h'.2 (fun hm => hl (List.mem_cons_of_mem _ hm)) fun hm => hl' (List.mem_cons_of_mem _ hm)]

/-- `b` can be reached from `a` by the links. -/
def Follows (null : α) (next : α → α) (a b : α) : Prop :=
  Relation.ReflTransGen (fun x y => next x = y ∧ y ≠ null) a b

theorem Chain.follows : ∀ {a : α} {l : List α}, Chain null next a l → null ∉ l → b ∈ a :: l →
    Follows null next a b
  | a, [], _, _, hb => by
    obtain rfl := List.mem_singleton.mp hb
    exact .refl
  | a, c :: l, h, hl, hb => by
    rcases List.mem_cons.mp hb with rfl | hb
    · exact .refl
    · have hc : c ≠ null := fun he => hl (he ▸ List.mem_cons_self)
      exact .head ⟨h.1, hc⟩ (h.2.follows (fun hx => hl (List.mem_cons_of_mem _ hx)) hb)

/-- Nothing can be reached from the last node but itself. -/
theorem Follows.eq_of_last (h : Follows null next a b) (ha : next a = null) : b = a := by
  rcases h.cases_head with rfl | ⟨c, ⟨hc, hne⟩, -⟩
  · rfl
  · exact absurd (hc.symm.trans ha) hne

/-- From the pointer `h` the links lead through `l` to the end. -/
def Linked {β : Type} (next : β → Option β) : Option β → List β → Prop
  | h, [] => h = none
  | h, b :: l => h = some b ∧ Linked next (next b) l

theorem Linked.congr {β : Type} {next next' : β → Option β} : ∀ {h : Option β} {l : List β},
    Linked next h l → (∀ x ∈ l, next' x = next x) → Linked next' h l
  | _, [], hl, _ => hl
  | _, b :: _, hl, he =>
    ⟨hl.1, he b List.mem_cons_self ▸ hl.2.congr fun x hx => he x (List.mem_cons_of_mem _ hx)⟩

end StNvs.Lib.Links
