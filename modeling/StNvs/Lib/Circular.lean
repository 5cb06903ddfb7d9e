import Mathlib.Data.List.Basic
import Mathlib.Data.List.Nodup
import Mathlib.Logic.Function.Basic
import Mathlib.Tactic.Common

/-! # Doubly linked circular lists

Every node has a pointer to the next and one to the previous node. `Ring h l` says that from the head
`h` the pointers lead through `l` back to `h`, in both directions, and that no node is met twice.

`insertBefore` and `removeLink` are the usual macros. The place of an insertion is an expression, which
the macro evaluates at each of its uses; `insertBefore_prev` is the one where that place is read through
the head itself.

* `Ring.link`, `Ring.link_end`: a node is inserted before another, or at the end.
* `Ring.removeLink`: a node is taken out. -/

namespace StNvs.Lib.Circular

open Function

variable {α : Type} [DecidableEq α]

/-- The two pointers of every node. -/
structure Nodes (α : Type) where
  next : α → α
  prev : α → α

namespace Nodes

def setNext (a b : α) (m : Nodes α) : Nodes α := { m with next := update m.next a b }

def setPrev (a b : α) (m : Nodes α) : Nodes α := { m with prev := update m.prev a b }

/-- Insert `e` before the node that `place` evaluates to; it is evaluated at each use. -/
def insertBefore (e : α) (place : Nodes α → α) (m : Nodes α) : Nodes α :=
  let m := m.setNext e (place m)
  let m := m.setPrev e (m.prev (place m))
  let m := m.setNext (m.prev (place m)) e
  m.setPrev (place m) e

/-- Take `e` out of the list it is in. -/
def removeLink (e : α) (m : Nodes α) : Nodes α :=
  let m := m.setNext (m.prev e) (m.next e)
  m.setPrev (m.next e) (m.prev e)

/-- The pointers after `e` was inserted before `x`. -/
def link (e x : α) (m : Nodes α) : Nodes α :=
  { next := update (update m.next e x) (m.prev x) e
    prev := update (update m.prev e (m.prev x)) x e }

end Nodes

variable {m m' : Nodes α} {a b e h x : α} {l l₁ l₂ : List α}

/-- From `a` the pointers lead through `l` to `b`, and back. -/
def Path (m : Nodes α) : α → List α → α → Prop
  | a, [], b => m.next a = b ∧ m.prev b = a
  | a, x :: l, b => (m.next a = x ∧ m.prev x = a) ∧ Path m x l b

/-- From `h` the pointers lead through `l` back to `h`, and no node is met twice. -/
structure Ring (m : Nodes α) (h : α) (l : List α) : Prop where
  path : Path m h l h
  nodup : (h :: l).Nodup

omit [DecidableEq α]

/-! ### Paths -/

theorem path_append : ∀ {a : α} {l₁ : List α}, Path m a (l₁ ++ x :: l₂) b ↔
    Path m a l₁ x ∧ Path m x l₂ b
  | _, [] => Iff.rfl
  | a, y :: l₁ => by
    rw [List.cons_append, Path, path_append, Path, and_assoc, and_assoc, and_assoc]

/-- A path does not see what is stored elsewhere. -/
theorem Path.congr : ∀ {a : α} {l : List α}, Path m a l b → (∀ y ∈ a :: l, m'.next y = m.next y) →
    (∀ y ∈ l ++ [b], m'.prev y = m.prev y) → Path m' a l b
  | a, [], hp, hn, hv => ⟨(hn a (by simp)).trans hp.1, (hv b (by simp)).trans hp.2⟩
  | a, y :: l, hp, hn, hv =>
    ⟨⟨(hn a (by simp)).trans hp.1.1, (hv y (by simp)).trans hp.1.2⟩,
      hp.2.congr (fun z hz => hn z (List.mem_cons_of_mem _ hz))
        fun z hz => hv z (List.mem_cons_of_mem _ hz)⟩

/-- Nor does a ring. -/
theorem Ring.congr (hr : Ring m h l) (hn : ∀ y ∈ h :: l, m'.next y = m.next y)
    (hv : ∀ y ∈ h :: l, m'.prev y = m.prev y) : Ring m' h l :=
  ⟨hr.path.congr hn fun y hy => hv y (by simpa [or_comm] using hy), hr.nodup⟩

/-- What is before the end of a path lies on it. -/
theorem Path.prev_mem : ∀ {a : α} {l : List α}, Path m a l b → m.prev b ∈ a :: l
  | a, [], hp => by simp [hp.2]
  | a, y :: l, hp => List.mem_cons_of_mem _ hp.2.prev_mem

theorem Path.next_mem : ∀ {a : α} {l : List α}, Path m a l b → m.next a ∈ l ++ [b]
  | a, [], hp => by simp [hp.1]
  | a, y :: l, hp => by simp [hp.1.1]

/-- The node before the end gets a new successor. -/
theorem Path.redirect [DecidableEq α] : ∀ {a : α} {l : List α}, Path m a l x → (a :: l).Nodup →
    (∀ y ∈ a :: l, y ≠ m.prev x → m'.next y = m.next y) → (∀ y ∈ l, m'.prev y = m.prev y) →
    m'.next (m.prev x) = e → m'.prev e = m.prev x → Path m' a l e
  | a, [], hp, _, _, _, h1, h2 => by
    rw [hp.2] at h1 h2
    exact ⟨h1, h2⟩
  | a, y :: l, hp, hd, hn, hv, h1, h2 => by
    have hay : a ≠ m.prev x := fun he => (List.nodup_cons.mp hd).1 (he ▸ hp.2.prev_mem)
    refine ⟨⟨(hn a (by simp) hay).trans hp.1.1, (hv y (by simp)).trans hp.1.2⟩,
      hp.2.redirect (List.nodup_cons.mp hd).2 (fun z hz => hn z (List.mem_cons_of_mem _ hz))
        (fun z hz => hv z (List.mem_cons_of_mem _ hz)) h1 h2⟩

/-! ### Insertion -/

variable [DecidableEq α]

/-- The pointers before the new node lead to it. -/
theorem Path.link (hp : Path m a l x) (hd : (a :: l).Nodup) (hx : x ∉ l) (he : e ∉ a :: l) (hne : e ≠ x) :
    Path (m.link e x) a l e := by
  refine hp.redirect hd (fun y hy hyx => ?_) (fun y hy => ?_) ?_ ?_
  · have hye : y ≠ e := fun hz => he (hz ▸ hy)
    simp [Nodes.link, hyx, hye]
  · have hye : y ≠ e := fun hz => he (hz ▸ List.mem_cons_of_mem _ hy)
    have hyx : y ≠ x := fun hz => hx (hz ▸ hy)
    simp [Nodes.link, hyx, hye]
  · simp [Nodes.link]
  · simp [Nodes.link, hne]

/-- The new node itself. -/
theorem Path.link_new (hp : Path m a l x) (he : e ∉ a :: l) : Path (m.link e x) e [] x := by
  have hne : e ≠ m.prev x := fun hz => he (hz ▸ hp.prev_mem)
  exact ⟨by simp [Nodes.link, hne], by simp [Nodes.link]⟩

/-- **A node is inserted** before another one of the list. -/
theorem Ring.link (hr : Ring m h (l₁ ++ x :: l₂)) (he : e ∉ h :: (l₁ ++ x :: l₂)) :
    Ring (m.link e x) h (l₁ ++ e :: x :: l₂) := by
  obtain ⟨hp₁, hp₂⟩ := path_append.mp hr.path
  have hd := hr.nodup
  rw [← List.cons_append, List.nodup_append] at hd
  obtain ⟨hd₁, hd₂, hd⟩ := hd
  simp only [List.mem_cons, List.mem_append, not_or] at he
  obtain ⟨heh, he₁, hex, he₂⟩ := he
  have hex' : e ∉ h :: l₁ := by simp [heh, he₁]
  have hx₁ : x ∉ l₁ := fun hm => hd x (List.mem_cons_of_mem _ hm) x List.mem_cons_self rfl
  refine ⟨path_append.mpr ⟨hp₁.link hd₁ hx₁ hex' hex, hp₁.link_new hex',
    hp₂.congr (fun y hy => ?_) fun y hy => ?_⟩, ?_⟩
  · have hyp : y ≠ m.prev x := fun hz => hd _ hp₁.prev_mem y hy hz.symm
    have hye : y ≠ e := by
      rintro rfl
      rcases List.mem_cons.mp hy with rfl | hy
      · exact hex rfl
      · exact he₂ hy
    simp [Nodes.link, hyp, hye]
  · have hyx : y ≠ x := by
      rintro rfl
      rcases List.mem_append.mp hy with hy | hy
      · exact (List.nodup_cons.mp hd₂).1 hy
      · exact hd h List.mem_cons_self y List.mem_cons_self (List.mem_singleton.mp hy).symm
    have hye : y ≠ e := by
      rintro rfl
      rcases List.mem_append.mp hy with hy | hy
      · exact he₂ hy
      · exact heh (List.mem_singleton.mp hy)
    simp [Nodes.link, hyx, hye]
  · have hperm : (h :: (l₁ ++ e :: x :: l₂)).Perm (e :: h :: (l₁ ++ x :: l₂)) :=
      (List.perm_middle.cons h).trans (.swap ..)
    exact hperm.nodup_iff.mpr (List.nodup_cons.mpr ⟨by simp [heh, he₁, hex, he₂], hr.nodup⟩)

/-- A node is inserted before the head, which is the end of the list. -/
theorem Ring.link_end (hr : Ring m h l) (he : e ∉ h :: l) : Ring (m.link e h) h (l ++ [e]) := by
  have hne : e ≠ h := fun hz => he (hz ▸ List.mem_cons_self)
  refine ⟨path_append.mpr ⟨hr.path.link hr.nodup (List.nodup_cons.mp hr.nodup).1 he hne,
    hr.path.link_new he⟩, ?_⟩
  rw [← List.cons_append]
  refine List.nodup_append.mpr ⟨hr.nodup, List.nodup_singleton e, fun a ha b hb hab => ?_⟩
  exact he (List.mem_singleton.mp hb ▸ hab ▸ ha)

/-- Inserted before the last element when there is one, and at the end otherwise: what the macro comes to
whose place is the node before the head. -/
theorem insertBefore_prev (heh : e ≠ h) (hep : e ≠ m.prev h) :
    m.insertBefore e (fun m => m.prev h) = m.link e (m.prev h) := by
  simp [Nodes.insertBefore, Nodes.setNext, Nodes.setPrev, Nodes.link, heh.symm, hep.symm]

/-! ### Removal -/

/-- **A node is taken out.** -/
theorem Ring.removeLink (hr : Ring m h (l₁ ++ x :: l₂)) : Ring (m.removeLink x) h (l₁ ++ l₂) := by
  obtain ⟨hp₁, hp₂⟩ := path_append.mp hr.path
  have hd := hr.nodup
  rw [← List.cons_append, List.nodup_append] at hd
  obtain ⟨hd₁, hd₂, hd⟩ := hd
  have hxp : m.prev x ≠ x := fun hz => hd _ hp₁.prev_mem x List.mem_cons_self hz
  have hrem : m.removeLink x = { next := update m.next (m.prev x) (m.next x)
                                 prev := update m.prev (m.next x) (m.prev x) } := by
    simp [Nodes.removeLink, Nodes.setNext, Nodes.setPrev, hxp.symm]
  have hnodup : (h :: (l₁ ++ l₂)).Nodup := by
    refine hr.nodup.sublist (List.Sublist.cons_cons h ?_)
    exact (List.Sublist.refl l₁).append (List.sublist_cons_self x l₂)
  have hnext : m.next x ∉ l₁ := by
    intro hm
    rcases List.mem_append.mp hp₂.next_mem with hn | hn
    · exact hd _ (List.mem_cons_of_mem _ hm) _ (List.mem_cons_of_mem _ hn) rfl
    · exact (List.nodup_cons.mp hd₁).1 (List.mem_singleton.mp hn ▸ hm)
  -- the path before `x`, led on to what follows `x`
  have hfirst : Path (m.removeLink x) h l₁ (m.next x) := by
    rw [hrem]
    refine hp₁.redirect hd₁ (fun y _ hy => update_of_ne hy _ _) (fun y hy => ?_) (update_self ..)
      (update_self ..)
    exact update_of_ne (fun hz => hnext (by rw [← hz]; exact hy)) _ _
  refine ⟨?_, hnodup⟩
  cases l₂ with
  | nil =>
    have hfirst' : Path (m.removeLink x) h l₁ h := hp₂.1 ▸ hfirst
    rwa [List.append_nil]
  | cons y l₂ =>
    refine path_append.mpr ⟨hp₂.1.1 ▸ hfirst, ?_⟩
    rw [hrem]
    refine hp₂.2.congr (fun z hz => update_of_ne ?_ _ _) fun z hz => update_of_ne ?_ _ _
    · exact fun he => hd _ hp₁.prev_mem z (List.mem_cons_of_mem _ hz) he.symm
    · rw [hp₂.1.1]
      rintro rfl
      rcases List.mem_append.mp hz with hz | hz
      · exact (List.nodup_cons.mp (List.nodup_cons.mp hd₂).2).1 hz
      · exact hd h List.mem_cons_self z (by simp) (List.mem_singleton.mp hz).symm

end StNvs.Lib.Circular
