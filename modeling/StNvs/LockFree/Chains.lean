import StNvs.LockFree.Model

/-! # The shape of the queue

What matters of the state is its `Shape`: the links, the values, the addresses in use, head and tail.
`Sound` says that the nodes from the head on form a chain with the tail in it, that a node a producer has
not linked yet is its own, and what the values read by a producer or the consumer are still good for. The
five ways the shape changes keep this: a node is allocated, linked, the tail or the head moves, a node is
freed. For the first, its address must not be one that a producer is about to compare with
(`committed`). -/

namespace StNvs.LockFree.Chains

open StNvs.Lib.Links StNvs.LockFree.Model Function

structure Shape where
  next : Addr → Addr
  val : Addr → Option Item
  used : List Addr
  head : Addr
  tail : Addr

def shape (s : Sys) : Shape where
  next a := (s.mem a).next.ptr
  val a := (s.mem a).value
  used := s.allocated
  head := s.head.ptr
  tail := s.tail.ptr

/-- The node a producer has not linked yet, and its value. -/
def own : Producer → Option (Addr × Item)
  | .top n i | .readTailPtr n i _ | .readNextPtr n i _ | .readNextCount n i _ _ | .checkCount n i _ _
  | .checkPtr n i _ _ | .swap n i _ _ | .swung n i _ => some (n, i)
  | .idle | .linked _ _ _ => none

/-- The node a producer has taken for the tail, once it relies on that: it has read a node that follows,
or has passed the checks. -/
def committed : Producer → Option Addr
  | .readNextCount _ _ t x => if x = 0 then none else some t.ptr
  | .checkCount _ _ t x | .checkPtr _ _ t x => if x.ptr = 0 then none else some t.ptr
  | .swap _ _ t _ => some t.ptr
  | .idle | .top _ _ | .readTailPtr _ _ _ | .readNextPtr _ _ _ | .linked _ _ _ | .swung _ _ _ => none

variable {g : Shape} {rest : List Addr} {ps : ℕ → Producer} {k : Consumer} {p : ℕ} {c : Producer}
  {n a t x : Addr} {i i' : Item}

/-- The nodes from the head on form a chain, and the tail is one of them. -/
structure Shape.Ok (g : Shape) (rest : List Addr) : Prop where
  chain : Chain 0 g.next g.head rest
  nodup : (g.head :: rest).Nodup
  used : ∀ a ∈ g.head :: rest, a ≠ 0 ∧ a ∈ g.used
  tail : g.tail ∈ g.head :: rest

/-- A node that is allocated and not in the queue, with the value it is going to bring. -/
structure Own (g : Shape) (rest : List Addr) (n : Addr) (i : Item) : Prop where
  ne : n ≠ 0
  used : n ∈ g.used
  fresh : n ∉ g.head :: rest
  last : g.next n = 0
  val : g.val n = some i

/-- What a producer has read, and relies on. -/
def Seen (g : Shape) (rest : List Addr) : Producer → Prop
  | .readNextCount _ _ t x => x ≠ 0 → g.next t.ptr = x
  | .checkCount _ _ t x | .checkPtr _ _ t x => x.ptr ≠ 0 → g.next t.ptr = x.ptr
  | .swap _ _ t x => (x.ptr ≠ 0 → g.next t.ptr = x.ptr) ∧ (t.ptr ∈ g.head :: rest ∨ g.next t.ptr ≠ 0)
  | _ => True

/-- The head is the one the consumer has read, and the tail is past it if it was when that was read. -/
structure Past (g : Shape) (h t : Addr) : Prop where
  head : h = g.head
  tail : t ≠ g.head → g.tail ≠ g.head

/-- What follows the head is what the consumer has read. -/
structure Ahead (g : Shape) (h t x : Addr) : Prop extends Past g h t where
  next : x ≠ 0 → g.next g.head = x
  ne : t ≠ g.head → x ≠ 0

/-- The consumer may take the value. -/
structure Takes (g : Shape) (h x : Addr) (v : Option Item) : Prop where
  head : h = g.head
  tail : g.tail ≠ g.head
  next : g.next g.head = x
  ne : x ≠ 0
  val : v = g.val x

/-- The old head, to be freed, and the value taken, which the new head holds. -/
structure Gone (g : Shape) (rest : List Addr) (a : Addr) (v : Option Item) : Prop where
  used : a ∈ g.used
  out : a ∉ g.head :: rest
  next : g.next a ≠ 0
  val : v = g.val g.head

/-- What the consumer has read, and relies on. -/
def Sees (g : Shape) (rest : List Addr) : Consumer → Prop
  | .readHeadCount h => h = g.head
  | .readTailCount h | .readTailPtr h _ => h.ptr = g.head
  | .readNextCount h t | .readNextPtr h t _ => Past g h.ptr t.ptr
  | .checkCount h t x | .checkPtr h t x | .decide h t x => Ahead g h.ptr t.ptr x.ptr
  | .gotValue h x v => Takes g h.ptr x.ptr v
  | .moved h v => Gone g rest h.ptr v
  | .release a v => Gone g rest a v
  | .idle | .top | .swung _ => True

structure Sound (g : Shape) (rest : List Addr) (ps : ℕ → Producer) (k : Consumer) : Prop where
  ok : g.Ok rest
  own : ∀ p n i, own (ps p) = some (n, i) → Own g rest n i
  distinct : ∀ p q n i j, Chains.own (ps p) = some (n, i) → Chains.own (ps q) = some (n, j) → p = q
  seen : ∀ p, Seen g rest (ps p)
  sees : Sees g rest k

/-! ### The chain -/

theorem Shape.Ok.null (h : g.Ok rest) : 0 ∉ rest := fun h0 =>
  (h.used 0 (List.mem_cons_of_mem _ h0)).1 rfl

theorem Shape.Ok.head_ne (h : g.Ok rest) (hx : x ∈ rest) : x ≠ g.head := by
  rintro rfl
  exact (List.nodup_cons.mp h.nodup).1 hx

/-- If the tail is past the head, something follows the head. -/
theorem Shape.Ok.next_ne (h : g.Ok rest) (ht : g.tail ≠ g.head) : g.next g.head ≠ 0 :=
  h.chain.next_ne h.null ((List.mem_cons.mp h.tail).resolve_left ht)

/-! ### Steps that leave the shape alone -/

theorem Sound.move (h : Sound g rest ps k) (hp : Chains.own c = Chains.own (ps p))
    (hs : Seen g rest c) : Sound g rest (update ps p c) k := by
  have hown (q : ℕ) : Chains.own (update ps p c q) = Chains.own (ps q) := by
    by_cases hq : q = p
    · subst hq; rw [update_self, hp]
    · rw [update_of_ne hq]
  refine ⟨h.ok, fun q n i hq => h.own q n i (hown q ▸ hq), fun q q' n i j hq hq' =>
    h.distinct q q' n i j (hown q ▸ hq) (hown q' ▸ hq'), fun q => ?_, h.sees⟩
  by_cases hq : q = p
  · subst hq; rw [update_self]; exact hs
  · rw [update_of_ne hq]; exact h.seen q

theorem Sound.look {k' : Consumer} (h : Sound g rest ps k) (hs : Sees g rest k') :
    Sound g rest ps k' :=
  { h with sees := hs }

/-! ### A node is allocated -/

section Alloc
variable (ha : a ∉ g.used)

/-- The shape with a new node at `a`. -/
def Shape.alloc (g : Shape) (a : Addr) (i : Item) : Shape :=
  { g with next := update g.next a 0, val := update g.val a (some i), used := a :: g.used }

theorem next_alloc (hx : x ≠ a) : (g.alloc a i).next x = g.next x := update_of_ne hx _ _

theorem val_alloc (hx : x ≠ a) : (g.alloc a i).val x = g.val x := update_of_ne hx _ _

include ha

theorem ok_alloc (h : g.Ok rest) : (g.alloc a i).Ok rest where
  chain := h.chain.congr fun x hx => next_alloc fun he => ha (he ▸ (h.used x hx).2)
  nodup := h.nodup
  used x hx := ⟨(h.used x hx).1, List.mem_cons_of_mem _ (h.used x hx).2⟩
  tail := h.tail

theorem own_alloc (h : Own g rest n i') : Own (g.alloc a i) rest n i' := by
  have hne : n ≠ a := fun he => ha (he ▸ h.used)
  exact ⟨h.ne, List.mem_cons_of_mem _ h.used, h.fresh, (next_alloc hne).trans h.last,
    (val_alloc hne).trans h.val⟩

omit ha in
theorem seen_alloc (h : Seen g rest c) (hc : committed c ≠ some a) : Seen (g.alloc a i) rest c := by
  cases c with
  | readNextCount n j t x =>
    intro hx
    have hne : t.ptr ≠ a := fun he => hc (by simp [committed, hx, he])
    exact (next_alloc hne).trans (h hx)
  | checkCount n j t x | checkPtr n j t x =>
    intro hx
    have hne : t.ptr ≠ a := fun he => hc (by simp [committed, hx, he])
    exact (next_alloc hne).trans (h hx)
  | swap n j t x =>
    have hne : t.ptr ≠ a := fun he => hc (by simp [committed, he])
    exact ⟨fun hx => (next_alloc hne).trans (h.1 hx), by rw [next_alloc hne]; exact h.2⟩
  | _ => trivial

theorem sees_alloc (hok : g.Ok rest) (h : Sees g rest k) : Sees (g.alloc a i) rest k := by
  have hhead : g.head ≠ a := fun he => ha (he ▸ (hok.used g.head List.mem_cons_self).2)
  cases k with
  | checkCount | checkPtr | decide =>
    exact ⟨⟨h.head, h.tail⟩, fun hx => (next_alloc hhead).trans (h.next hx), h.ne⟩
  | gotValue hd x v =>
    have hx : x.ptr ≠ a := fun he => by
      have hm := hok.chain.next_mem List.mem_cons_self (h.next ▸ h.ne)
      rw [h.next, he] at hm
      exact ha (hok.used a (List.mem_cons_of_mem _ hm)).2
    exact ⟨h.head, h.tail, (next_alloc hhead).trans h.next, h.ne, h.val.trans (val_alloc hx).symm⟩
  | moved hd v =>
    have hne : hd.ptr ≠ a := fun he => ha (he ▸ h.used)
    exact ⟨List.mem_cons_of_mem _ h.used, h.out, by rw [next_alloc hne]; exact h.next,
      h.val.trans (val_alloc hhead).symm⟩
  | release b v =>
    have hne : b ≠ a := fun he => ha (he ▸ h.used)
    exact ⟨List.mem_cons_of_mem _ h.used, h.out, by rw [next_alloc hne]; exact h.next,
      h.val.trans (val_alloc hhead).symm⟩
  | readNextCount | readNextPtr => exact ⟨h.head, h.tail⟩
  | _ => exact h

theorem Sound.alloc (h : Sound g rest ps k) (h0 : a ≠ 0) 
    (hfree : ∀ q, committed (ps q) ≠ some a) :
    Sound (g.alloc a i) rest (update ps p (.top a i)) k := by
  have hnew (q : ℕ) (n : Addr) (j : Item) (hq : Chains.own (update ps p (.top a i) q) = some (n, j)) :
      q = p ∧ n = a ∧ j = i ∨ q ≠ p ∧ n ≠ a ∧ Chains.own (ps q) = some (n, j) := by
    by_cases hqp : q = p
    · subst hqp
      rw [update_self] at hq
      obtain ⟨rfl, rfl⟩ : a = n ∧ i = j := by simpa [Chains.own] using hq
      exact .inl ⟨rfl, rfl, rfl⟩
    · rw [update_of_ne hqp] at hq
      exact .inr ⟨hqp, fun he => ha (he ▸ (h.own q n j hq).used), hq⟩
  refine ⟨ok_alloc ha h.ok, fun q n j hq => ?_, fun q q' n j j' hq hq' => ?_, fun q => ?_,
    sees_alloc ha h.ok h.sees⟩
  · rcases hnew q n j hq with ⟨rfl, rfl, rfl⟩ | ⟨-, -, hq⟩
    · exact ⟨h0, List.mem_cons_self, fun hm => ha (h.ok.used n hm).2, update_self _ _ _,
        update_self _ _ _⟩
    · exact own_alloc ha (h.own q n j hq)
  · rcases hnew q n j hq with ⟨rfl, rfl, rfl⟩ | ⟨-, hn, hq⟩ <;>
      rcases hnew q' n j' hq' with ⟨rfl, hn', -⟩ | ⟨-, hn', hq'⟩
    · rfl
    · exact absurd rfl hn'
    · exact absurd hn' hn
    · exact h.distinct q q' n j j' hq hq'
  · by_cases hqp : q = p
    · subst hqp; rw [update_self]; trivial
    · rw [update_of_ne hqp]; exact seen_alloc (h.seen q) (hfree q)

end Alloc

/-! ### A node is linked -/

section Link
variable (ht : t ∈ g.head :: rest) (hz : g.next t = 0)

/-- The shape with `n` after `t`. -/
def Shape.link (g : Shape) (t n : Addr) : Shape := { g with next := update g.next t n }

/-- A node that is followed by another is not the one that gets the new node. -/
theorem next_link (hx : g.next x ≠ 0) (hz : g.next t = 0) : (g.link t n).next x = g.next x :=
  update_of_ne (by rintro rfl; exact hx hz) _ _

include ht hz

theorem ok_link (h : g.Ok rest) (ho : Own g rest n i) : (g.link t n).Ok (rest ++ [n]) where
  chain := h.chain.link h.nodup h.null ht hz ho.fresh ho.last
  nodup := by
    rw [← List.cons_append]
    refine List.nodup_append.mpr ⟨h.nodup, by simp, fun x hx y hy => ?_⟩
    obtain rfl := List.mem_singleton.mp hy
    exact fun he => ho.fresh (he ▸ hx)
  used x hx := by
    rw [← List.cons_append] at hx
    rcases List.mem_append.mp hx with hx | hx
    · exact h.used x hx
    · obtain rfl := List.mem_singleton.mp hx
      exact ⟨ho.ne, ho.used⟩
  tail := by
    rw [← List.cons_append]
    exact List.mem_append_left _ h.tail

theorem own_link (h : Own g rest x i) (hne : x ≠ n) : Own (g.link t n) (rest ++ [n]) x i where
  ne := h.ne
  used := h.used
  fresh hx := by
    rw [← List.cons_append] at hx
    rcases List.mem_append.mp hx with hx | hx
    · exact h.fresh hx
    · exact hne (List.mem_singleton.mp hx)
  last := by
    have hxt : x ≠ t := by rintro rfl; exact h.fresh ht
    exact (update_of_ne hxt _ _).trans h.last
  val := h.val

omit ht in
theorem seen_link (h : Seen g rest c) : Seen (g.link t n) (rest ++ [n]) c := by
  cases c with
  | readNextCount m j y x => exact fun hx => (next_link ((h hx) ▸ hx) hz).trans (h hx)
  | checkCount m j y x | checkPtr m j y x => exact fun hx => (next_link ((h hx) ▸ hx) hz).trans (h hx)
  | swap m j y x =>
    refine ⟨fun hx => (next_link ((h.1 hx) ▸ hx) hz).trans (h.1 hx), ?_⟩
    rcases h.2 with hy | hy
    · exact .inl (by rw [← List.cons_append]; exact List.mem_append_left _ hy)
    · exact .inr (by rw [next_link hy hz]; exact hy)
  | _ => trivial

omit ht in
theorem sees_link (h : Sees g rest k) (ho : Own g rest n i) : Sees (g.link t n) (rest ++ [n]) k := by
  have hgone {b : Addr} {v : Option Item} (hg : Gone g rest b v) : Gone (g.link t n) (rest ++ [n]) b v := by
    refine ⟨hg.used, fun hb => ?_, by rw [next_link hg.next hz]; exact hg.next, hg.val⟩
    rw [← List.cons_append] at hb
    rcases List.mem_append.mp hb with hb | hb
    · exact hg.out hb
    · obtain rfl := List.mem_singleton.mp hb
      exact hg.next ho.last
  cases k with
  | checkCount | checkPtr | decide =>
    exact ⟨⟨h.head, h.tail⟩, fun hx => (next_link ((h.next hx) ▸ hx) hz).trans (h.next hx), h.ne⟩
  | gotValue hd x v =>
    exact ⟨h.head, h.tail, (next_link (h.next ▸ h.ne) hz).trans h.next, h.ne, h.val⟩
  | moved | release => exact hgone h
  | readNextCount | readNextPtr => exact ⟨h.head, h.tail⟩
  | _ => exact h

theorem Sound.link (h : Sound g rest ps k) (hp : Chains.own (ps p) = some (n, i)) {y : Addr} {m : Count} :
    Sound (g.link t n) (rest ++ [n]) (update ps p (.linked i y m)) k := by
  have ho := h.own p n i hp
  have hold (q : ℕ) (x : Addr) (j : Item) (hq : Chains.own (update ps p (.linked i y m) q) = some (x, j)) :
      q ≠ p ∧ Chains.own (ps q) = some (x, j) := by
    by_cases hqp : q = p
    · subst hqp; simp [Chains.own] at hq
    · exact ⟨hqp, by rwa [update_of_ne hqp] at hq⟩
  refine ⟨ok_link ht hz h.ok ho, fun q x j hq => ?_, fun q q' x j j' hq hq' =>
    h.distinct q q' x j j' (hold q x j hq).2 (hold q' x j' hq').2, fun q => ?_, sees_link hz h.sees ho⟩
  · obtain ⟨hqp, hq⟩ := hold q x j hq
    refine own_link ht hz (h.own q x j hq) ?_
    rintro rfl
    exact hqp (h.distinct q p x j i hq hp)
  · by_cases hqp : q = p
    · subst hqp; rw [update_self]; trivial
    · rw [update_of_ne hqp]; exact seen_link hz (h.seen q)

end Link

/-! ### The tail moves, the head moves, a node is freed -/

/-- The tail moves to the node after it. -/
theorem Sound.swing (h : Sound g rest ps k) (hx : g.next g.tail = x) (h0 : x ≠ 0) :
    Sound { g with tail := x } rest ps k := by
  have hm : x ∈ rest := hx ▸ h.ok.chain.next_mem h.ok.tail (hx ▸ h0)
  have hne : x ≠ g.head := h.ok.head_ne hm
  refine ⟨⟨h.ok.chain, h.ok.nodup, h.ok.used, List.mem_cons_of_mem _ hm⟩, fun q n i hq => ?_,
    h.distinct, fun q => ?_, ?_⟩
  · have ho := h.own q n i hq
    exact ⟨ho.ne, ho.used, ho.fresh, ho.last, ho.val⟩
  · have hs := h.seen q
    cases hc : ps q <;> rw [hc] at hs <;> exact hs
  · have hs := h.sees
    cases k with
    | readNextCount | readNextPtr => exact ⟨hs.head, fun _ => hne⟩
    | checkCount | checkPtr | decide => exact ⟨⟨hs.head, fun _ => hne⟩, hs.next, hs.ne⟩
    | gotValue => exact ⟨hs.head, hne, hs.next, hs.ne, hs.val⟩
    | moved | release => exact ⟨hs.used, hs.out, hs.next, hs.val⟩
    | _ => exact hs

/-- The consumer moves the head on to the node with the value it has read. -/
theorem Sound.advance {v : Option Item} {hd y : Pointer} (h : Sound g (x :: rest) ps (.gotValue hd y v))
    (hxy : x = y.ptr) : Sound { g with head := x } rest ps (.moved hd v) := by
  have hs := h.sees
  have hnx : g.next g.head ≠ 0 := h.ok.next_ne hs.tail
  have hsub : ∀ b ∈ x :: rest, b ∈ g.head :: x :: rest := fun b hb => List.mem_cons_of_mem _ hb
  refine ⟨⟨h.ok.chain.2, (List.nodup_cons.mp h.ok.nodup).2, fun b hb => h.ok.used b (hsub b hb),
    (List.mem_cons.mp h.ok.tail).resolve_left hs.tail⟩, fun q n i hq => ?_, h.distinct, fun q => ?_, ?_⟩
  · have ho := h.own q n i hq
    exact ⟨ho.ne, ho.used, fun hb => ho.fresh (hsub n hb), ho.last, ho.val⟩
  · have hq := h.seen q
    cases hc : ps q with
    | swap n i t z =>
      rw [hc] at hq
      refine ⟨hq.1, ?_⟩
      rcases hq.2 with ht | ht
      · rcases List.mem_cons.mp ht with ht | ht
        · exact .inr (by rw [ht]; exact hnx)
        · exact .inl ht
      · exact .inr ht
    | _ => rw [hc] at hq; exact hq
  · have hhd : hd.ptr = g.head := hs.head
    refine ⟨hhd ▸ (h.ok.used g.head List.mem_cons_self).2, hhd ▸ (List.nodup_cons.mp h.ok.nodup).1,
      hhd ▸ hnx, ?_⟩
    rw [hxy]
    exact hs.val

/-- The consumer frees the old head. -/
theorem Sound.free {v : Option Item} (h : Sound g rest ps (.release a v)) :
    Sound { g with used := g.used.erase a } rest ps .idle := by
  have hs := h.sees
  have herase {b : Addr} (hb : b ∈ g.used) (hne : b ≠ a) : b ∈ g.used.erase a :=
    (List.mem_erase_of_ne hne).mpr hb
  refine ⟨⟨h.ok.chain, h.ok.nodup, fun b hb => ⟨(h.ok.used b hb).1, herase (h.ok.used b hb).2 ?_⟩,
    h.ok.tail⟩, fun q n i hq => ?_, h.distinct, fun q => ?_, trivial⟩
  · rintro rfl
    exact hs.out hb
  · have ho := h.own q n i hq
    refine ⟨ho.ne, herase ho.used ?_, ho.fresh, ho.last, ho.val⟩
    rintro rfl
    exact hs.next ho.last
  · have hq := h.seen q
    cases hc : ps q <;> rw [hc] at hq <;> exact hq

end StNvs.LockFree.Chains
