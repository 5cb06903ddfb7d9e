import StNvs.LockFree.Model

/-! # The lock-free queue, call by call

`_st_lock_free_enqueue` and `_st_lock_free_dequeue` when no two calls overlap. A call is its rounds; a
read or a store at an address that is not allocated ends it with `none`, and so does running out of
rounds. An enqueue links its node and leaves the tail where it was, one behind, so that the next call has
to move it first.

* `Ok`: the nodes in use are a chain from the head, and the tail is the last of them or the one before.
* `enqueue_spec`, `dequeue_spec`: what a call does, in two rounds.
* `queue_representation`: so after every sequence of calls. -/

namespace StNvs.LockFree.Calls

open StNvs.Lib.Links StNvs.LockFree.Model Function

/-! ### The calls -/

/-- Memory, the addresses in use, and `st_queue_t`. -/
structure Queue where
  mem : Addr → Node
  allocated : List Addr
  head : Pointer
  tail : Pointer

/-- A loop: `f` is its body, with what it returns if the loop ends there. -/
def rounds {ρ : Type} (f : Queue → Option (Option ρ × Queue)) : ℕ → Queue → Option (ρ × Queue)
  | 0, _ => none
  | n + 1, q => (f q).bind fun (r, q) => r.elim (rounds f n q) fun r => some (r, q)

namespace Queue

def read (a : Addr) (q : Queue) : Option Node := if a ∈ q.allocated then some (q.mem a) else none

/-- `cas(&tail.ptr->next, compare, value)`. -/
def casNext (a : Addr) (compare value : Pointer) (q : Queue) : Option (Bool × Queue) :=
  (q.read a).map fun n =>
    if n.next.ptr = compare.ptr then (true, { q with mem := update q.mem a { n with next := value } })
    else (false, q)

/-- `cas(&queue->tail, compare, value)`. -/
def casTail (compare value : Pointer) (q : Queue) : Bool × Queue :=
  if q.tail.ptr = compare.ptr then (true, { q with tail := value }) else (false, q)

/-- `cas(&queue->head, compare, value)`. -/
def casHead (compare value : Pointer) (q : Queue) : Bool × Queue :=
  if q.head.ptr = compare.ptr then (true, { q with head := value }) else (false, q)

/-- One round of `_st_lock_free_enqueue` with its node. -/
def enqueueRound (node : Addr) (q : Queue) : Option (Option Unit × Queue) := do
  let tail := q.tail
  let next ← if tail.ptr = 0 then some ⟨0, 0⟩ else (q.read tail.ptr).map Node.next
  if tail.count = q.tail.count ∧ tail.ptr = q.tail.ptr then
    if next.ptr = 0 then
      let (done, q) ← q.casNext tail.ptr next ⟨node, next.count + 1⟩
      some (if done then some () else none, q)
    else some (none, (q.casTail tail ⟨next.ptr, tail.count + 1 + 1⟩).2)
  else some (none, q)

/-- One round of `_st_lock_free_dequeue`: it ends with nothing, or with the old head and the value. -/
def dequeueRound (q : Queue) : Option (Option (Option (Addr × Option Item)) × Queue) := do
  let head := q.head
  let tail := q.tail
  if head.ptr = 0 then some (some none, q)
  else
    let next ← (q.read head.ptr).map Node.next
    if head.count = q.head.count ∧ head.ptr = q.head.ptr then
      if head.ptr = tail.ptr then
        if next.ptr = 0 then some (some none, q)
        else some (none, (q.casTail tail ⟨next.ptr, tail.count + 1⟩).2)
      else
        let value ← (q.read next.ptr).map Node.value
        let (done, q) := q.casHead head ⟨next.ptr, head.count + 1⟩
        some (if done then some (some (head.ptr, value)) else none, q)
    else some (none, q)

/-- `calloc` returns `a`, and the value is stored in the node. -/
def allocate (a : Addr) (i : Item) (q : Queue) : Queue :=
  { q with mem := update q.mem a ⟨some i, ⟨0, 0⟩⟩, allocated := a :: q.allocated }

/-- `free`. -/
def free (a : Addr) (q : Queue) : Queue := { q with allocated := q.allocated.erase a }

/-- `_st_lock_free_enqueue`, with at most `n` rounds. -/
def enqueue (n : ℕ) (a : Addr) (i : Item) (q : Queue) : Option Queue :=
  (rounds (enqueueRound a) n (q.allocate a i)).map Prod.snd

/-- `_st_lock_free_dequeue`, with at most `n` rounds: `none` where it returns 0, and the value where it
returns 1. -/
def dequeue (n : ℕ) (q : Queue) : Option (Option (Option Item) × Queue) :=
  (rounds dequeueRound n q).map fun (r, q) =>
    match r with
    | none => (none, q)
    | some (head, value) => (some value, q.free head)

/-- `_st_lock_free_queue_open`, with the first node at `a`. -/
def opened (a : Addr) : Queue :=
  { mem := fun _ => ⟨none, ⟨0, 0⟩⟩, allocated := [a], head := ⟨a, 0⟩, tail := ⟨a, 0⟩ }

/-- The links. -/
def next (q : Queue) (a : Addr) : Addr := (q.mem a).next.ptr

end Queue

/-- The queues after a sequence of calls, each with what should be in it. -/
inductive Reached : Queue → List Item → Prop
  | opened (a : Addr) (ha : a ≠ 0) : Reached (.opened a) []
  | enqueue {q q' : Queue} {l : List Item} (n : ℕ) (a : Addr) (i : Item) (h : Reached q l) (ha : a ≠ 0)
    (hfresh : a ∉ q.allocated) (hq : q.enqueue n a i = some q') : Reached q' (l ++ [i])
  | dequeue {q q' : Queue} {l : List Item} {r : Option (Option Item)} (n : ℕ) (h : Reached q l)
    (hq : q.dequeue n = some (r, q')) : Reached q' l.tail

/-! ### The shape -/

/-- The nodes in use are those of `extra` and a chain from the head through `rest`; the tail is the last
node of the chain, or the one before. -/
structure Ok (extra rest : List Addr) (q : Queue) : Prop where
  chain : Chain 0 q.next q.head.ptr rest
  used : q.allocated.Perm (extra ++ q.head.ptr :: rest)
  nodup : (extra ++ q.head.ptr :: rest).Nodup
  ne : 0 ∉ extra ++ q.head.ptr :: rest
  tail : ∃ l₁ l₂, q.head.ptr :: rest = l₁ ++ q.tail.ptr :: l₂ ∧ l₂.length ≤ 1

/-- The values in the nodes after the first. -/
def Queue.values (q : Queue) (rest : List Addr) : List (Option Item) := rest.map fun a => (q.mem a).value

/-- The queue with `a` linked after the tail. -/
def Queue.linked (a : Addr) (c : Count) (q : Queue) : Queue :=
  { q with mem := update q.mem q.tail.ptr { q.mem q.tail.ptr with next := ⟨a, c⟩ } }

variable {q q' : Queue} {extra rest l₁ l₂ : List Addr} {a x : Addr} {c : Count} {i : Item} {n : ℕ}
  {l : List Item}

theorem read_of_mem (h : a ∈ q.allocated) : q.read a = some (q.mem a) := if_pos h

theorem Ok.mem_allocated (h : Ok extra rest q) (ha : a ∈ q.head.ptr :: rest) : a ∈ q.allocated :=
  h.used.mem_iff.2 (List.mem_append_right _ ha)

theorem Ok.ne_zero (h : Ok extra rest q) (ha : a ∈ q.head.ptr :: rest) : a ≠ 0 := fun he =>
  h.ne (List.mem_append_right _ (he ▸ ha))

theorem Ok.tail_mem (h : Ok extra rest q) : q.tail.ptr ∈ q.head.ptr :: rest := by
  obtain ⟨l₁, l₂, he, -⟩ := h.tail
  rw [he]
  simp

/-- The tail moves to the last node. -/
theorem Ok.swing (h : Ok extra rest q) (he : q.head.ptr :: rest = l₁ ++ [q.tail.ptr, x]) :
    Ok extra rest { q with tail := ⟨x, c⟩ } where
  chain := h.chain
  used := h.used
  nodup := h.nodup
  ne := h.ne
  tail := ⟨l₁ ++ [q.tail.ptr], [], by simp [he], Nat.zero_le _⟩

/-- The node that is not in the chain yet is linked at its end. -/
theorem Ok.link (h : Ok [a] rest q) (ha : q.next a = 0) (he : q.head.ptr :: rest = l₁ ++ [q.tail.ptr]) :
    Ok [] (rest ++ [a]) (q.linked a c) := by
  have hnd := List.nodup_cons.1 h.nodup
  have hnext : q.next q.tail.ptr = 0 := h.chain.next_of_split he
  have hmem : ∀ y, (update q.mem q.tail.ptr { q.mem q.tail.ptr with next := ⟨a, c⟩ } y).next.ptr =
      update q.next q.tail.ptr a y := fun y => by
    by_cases hy : y = q.tail.ptr
    · rw [hy, update_self, update_self]
    · rw [update_of_ne hy, update_of_ne hy]
      rfl
  have hperm : (q.head.ptr :: (rest ++ [a])).Perm ([a] ++ q.head.ptr :: rest) :=
    (List.perm_append_comm : (q.head.ptr :: rest ++ [a]).Perm _)
  refine ⟨?_, h.used.trans hperm.symm, hperm.nodup_iff.2 h.nodup, fun h0 => h.ne (hperm.mem_iff.1 h0),
    l₁, [a], ?_, Nat.le_refl _⟩
  · refine Chain.congr (h.chain.link hnd.2 ?_ h.tail_mem hnext hnd.1 ha) fun y _ => hmem y
    exact fun h0 => h.ne (List.mem_append_right _ (List.mem_cons_of_mem _ h0))
  · change (q.head.ptr :: rest) ++ [a] = _
    rw [he, List.append_assoc]
    rfl

theorem values_link (hv : q.values rest = l.map some)
    (hi : (q.mem a).value = some i) : (q.linked a c).values (rest ++ [a]) = (l ++ [i]).map some := by
  have hval : ∀ y, (update q.mem q.tail.ptr { q.mem q.tail.ptr with next := ⟨a, c⟩ } y).value =
      (q.mem y).value := fun y => by
    by_cases hy : y = q.tail.ptr
    · rw [hy, update_self]
    · rw [update_of_ne hy]
  unfold Queue.values at hv ⊢
  simp only [Queue.linked, hval, List.map_append, hv, List.map_cons, List.map_nil, hi]

/-- A node that was not in use. -/
theorem Ok.allocate (h : Ok [] rest q) (ha : a ≠ 0) (hfresh : a ∉ q.allocated) :
    Ok [a] rest (q.allocate a i) := by
  have hnot : a ∉ q.head.ptr :: rest := fun hm => hfresh (h.mem_allocated hm)
  refine ⟨?_, h.used.cons a, List.nodup_cons.2 ⟨hnot, h.nodup⟩, ?_, h.tail⟩
  · refine h.chain.congr fun y hy => ?_
    have hya : y ≠ a := fun he => hnot (he ▸ hy)
    simp only [Queue.next, Queue.allocate, update_of_ne hya]
  · exact List.not_mem_cons_of_ne_of_not_mem (Ne.symm ha) h.ne

theorem values_allocate (h : Ok [] rest q) (hfresh : a ∉ q.allocated) :
    (q.allocate a i).values rest = q.values rest := by
  refine List.map_congr_left fun y hy => ?_
  have hya : y ≠ a := fun he => hfresh (h.mem_allocated (he ▸ List.mem_cons_of_mem _ hy))
  simp only [Queue.allocate, update_of_ne hya]

/-- The head moves to the node after it, and the old one is freed. -/
theorem Ok.advance (h : Ok [] (x :: rest) q) (hne : q.head.ptr ≠ q.tail.ptr) :
    Ok [] rest (Queue.free q.head.ptr { q with head := ⟨x, c⟩ }) where
  chain := by
    have hx := h.chain.2
    exact hx
  used := by
    have hx := h.used.erase q.head.ptr
    rwa [List.nil_append, List.erase_cons_head] at hx
  nodup := (List.nodup_cons.1 h.nodup).2
  ne h0 := h.ne (List.mem_cons_of_mem _ h0)
  tail := by
    obtain ⟨l₁, l₂, he, hl⟩ := h.tail
    cases l₁ with
    | nil => exact absurd (List.cons.inj he).1 hne
    | cons y l₁ => exact ⟨l₁, l₂, (List.cons.inj he).2, hl⟩

/-! ### The rounds -/

theorem rounds_mono {ρ : Type} {f : Queue → Option (Option ρ × Queue)} : ∀ {n m : ℕ} {q : Queue} {r : ρ × Queue},
    rounds f n q = some r → n ≤ m → rounds f m q = some r
  | 0, _, _, _, h, _ => by cases h
  | n + 1, m + 1, q, r, h, hm => by
    unfold rounds at h ⊢
    obtain ⟨⟨d, q'⟩, hf, hr⟩ := Option.bind_eq_some_iff.1 h
    rw [hf, Option.bind_some]
    cases d with
    | none => exact rounds_mono hr (Nat.le_of_succ_le_succ hm)
    | some d => exact hr

/-- A round that goes on, and one that ends. -/
theorem rounds_next {ρ : Type} {f : Queue → Option (Option ρ × Queue)} (h : f q = some (none, q')) :
    rounds f (n + 1) q = rounds f n q' := by
  rw [rounds, h]
  rfl

theorem rounds_done {ρ : Type} {f : Queue → Option (Option ρ × Queue)} {r : ρ} (h : f q = some (some r, q')) :
    rounds f (n + 1) q = some (r, q') := by
  rw [rounds, h]
  rfl

/-- The tail is the last node, and gets a new one as its next. -/
theorem enqueueRound_link (h : Ok extra rest q) (he : q.head.ptr :: rest = l₁ ++ [q.tail.ptr]) :
    q.enqueueRound a = some (some (), q.linked a ((q.mem q.tail.ptr).next.count + 1)) := by
  have hnext : (q.mem q.tail.ptr).next.ptr = 0 := h.chain.next_of_split he
  have hread := read_of_mem (h.mem_allocated h.tail_mem)
  simp [Queue.enqueueRound, Queue.casNext, Queue.linked, h.ne_zero h.tail_mem, hread, hnext]

/-- The tail is one behind, and moves. -/
theorem enqueueRound_swing (h : Ok extra rest q) (he : q.head.ptr :: rest = l₁ ++ [q.tail.ptr, x]) :
    q.enqueueRound a = some (none, { q with tail := ⟨x, q.tail.count + 1 + 1⟩ }) := by
  have hnext : (q.mem q.tail.ptr).next.ptr = x := h.chain.next_of_split he
  have hx : x ≠ 0 := h.ne_zero (by simp [he])
  have hread := read_of_mem (h.mem_allocated h.tail_mem)
  simp [Queue.enqueueRound, Queue.casTail, h.ne_zero h.tail_mem, hread, hnext, hx]

/-- **Enqueue** appends its value, in two rounds at most. -/
theorem enqueue_spec (h : Ok [] rest q) (hv : q.values rest = l.map some) (ha : a ≠ 0)
    (hfresh : a ∉ q.allocated) : ∃ q', q.enqueue (n + 2) a i = some q' ∧ Ok [] (rest ++ [a]) q' ∧
      q'.values (rest ++ [a]) = (l ++ [i]).map some := by
  have hal := h.allocate (i := i) ha hfresh
  have hval : (q.allocate a i).values rest = l.map some := by rw [values_allocate h hfresh, hv]
  have hnew : ((q.allocate a i).mem a).value = some i := by simp [Queue.allocate]
  have hlast : (q.allocate a i).next a = 0 := by simp [Queue.allocate, Queue.next]
  unfold Queue.enqueue
  generalize q.allocate a i = q at hal hval hnew hlast
  obtain ⟨l₁, l₂, he, hlen⟩ := hal.tail
  match l₂, hlen with
  | [], _ =>
    rw [rounds_done (enqueueRound_link hal he)]
    exact ⟨_, rfl, hal.link hlast he, values_link hval hnew⟩
  | [x], _ =>
    have hsw := hal.swing (c := q.tail.count + 1 + 1) he
    have he' : q.head.ptr :: rest = (l₁ ++ [q.tail.ptr]) ++ [x] := by simp [he]
    rw [rounds_next (enqueueRound_swing hal he), rounds_done (enqueueRound_link hsw he')]
    exact ⟨_, rfl, hsw.link hlast he', values_link hval hnew⟩

/-- The head is the tail, and the last node. -/
theorem dequeueRound_empty (h : Ok [] [] q) : q.dequeueRound = some (some none, q) := by
  have hmem : q.head.ptr ∈ [q.head.ptr] := List.mem_singleton.2 rfl
  have htail : q.tail.ptr = q.head.ptr := List.mem_singleton.1 h.tail_mem
  have hnext : (q.mem q.head.ptr).next.ptr = 0 := h.chain
  have hread := read_of_mem (h.mem_allocated hmem)
  simp [Queue.dequeueRound, h.ne_zero hmem, hread, htail, hnext]

/-- The head is the tail, which is one behind, and moves. -/
theorem dequeueRound_swing (h : Ok [] (x :: rest) q) (ht : q.tail.ptr = q.head.ptr) :
    q.dequeueRound = some (none, { q with tail := ⟨x, q.tail.count + 1⟩ }) := by
  have hmem : q.head.ptr ∈ q.head.ptr :: x :: rest := List.mem_cons_self
  have hnext : (q.mem q.head.ptr).next.ptr = x := h.chain.1
  have hx : x ≠ 0 := h.ne_zero (by simp)
  have hread := read_of_mem (h.mem_allocated hmem)
  simp [Queue.dequeueRound, Queue.casTail, h.ne_zero hmem, hread, ht, hnext, hx]

/-- The tail is further on: the value is read and the head moves. -/
theorem dequeueRound_take (h : Ok [] (x :: rest) q) (ht : q.head.ptr ≠ q.tail.ptr) :
    q.dequeueRound = some (some (some (q.head.ptr, (q.mem x).value)),
      { q with head := ⟨x, q.head.count + 1⟩ }) := by
  have hmem : q.head.ptr ∈ q.head.ptr :: x :: rest := List.mem_cons_self
  have hnext : (q.mem q.head.ptr).next.ptr = x := h.chain.1
  have hread := read_of_mem (h.mem_allocated hmem)
  have hread' := read_of_mem (h.mem_allocated (a := x) (by simp))
  simp [Queue.dequeueRound, Queue.casHead, h.ne_zero hmem, hread, ht, hnext, hread']

/-- The call that ends with such a round. -/
theorem dequeue_take (h : Ok [] (x :: rest) q) (ht : q.head.ptr ≠ q.tail.ptr)
    (hv : q.values (x :: rest) = l.map some) : ∃ q',
    (rounds Queue.dequeueRound (n + 1) q).map (fun (r, q) =>
      match r with
      | none => (none, q)
      | some (head, value) => (some value, q.free head)) = some (l.head?.map some, q') ∧
      Ok [] rest q' ∧ q'.values rest = l.tail.map some := by
  rw [rounds_done (dequeueRound_take h ht)]
  obtain ⟨i, l, rfl⟩ : ∃ i l', l = i :: l' := by
    cases l with
    | nil => simp [Queue.values] at hv
    | cons i l => exact ⟨i, l, rfl⟩
  obtain ⟨hi, hv⟩ := List.cons.inj hv
  have hx : (q.mem x).value = some i := hi
  exact ⟨_, by rw [hx]; rfl, h.advance ht, hv⟩

/-- **Dequeue** takes the first value, if there is one, in two rounds at most. -/
theorem dequeue_spec (h : Ok [] rest q) (hv : q.values rest = l.map some) : ∃ q' rest',
    q.dequeue (n + 2) = some (l.head?.map some, q') ∧ Ok [] rest' q' ∧
      q'.values rest' = l.tail.map some := by
  unfold Queue.dequeue
  cases rest with
  | nil =>
    obtain rfl : l = [] := by simpa [Queue.values] using hv.symm
    rw [rounds_done (dequeueRound_empty h)]
    exact ⟨q, [], rfl, h, hv⟩
  | cons x rest =>
    by_cases ht : q.head.ptr = q.tail.ptr
    · -- the tail is at the head, so there is one node after it
      have hx : x ≠ q.head.ptr := fun he => (List.nodup_cons.1 h.nodup).1 (by simp [he])
      obtain ⟨l₁, l₂, he, hlen⟩ := h.tail
      have hl₁ : l₁ = [] := by
        cases l₁ with
        | nil => rfl
        | cons y l₁ =>
          obtain ⟨-, he⟩ := List.cons.inj he
          exact absurd (by rw [he, ← ht]; simp) (List.nodup_cons.1 h.nodup).1
      subst hl₁
      obtain rfl : rest = [] := by
        obtain ⟨-, rfl⟩ := List.cons.inj he
        simpa using hlen
      have hsw := h.swing (c := q.tail.count + 1) (by rw [ht]; rfl : q.head.ptr :: [x] = [] ++ [q.tail.ptr, x])
      rw [rounds_next (dequeueRound_swing h ht.symm)]
      obtain ⟨q', hq', hok, hv'⟩ := dequeue_take (n := n) hsw (Ne.symm hx) hv
      exact ⟨q', [], hq', hok, hv'⟩
    · obtain ⟨q', hq', hok, hv'⟩ := dequeue_take (n := n + 1) h ht hv
      exact ⟨q', rest, hq', hok, hv'⟩

/-! ### The sequences of calls -/

/-- A queue with the values `l` in it, on which the next call goes through in two rounds. -/
structure Represents (q : Queue) (l : List Item) : Prop where
  shape : ∃ rest, Ok [] rest q ∧ q.values rest = l.map some
  enqueue : ∀ a i n, a ≠ 0 → a ∉ q.allocated → 2 ≤ n → ∃ q', q.enqueue n a i = some q'
  dequeue : ∀ n, 2 ≤ n → ∃ q', q.dequeue n = some (l.head?.map some, q')

theorem shape_opened (ha : a ≠ 0) : Ok [] [] (.opened a) where
  chain := rfl
  used := .refl _
  nodup := by simp
  ne h := ha (List.mem_singleton.1 h).symm
  tail := ⟨[], [], rfl, Nat.zero_le _⟩

theorem shape_reached (h : Reached q l) : ∃ rest, Ok [] rest q ∧ q.values rest = l.map some := by
  induction h with
  | opened a ha => exact ⟨[], shape_opened ha, rfl⟩
  | enqueue n a i _ ha hfresh hq ih =>
    obtain ⟨rest, hok, hv⟩ := ih
    obtain ⟨q'', hq'', hok', hv'⟩ := enqueue_spec (n := n) (i := i) hok hv ha hfresh
    obtain ⟨r, hr, rfl⟩ := Option.map_eq_some_iff.1 hq
    rw [Queue.enqueue, rounds_mono hr (Nat.le_add_right n 2)] at hq''
    obtain rfl := Option.some.inj hq''
    exact ⟨_, hok', hv'⟩
  | dequeue n _ hq ih =>
    obtain ⟨rest, hok, hv⟩ := ih
    obtain ⟨q'', rest', hq'', hok', hv'⟩ := dequeue_spec (n := n) hok hv
    obtain ⟨r, hr, he⟩ := Option.map_eq_some_iff.1 hq
    rw [Queue.dequeue, rounds_mono hr (Nat.le_add_right n 2), Option.map_some, he] at hq''
    obtain ⟨-, rfl⟩ := Prod.mk.inj (Option.some.inj hq'')
    exact ⟨rest', hok', hv'⟩

/-- **The representation** after every sequence of calls. -/
theorem queue_representation (h : Reached q l) : Represents q l where
  shape := shape_reached h
  enqueue a i n ha hfresh hn := by
    obtain ⟨rest, hok, hv⟩ := shape_reached h
    obtain ⟨m, rfl⟩ := Nat.exists_eq_add_of_le' hn
    obtain ⟨q', hq', -⟩ := enqueue_spec (n := m) (i := i) hok hv ha hfresh
    exact ⟨q', hq'⟩
  dequeue n hn := by
    obtain ⟨rest, hok, hv⟩ := shape_reached h
    obtain ⟨m, rfl⟩ := Nat.exists_eq_add_of_le' hn
    obtain ⟨q', -, hq', -⟩ := dequeue_spec (n := m) hok hv
    exact ⟨q', hq'⟩

/-- Two values are put in, the second of which finds the tail behind and moves it, and one is taken out. -/
theorem queue_representation_repaired : ∃ q₁ q₂ q₃, (Queue.opened 1).enqueue 2 2 ⟨5, 0, 0⟩ = some q₁ ∧
    q₁.tail.ptr = 1 ∧ q₁.enqueue 2 3 ⟨6, 0, 0⟩ = some q₂ ∧ q₂.tail.ptr = 2 ∧
    q₂.dequeue 2 = some (some (some ⟨5, 0, 0⟩), q₃) ∧ Represents q₃ [⟨6, 0, 0⟩] :=
  ⟨_, _, _, rfl, rfl, rfl, rfl, rfl, queue_representation (.dequeue 2
    (.enqueue 2 3 ⟨6, 0, 0⟩ (.enqueue 2 2 ⟨5, 0, 0⟩ (.opened 1 (by decide)) (by decide) (by decide) rfl)
      (by decide) (by decide) rfl) rfl)⟩

end StNvs.LockFree.Calls
