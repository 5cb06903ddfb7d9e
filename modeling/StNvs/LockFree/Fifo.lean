import StNvs.LockFree.Chains
import Mathlib.Data.List.Nodup

/-! # Nothing lost, nothing twice, in order

`contents s rest` are the values dequeue has returned, the one it is about to return, and those in the
queue. In a run in which `calloc` does not reuse the address of a node that a producer is about to compare
with (`NoReuse`), they are, for each producer, those of its calls `0, 1, …` that have linked their node
(`Books`). So dequeue returns each value once at most, in the order of its producer's calls, and a value
whose enqueue has returned is in the queue until then (`fifo`). When an address is reused too early, a
value can be linked to a node that is not in the queue (`lost_node`). -/

namespace StNvs.LockFree.Fifo

open StNvs.Lib.Runs StNvs.Lib.Links StNvs.Sched.Sleep StNvs.LockFree.Model StNvs.LockFree.Chains Function

/-- `calloc` does not return the address of a node that a producer is about to compare with. -/
def NoReuse (s : Sys) : Step → Prop
  | .enqueue _ _ a => ∀ q ∈ s.busy, committed (s.prod q) ≠ some a
  | _ => True

/-- The numbers of the calls of `p` that the values come from. -/
def nums (p : ℕ) (l : List (Option Item)) : List ℕ :=
  l.filterMap fun v => v.bind fun i => if i.producer = p then some i.num else none

/-- The value the consumer has taken and not returned. -/
def taken : Consumer → List (Option Item)
  | .moved _ v | .release _ v => [v]
  | _ => []

/-- The values returned, the one about to be, and those in the queue. -/
def contents (s : Sys) (rest : List Addr) : List (Option Item) :=
  dequeued s.trace ++ (taken s.cons ++ rest.map (shape s).val)

/-- The values are those of the calls that have linked their node, in order. -/
structure Books (l : List (Option Item)) (ps : ℕ → Producer) (calls : ℕ → ℕ) (tr : List Event) :
    Prop where
  order : ∀ p, nums p l ++ ((own (ps p)).map fun x => x.2.num).toList = List.range (calls p)
  producer : ∀ p n i, own (ps p) = some (n, i) → i.producer = p
  linked : ∀ p i a c, ps p = .linked i a c → some i ∈ l
  done : ∀ i ∈ enqueued tr, some i ∈ l

structure Inv (s : Sys) (rest : List Addr) : Prop where
  sound : Sound (shape s) rest s.prod s.cons
  books : Books (contents s rest) s.prod s.calls s.trace
  busy : ∀ p, s.prod p ≠ .idle → p ∈ s.busy

variable {s : Sys} {rest : List Addr} {p : ℕ} {c : Producer} {l : List (Option Item)} {ps : ℕ → Producer}
  {calls : ℕ → ℕ} {tr : List Event} {n : Addr} {i : Item} {t x : Pointer}

/-! ### The books -/

theorem Books.move (h : Books l ps calls tr) (hc : own c = own (ps p))
    (hl : ∀ i a m, c = .linked i a m → some i ∈ l) : Books l (update ps p c) calls tr := by
  have hown (q : ℕ) : own (update ps p c q) = own (ps q) := by
    by_cases hq : q = p
    · subst hq; rw [update_self, hc]
    · rw [update_of_ne hq]
  refine ⟨fun q => hown q ▸ h.order q, fun q n i hq => h.producer q n i (hown q ▸ hq),
    fun q i a m hq => ?_, h.done⟩
  by_cases hqp : q = p
  · subst hqp; rw [update_self] at hq; exact hl i a m hq
  · rw [update_of_ne hqp] at hq; exact h.linked q i a m hq

theorem nums_append (p : ℕ) (l l' : List (Option Item)) : nums p (l ++ l') = nums p l ++ nums p l' :=
  List.filterMap_append

theorem nums_singleton (p : ℕ) (i : Item) :
    nums p [some i] = if i.producer = p then [i.num] else [] := by
  by_cases h : i.producer = p <;> simp [nums, h]

/-- A new call. -/
theorem Books.call (h : Books l ps calls tr) (hp : own (ps p) = none) (v : ThreadPtr) (a : Addr) :
    Books l (update ps p (.top a ⟨v, p, calls p⟩)) (update calls p (calls p + 1)) tr := by
  refine ⟨fun q => ?_, fun q n i hq => ?_, fun q i b m hq => ?_, h.done⟩
  · have ho := h.order q
    by_cases hqp : q = p
    · subst hqp
      rw [hp] at ho
      have ho' : nums q l = List.range (calls q) := by simpa using ho
      simp [own, ho', List.range_succ]
    · rw [update_of_ne hqp, update_of_ne hqp]; exact ho
  · by_cases hqp : q = p
    · subst hqp
      rw [update_self] at hq
      obtain ⟨-, rfl⟩ : a = n ∧ _ = i := by simpa [own] using hq
      rfl
    · rw [update_of_ne hqp] at hq; exact h.producer q n i hq
  · by_cases hqp : q = p
    · subst hqp; simp at hq
    · rw [update_of_ne hqp] at hq; exact h.linked q i b m hq

/-- A call links its node. -/
theorem Books.link (h : Books l ps calls tr) (hp : own (ps p) = some (n, i)) {a : Addr} {m : Count} :
    Books (l ++ [some i]) (update ps p (.linked i a m)) calls tr := by
  have hi := h.producer p n i hp
  refine ⟨fun q => ?_, fun q n' j hq => ?_, fun q j b m' hq => ?_, fun j hj =>
    List.mem_append_left _ (h.done j hj)⟩
  · have ho := h.order q
    rw [nums_append, nums_singleton]
    by_cases hqp : q = p
    · subst hqp
      rw [hp] at ho
      simpa [own, hi] using ho
    · have hne : i.producer ≠ q := hi ▸ Ne.symm hqp
      rw [update_of_ne hqp, if_neg hne, List.append_nil]
      exact ho
  · by_cases hqp : q = p
    · subst hqp; simp [own] at hq
    · rw [update_of_ne hqp] at hq; exact h.producer q n' j hq
  · by_cases hqp : q = p
    · subst hqp
      obtain ⟨rfl, -⟩ : i = j ∧ _ := by simpa using hq
      simp
    · rw [update_of_ne hqp] at hq; exact List.mem_append_left _ (h.linked q j b m' hq)

/-! ### The producers -/

/-- A step that only the producer itself sees. -/
theorem Inv.move (h : Inv s rest) (hp : s.prod p ≠ .idle) (hc : own c = own (s.prod p))
    (hs : Seen (shape s) rest c) (hl : ∀ i a m, c ≠ .linked i a m) : Inv (s.setProd p c) rest where
  sound := h.sound.move hc hs
  books := h.books.move hc fun i a m he => absurd he (hl i a m)
  busy q hq := by
    by_cases hqp : q = p
    · subst hqp; exact h.busy q hp
    · exact h.busy q (by simpa [Sys.setProd, hqp] using hq)

theorem inv_enqueue (h : Inv s rest) {v : ThreadPtr} {a : Addr} (he : s.Enabled (.enqueue p v a))
    (hok : NoReuse s (.enqueue p v a)) : Inv (s.enqueue p v a) rest := by
  obtain ⟨hp, h0, ha⟩ := he
  have hfree (q : ℕ) : committed (s.prod q) ≠ some a := by
    by_cases hq : s.prod q = .idle
    · simp [hq, committed]
    · exact hok q (h.busy q hq)
  have hshape : shape (s.enqueue p v a) = (shape s).alloc a ⟨v, p, s.calls p⟩ := by
    have hn : (fun b => (update s.mem a ⟨some ⟨v, p, s.calls p⟩, ⟨0, 0⟩⟩ b).next.ptr) =
        update (fun b => (s.mem b).next.ptr) a 0 := by
      funext b; by_cases hb : b = a <;> simp [hb]
    have hv : (fun b => (update s.mem a ⟨some ⟨v, p, s.calls p⟩, ⟨0, 0⟩⟩ b).value) =
        update (fun b => (s.mem b).value) a (some ⟨v, p, s.calls p⟩) := by
      funext b; by_cases hb : b = a <;> simp [hb]
    simp only [shape, Sys.enqueue, Shape.alloc, hn, hv]
    rfl
  have hcont : contents (s.enqueue p v a) rest = contents s rest := by
    simp only [contents, hshape]
    congr 2
    refine List.map_congr_left fun b hb => val_alloc fun he => ha ?_
    exact he ▸ (h.sound.ok.used b (List.mem_cons_of_mem _ hb)).2
  refine ⟨hshape ▸ h.sound.alloc ha h0 hfree, ?_, fun q hq => ?_⟩
  · rw [hcont]
    exact h.books.call (by rw [hp]; rfl) v a
  · by_cases hqp : q = p
    · subst hqp; exact List.mem_cons_self
    · refine List.mem_cons_of_mem _ (h.busy q ?_)
      simpa [Sys.enqueue, Sys.setProd, hqp] using hq

/-- The `cas` of a producer. -/
theorem inv_swap (h : Inv s rest) (hp : s.prod p = .swap n i t x) :
    ∃ rest', Inv (s.swap p n i t x) rest' := by
  have hs := h.sound.seen p
  rw [hp] at hs
  have hown : own (s.prod p) = some (n, i) := by rw [hp]; rfl
  have hne : s.prod p ≠ .idle := by simp [hp]
  have htop : Inv (s.setProd p (.top n i)) rest :=
    h.move hne (by rw [hown]; rfl) trivial (by simp)
  unfold Sys.swap
  by_cases hx : x.ptr = 0
  · rw [if_pos hx]
    dsimp only
    by_cases hz : (s.mem t.ptr).next.ptr = x.ptr
    · -- the node is linked to the last one
      rw [if_pos hz]
      have hz' : (shape s).next t.ptr = 0 := hz.trans hx
      have ht : t.ptr ∈ (shape s).head :: rest := hs.2.resolve_right (not_not.mpr hz')
      have hsl := h.sound.link ht hz' hown (y := t.ptr) (m := x.count + 1)
      set s' : Sys := { s.setProd p (.linked i t.ptr (x.count + 1)) with
        mem := update s.mem t.ptr
          { s.mem t.ptr with next := { (s.mem t.ptr).next with ptr := n } } } with hs'
      have hn : (fun b => (s'.mem b).next.ptr) = update (fun b => (s.mem b).next.ptr) t.ptr n := by
        funext b; by_cases hb : b = t.ptr <;> simp [hs', hb]
      have hv : (fun b => (s'.mem b).value) = fun b => (s.mem b).value := by
        funext b; by_cases hb : b = t.ptr <;> simp [hs', hb]
      have hshape : shape s' = (shape s).link t.ptr n := by
        simp only [shape, Shape.link, hn, hv]
        rfl
      have hcont : contents s' (rest ++ [n]) = contents s rest ++ [some i] := by
        have hval : (shape s).val n = some i := (h.sound.own p n i hown).val
        simp only [contents, hshape, List.map_append, List.map_cons, List.map_nil, List.append_assoc]
        rw [show ((shape s).link t.ptr n).val = (shape s).val from rfl, hval]
        rfl
      refine ⟨rest ++ [n], hshape ▸ hsl, hcont ▸ h.books.link hown, fun q hq => ?_⟩
      by_cases hqp : q = p
      · subst hqp; exact h.busy q hne
      · exact h.busy q (by simpa [hs', Sys.setProd, hqp] using hq)
    · rw [if_neg hz]; exact ⟨rest, htop⟩
  · rw [if_neg hx]
    by_cases hz : s.tail.ptr = t.ptr
    · -- the tail moves on
      rw [if_pos hz]
      have hsw : Sound { shape s with tail := x.ptr } rest s.prod s.cons :=
        h.sound.swing (by rw [← hs.1 hx, ← hz]; rfl) hx
      have hm : Inv (s.setProd p (.swung n i (t.count + 1 + 1))) rest :=
        h.move hne (by rw [hown]; rfl) trivial (by simp)
      exact ⟨rest, hsw.move (by rw [hown]; rfl) trivial, hm.books, hm.busy⟩
    · rw [if_neg hz]; exact ⟨rest, htop⟩

theorem inv_producer (h : Inv s rest) (hne : s.prod p ≠ .idle) : ∃ rest', Inv (s.producer p) rest' := by
  have hs := h.sound.seen p
  have hstep : Inv (s.producer p) rest ∨ ∃ n i t x, s.prod p = .swap n i t x := by
    unfold Sys.producer
    cases hp : s.prod p with
    | idle => exact absurd hp hne
    | top n i | readTailPtr n i c => exact .inl (h.move hne (by rw [hp]; rfl) trivial (by simp))
    | readNextPtr n i t =>
      refine .inl (h.move hne (by rw [hp]; rfl) (fun hx => ?_) (by simp))
      split_ifs at hx ⊢
      · exact absurd rfl hx
      · rfl
    | readNextCount n i t x =>
      rw [hp] at hs
      exact .inl (h.move hne (by rw [hp]; rfl) hs (by simp))
    | checkCount n i t x =>
      rw [hp] at hs
      refine .inl ?_
      dsimp only
      split_ifs
      · exact h.move hne (by rw [hp]; rfl) hs (by simp)
      · exact h.move hne (by rw [hp]; rfl) trivial (by simp)
    | checkPtr n i t x =>
      rw [hp] at hs
      refine .inl ?_
      dsimp only
      split_ifs with ht
      · -- the node is the tail, so it is in the queue
        exact h.move hne (by rw [hp]; rfl) ⟨hs, .inl (ht ▸ h.sound.ok.tail)⟩ (by simp)
      · exact h.move hne (by rw [hp]; rfl) trivial (by simp)
    | swap n i t x => exact .inr ⟨n, i, t, x, rfl⟩
    | linked i a m =>
      refine .inl ?_
      set s' : Sys := { s.setProd p .idle with
        mem := update s.mem a { s.mem a with next := { (s.mem a).next with count := m } }
        busy := s.busy.erase p
        trace := .enqueued i :: s.trace } with hs'
      have hn : (fun b => (s'.mem b).next.ptr) = fun b => (s.mem b).next.ptr := by
        funext b; by_cases hb : b = a <;> simp [hs', hb]
      have hv : (fun b => (s'.mem b).value) = fun b => (s.mem b).value := by
        funext b; by_cases hb : b = a <;> simp [hs', hb]
      have hshape : shape s' = shape s := by
        simp only [shape, hn, hv]
        rfl
      have hsound := h.sound.move (p := p) (c := .idle) (by rw [hp]; rfl) trivial
      have hbooks := h.books.move (p := p) (c := .idle) (by rw [hp]; rfl) (by simp)
      have hcont : contents s' rest = contents s rest := by
        simp only [contents, hshape]
        rfl
      change Inv s' rest
      refine ⟨hshape ▸ hsound, hcont ▸ ⟨hbooks.order, hbooks.producer, hbooks.linked, ?_⟩, fun q hq => ?_⟩
      · intro j hj
        rcases List.mem_cons.mp hj with rfl | hj
        · exact h.books.linked p j a m hp
        · exact h.books.done j hj
      · have hqp : q ≠ p := by rintro rfl; simp [hs', Sys.setProd] at hq
        exact (List.mem_erase_of_ne hqp).mpr (h.busy q (by simpa [hs', Sys.setProd, hqp] using hq))
    | swung n i m =>
      have hm : Inv (s.setProd p (.top n i)) rest := h.move hne (by rw [hp]; rfl) trivial (by simp)
      exact .inl ⟨hm.sound, hm.books, hm.busy⟩
  rcases hstep with hstep | ⟨n, i, t, x, hp⟩
  · exact ⟨rest, hstep⟩
  · have he : s.producer p = s.swap p n i t x := by simp only [Sys.producer, hp]
    rw [he]
    exact inv_swap h hp

/-! ### The consumer -/

/-- A step that only the consumer itself sees. -/
theorem Inv.look {k : Consumer} (h : Inv s rest) (hs : Sees (shape s) rest k)
    (ht : taken k = taken s.cons) : Inv (s.setCons k) rest where
  sound := h.sound.look hs
  books := by
    have hc : contents (s.setCons k) rest = contents s rest := by
      simp only [contents, Sys.setCons, ht]
      rfl
    exact hc ▸ h.books
  busy := h.busy

/-- A call of dequeue that finds the queue empty. -/
theorem Inv.empty (h : Inv s rest) (ht : taken s.cons = []) :
    Inv { s.setCons .idle with trace := .empty :: s.trace } rest := by
  have hl : Inv (s.setCons .idle) rest := h.look trivial ht.symm
  exact ⟨hl.sound, ⟨hl.books.order, hl.books.producer, hl.books.linked, hl.books.done⟩, hl.busy⟩

theorem inv_decide (h : Inv s rest) {hd : Pointer} (hk : s.cons = .decide hd t x) :
    Inv (s.decide hd t x) rest := by
  have hs := h.sound.sees
  rw [hk] at hs
  unfold Sys.decide
  by_cases ht : hd.ptr = t.ptr
  · rw [if_pos ht]
    by_cases hx : x.ptr = 0
    · rw [if_pos hx]; exact h.empty (by rw [hk]; rfl)
    · rw [if_neg hx]
      by_cases hz : s.tail.ptr = t.ptr
      · -- the tail lags behind
        rw [if_pos hz]
        have hhead : (shape s).tail = (shape s).head := hz.trans (ht.symm.trans hs.head)
        have hsw : Sound { shape s with tail := x.ptr } rest s.prod s.cons :=
          h.sound.swing (by rw [hhead]; exact hs.next hx) hx
        have hl : Inv (s.setCons (.swung (t.count + 1))) rest := h.look trivial (by rw [hk]; rfl)
        exact ⟨hsw.look trivial, hl.books, hl.busy⟩
      · rw [if_neg hz]; exact h.look trivial (by rw [hk]; rfl)
  · rw [if_neg ht]
    have hne : t.ptr ≠ (shape s).head := fun he => ht (hs.head.trans he.symm)
    exact h.look ⟨hs.head, hs.tail hne, hs.next (hs.ne hne), hs.ne hne, rfl⟩ (by rw [hk]; rfl)

/-- The head moves. -/
theorem inv_advance (h : Inv s rest) {hd : Pointer} {v : Option Item} (hk : s.cons = .gotValue hd x v) :
    Inv { s.setCons (.moved hd v) with head := { s.head with ptr := x.ptr } } rest.tail := by
  have hsound := h.sound
  rw [hk] at hsound
  have hs := hsound.sees
  obtain ⟨y, rest, rfl⟩ : ∃ y r, rest = y :: r := by
    refine List.exists_cons_of_ne_nil ?_
    rintro rfl
    exact hs.ne (hs.next.symm.trans h.sound.ok.chain)
  have hy : y = x.ptr := h.sound.ok.chain.1.symm.trans hs.next
  have hadv := hsound.advance hy
  subst hy
  refine ⟨hadv, ?_, h.busy⟩
  have hc : contents { s.setCons (.moved hd v) with head := { s.head with ptr := x.ptr } } rest =
      contents s (x.ptr :: rest) := by
    simp only [contents, hk, taken, List.map_cons, List.nil_append]
    rw [hs.val]
    rfl
  exact hc ▸ h.books

theorem inv_release (h : Inv s rest) {a : Addr} {v : Option Item} (hk : s.cons = .release a v) :
    Inv { s.setCons .idle with allocated := s.allocated.erase a, trace := .dequeued v :: s.trace } rest := by
  have hsound := h.sound
  rw [hk] at hsound
  refine ⟨hsound.free, ?_, h.busy⟩
  have hc : contents { s.setCons .idle with
      allocated := s.allocated.erase a, trace := .dequeued v :: s.trace } rest = contents s rest := by
    simp only [contents, hk, taken, dequeued, List.append_assoc]
    rfl
  exact hc ▸ ⟨h.books.order, h.books.producer, h.books.linked, h.books.done⟩

theorem inv_consumer (h : Inv s rest) : ∃ rest', Inv s.consumer rest' := by
  have hs := h.sound.sees
  unfold Sys.consumer
  cases hk : s.cons with
  | idle => exact ⟨rest, h⟩
  | top => exact ⟨rest, h.look rfl (by rw [hk]; rfl)⟩
  | readHeadCount hd =>
    rw [hk] at hs
    exact ⟨rest, h.look hs (by rw [hk]; rfl)⟩
  | readTailCount hd =>
    rw [hk] at hs
    exact ⟨rest, h.look hs (by rw [hk]; rfl)⟩
  | readTailPtr hd c =>
    rw [hk] at hs
    exact ⟨rest, h.look ⟨hs, fun ht => ht⟩ (by rw [hk]; rfl)⟩
  | readNextCount hd t =>
    rw [hk] at hs
    dsimp only
    split_ifs
    · exact ⟨rest, h.empty (by rw [hk]; rfl)⟩
    · exact ⟨rest, h.look hs (by rw [hk]; rfl)⟩
  | readNextPtr hd t c =>
    rw [hk] at hs
    have hnext : (s.mem hd.ptr).next.ptr = (shape s).next (shape s).head := by rw [← hs.head]; rfl
    refine ⟨rest, h.look ⟨hs, fun _ => hnext.symm, fun ht => ?_⟩ (by rw [hk]; rfl)⟩
    rw [hnext]
    exact h.sound.ok.next_ne (hs.tail ht)
  | checkCount hd t x =>
    rw [hk] at hs
    refine ⟨rest, ?_⟩
    dsimp only
    split_ifs
    · exact h.look hs (by rw [hk]; rfl)
    · exact h.look trivial (by rw [hk]; rfl)
  | checkPtr hd t x =>
    rw [hk] at hs
    refine ⟨rest, ?_⟩
    dsimp only
    split_ifs
    · exact h.look hs (by rw [hk]; rfl)
    · exact h.look trivial (by rw [hk]; rfl)
  | decide hd t x => exact ⟨rest, inv_decide h hk⟩
  | gotValue hd x v =>
    rw [hk] at hs
    dsimp only
    rw [if_pos (show s.head.ptr = hd.ptr from hs.head.symm)]
    exact ⟨rest.tail, inv_advance h hk⟩
  | moved hd v =>
    rw [hk] at hs
    have hl : Inv (s.setCons (.release hd.ptr v)) rest := h.look hs (by rw [hk]; rfl)
    exact ⟨rest, hl.sound, hl.books, hl.busy⟩
  | release a v => exact ⟨rest, inv_release h hk⟩
  | swung c =>
    have hl : Inv (s.setCons .top) rest := h.look trivial (by rw [hk]; rfl)
    exact ⟨rest, hl.sound, hl.books, hl.busy⟩

/-! ### All runs -/

theorem inv_step {a : Step} (h : Inv s rest) (he : s.Enabled a) (hok : NoReuse s a) :
    ∃ rest', Inv (s.apply a) rest' := by
  cases a with
  | enqueue p v a => exact ⟨rest, inv_enqueue h he hok⟩
  | producer p => exact inv_producer h he
  | dequeue =>
    have hk : s.cons = .idle := he
    exact ⟨rest, h.look trivial (by rw [hk]; rfl)⟩
  | consumer => exact inv_consumer h

theorem inv_start {a : Addr} (h0 : a ≠ 0) : Inv (Sys.start a) [] where
  sound := ⟨⟨rfl, List.nodup_singleton a, fun b hb => by
      obtain rfl := List.mem_singleton.mp hb
      exact ⟨h0, List.mem_cons_self⟩, List.mem_cons_self⟩,
    fun p n i hp => by simp [Sys.start, own] at hp, fun p q n i j hp => by simp [Sys.start, own] at hp,
    fun p => trivial, trivial⟩
  books := ⟨fun p => rfl, fun p n i hp => by simp [Sys.start, own] at hp,
    fun p i b m hp => by simp [Sys.start] at hp, fun i hi => by simp [Sys.start, enqueued] at hi⟩
  busy p hp := absurd rfl hp

theorem inv_reach (h : ReachVia machine NoReuse s) : ∃ rest, Inv s rest := by
  refine h.invariant (I := fun s => ∃ rest, Inv s rest) ?_ ?_
  · rintro s ⟨a, h0, rfl⟩
    exact ⟨[], inv_start h0⟩
  · rintro s a ⟨rest, hi⟩ he hok
    exact inv_step hi he hok

/-- What the queue promises: each value is returned once at most, it can be reached from the head from
when its enqueue has returned until then, and those of one producer are returned in the order of its
calls. -/
structure Faithful (s : Sys) : Prop where
  once : ∀ i, (dequeued s.trace).count (some i) ≤ 1
  kept : ∀ i ∈ enqueued s.trace, some i ∈ dequeued s.trace ∨
    ∃ a, Reachable s a ∧ (s.mem a).value = some i
  order : ∀ p, nums p (dequeued s.trace) = List.range (nums p (dequeued s.trace)).length

theorem count_le_nums (i : Item) : ∀ l : List (Option Item),
    l.count (some i) ≤ (nums i.producer l).count i.num
  | [] => le_rfl
  | v :: l => by
    have ih := count_le_nums i l
    rw [List.count_cons, ← List.singleton_append, nums_append, List.count_append]
    by_cases hv : v = some i
    · subst hv
      simp [nums_singleton]
      omega
    · simp only [beq_iff_eq, hv, if_false]
      omega

theorem prefix_range {l l' : List ℕ} {n : ℕ} (h : l ++ l' = List.range n) : l = List.range l.length := by
  have hlen := congrArg List.length h
  simp only [List.length_append, List.length_range] at hlen
  have ht := congrArg (List.take l.length) h
  rwa [List.take_left, List.take_range, min_eq_left (by omega)] at ht

/-- **The queue is faithful** in a run in which no address is reused too early. -/
theorem fifo (h : ReachVia machine NoReuse s) : Faithful s := by
  obtain ⟨rest, hi⟩ := inv_reach h
  have horder (p : ℕ) : nums p (dequeued s.trace) = List.range (nums p (dequeued s.trace)).length := by
    have ho := hi.books.order p
    rw [contents, nums_append, List.append_assoc] at ho
    exact prefix_range ho
  refine ⟨fun i => (count_le_nums i _).trans ?_, fun i hm => ?_, horder⟩
  · rw [horder]
    exact List.nodup_iff_count.mp List.nodup_range _
  · have hok := hi.sound.ok
    rcases List.mem_append.mp (hi.books.done i hm) with hd | hd
    · exact .inl hd
    refine .inr ?_
    rcases List.mem_append.mp hd with hd | hd
    · -- the new head holds the value that is about to be returned
      have hs := hi.sound.sees
      refine ⟨s.head.ptr, .refl, ?_⟩
      cases hk : s.cons with
      | moved | release =>
        rw [hk] at hs hd
        exact hs.val.symm.trans (List.mem_singleton.mp hd).symm
      | _ => rw [hk] at hd; exact absurd hd List.not_mem_nil
    · obtain ⟨a, ha, hv⟩ := List.mem_map.mp hd
      exact ⟨a, hok.chain.follows hok.null (List.mem_cons_of_mem _ ha), hv⟩

instance decidableNoReuse (s : Sys) : ∀ a, Decidable (NoReuse s a)
  | .enqueue _ _ a => inferInstanceAs (Decidable (∀ q ∈ s.busy, committed (s.prod q) ≠ some a))
  | .producer _ | .dequeue | .consumer => .isTrue trivial

/-- A call of enqueue that takes `k` steps, and the consumer taking `k`. -/
def enq (p : ℕ) (v : ThreadPtr) (a : Addr) (k : ℕ) : List Step :=
  .enqueue p v a :: List.replicate k (.producer p)

def deq (k : ℕ) : List Step := .dequeue :: List.replicate k .consumer

/-- Two values are enqueued and dequeued; the first node is used again for a third. -/
def faithfulRun : List Step :=
  enq 0 7 2 8 ++ enq 1 8 3 16 ++ deq 12 ++ enq 0 9 1 16 ++ deq 12

theorem faithfulRun_faithful : Faithful (faithfulRun.foldl machine.apply (Sys.start 1)) := by
  have hinit : machine.init (Sys.start 1) := ⟨1, by decide, rfl⟩
  exact fifo ((ReachVia.init hinit).foldl faithfulRun (by decide +kernel))

/-- Producer `0` has checked that node `1` is the tail; before its `cas`, that node is dequeued, freed,
and handed out to producer `1`. -/
def reuseRun : List Step :=
  enq 0 7 2 6 ++ enq 1 8 3 8 ++ deq 22 ++ enq 1 9 1 0 ++ List.replicate 2 (.producer 0)

/-- The value of producer `0` is then linked to a node that is not in the queue. -/
theorem lost_node : ¬ ∀ s, Reach machine s → Faithful s := by
  intro hall
  have hinit : machine.init (Sys.start 1) := ⟨1, by decide, rfl⟩
  have hr : Reach machine (reuseRun.foldl machine.apply (Sys.start 1)) :=
    (ReachVia.init hinit).foldl reuseRun (by decide +kernel)
  set s := reuseRun.foldl machine.apply (Sys.start 1)
  have hm : (⟨7, 0, 0⟩ : Item) ∈ enqueued s.trace := by decide +kernel
  rcases (hall s hr).kept _ hm with hd | ⟨a, ha, hv⟩
  · exact absurd hd (by decide +kernel)
  · have hlast : (s.mem s.head.ptr).next.ptr = 0 := by decide +kernel
    obtain rfl := ha.eq_of_last hlast
    exact absurd hv (by decide +kernel)

end StNvs.LockFree.Fifo
