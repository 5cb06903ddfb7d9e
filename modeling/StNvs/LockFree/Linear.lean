import StNvs.Lib.AtomicQueue
import StNvs.LockFree.Fifo

/-! # The lock-free queue is linearizable

In a run in which no address is reused too early, `_st_lock_free_enqueue` takes effect when its `cas` links
the node, and `_st_lock_free_dequeue` when its `cas` moves the head or, if it is going to report an empty
queue, already when it reads that nothing follows the head: the consumer is the only one to move the head,
so that the checks behind that cannot fail.

* `Agrees`: the state of a queue whose calls take effect at once that goes with a state of the code;
  `agrees_step`.
* `queue_linearizable`: what is seen of the calls could be seen of that queue. -/

namespace StNvs.LockFree.Linear

open StNvs.Lib StNvs.Lib.Runs StNvs.Lib.Refinement StNvs.Lib.AtomicQueue StNvs.Lib.History
  StNvs.Sched.Sleep StNvs.LockFree.Chains
  StNvs.LockFree.Fifo Function

open StNvs.LockFree.Model (Addr Count Pointer Item Producer Consumer Sys Step machine)

/-- What is seen of a step: that a call begins or returns. -/
def shows (s : Sys) : Step → Option (Event ℕ Item)
  | .enqueue p v _ => some (.called p ⟨v, p, s.calls p⟩)
  | .producer p =>
    match s.prod p with
    | .linked i _ _ => some (.returned p i)
    | _ => none
  | .dequeue => some .asked
  | .consumer =>
    match s.cons with
    | .readNextCount h _ => if h.ptr = 0 then some (.answered none) else none
    | .decide h t x => if h.ptr = t.ptr ∧ x.ptr = 0 then some (.answered none) else none
    | .release _ v => some (.answered v)
    | _ => none

/-- Whether the call of a producer has taken effect. -/
def putOf : Producer → Put Item
  | .idle => .idle
  | .linked i _ _ => .done i
  | .top _ i | .readTailPtr _ i _ | .readNextPtr _ i _ | .readNextCount _ i _ _ | .checkCount _ i _ _
  | .checkPtr _ i _ _ | .swap _ i _ _ | .swung _ i _ => .called i

/-- Whether the call of the consumer has taken effect. -/
def getOf : Consumer → Get Item
  | .idle => .idle
  | .moved _ v | .release _ v => .done v
  | .checkCount _ _ x | .checkPtr _ _ x | .decide _ _ x => if x.ptr = 0 then .done none else .called
  | .top | .readHeadCount _ | .readTailCount _ | .readTailPtr _ _ | .readNextCount _ _ | .readNextPtr _ _ _
  | .gotValue _ _ _ | .swung _ => .called

/-- The count of the head that the consumer has read is the one that is stored there. -/
def Current (s : Sys) : Prop :=
  match s.cons with
  | .readTailCount h | .readTailPtr h _ | .readNextCount h _ | .readNextPtr h _ _ | .checkCount h _ _ =>
    h.count = s.head.count
  | _ => True

/-- The consumer has taken a value. -/
def Full (k : Consumer) : Prop := ∀ v ∈ taken k, v.isSome

/-- The queue that goes with a state. -/
structure Agrees (s : Sys) (q : Queue ℕ Item) : Prop where
  inv : ∃ rest, Inv s rest ∧ rest.map (shape s).val = q.items.map some
  put : ∀ p, q.put p = putOf (s.prod p)
  get : q.get = getOf s.cons
  current : Current s
  full : Full s.cons

variable {s s' : Sys} {a : Step} {q : Queue ℕ Item} {rest rest' : List Addr} {p : ℕ} {n : Addr} {i : Item}
  {t x hd : Pointer} {v : Option Item}

/-! ### The items -/

/-- The head is the same, and so are the links and the values of the nodes that are in use. -/
structure Alike (s s' : Sys) : Prop where
  head : s'.head.ptr = s.head.ptr
  next : ∀ a ∈ s.allocated, (s'.mem a).next.ptr = (s.mem a).next.ptr
  val : ∀ a ∈ s.allocated, (s'.mem a).value = (s.mem a).value

theorem Alike.of_eq (hh : s'.head.ptr = s.head.ptr) (hm : s'.mem = s.mem) : Alike s s' :=
  ⟨hh, fun a _ => by rw [hm], fun a _ => by rw [hm]⟩

/-- The nodes behind the head are those on the one chain there is. -/
theorem rest_eq (h : Inv s rest) (hc : Links.Chain 0 (shape s).next (shape s).head rest') (h0 : 0 ∉ rest') :
    rest = rest' :=
  h.sound.ok.chain.unique hc h.sound.ok.null h0

theorem Alike.items (ha : Alike s s') (h : Inv s rest) (h' : Inv s' rest') :
    rest'.map (shape s').val = rest.map (shape s).val := by
  have hused (a : Addr) (hm : a ∈ (shape s).head :: rest) : a ∈ s.allocated := (h.sound.ok.used a hm).2
  have hchain : Links.Chain 0 (shape s').next (shape s').head rest := by
    have hcongr : Links.Chain 0 (shape s').next (shape s).head rest :=
      h.sound.ok.chain.congr fun a hm => ha.next a (hused a hm)
    rwa [show (shape s).head = (shape s').head from ha.head.symm] at hcongr
  rw [rest_eq h' hchain h.sound.ok.null]
  exact List.map_congr_left fun a hm => ha.val a (hused a (List.mem_cons_of_mem _ hm))

/-- A step that leaves the items alone. -/
theorem Agrees.alike {q' : Queue ℕ Item} (h : Agrees s q) (hi : ∃ rest', Inv s' rest') (ha : Alike s s')
    (hq : q'.items = q.items) (hp : ∀ p, q'.put p = putOf (s'.prod p)) (hg : q'.get = getOf s'.cons)
    (hc : Current s') (hf : Full s'.cons) : Agrees s' q' := by
  obtain ⟨rest, hinv, hitems⟩ := h.inv
  obtain ⟨rest', hinv'⟩ := hi
  exact ⟨⟨rest', hinv', (ha.items hinv hinv').trans (hq ▸ hitems)⟩, hp, hg, hc, hf⟩

/-! ### The producers -/

/-- The state of a producer, after a step of its own. -/
theorem put_update {c : Producer} {y : Put Item} (h : ∀ p, q.put p = putOf (s.prod p)) (hc : y = putOf c) :
    ∀ r, update q.put p y r = putOf (update s.prod p c r) := by
  intro r
  obtain rfl | hr := eq_or_ne r p
  · rw [update_self, update_self, hc]
  · rw [update_of_ne hr, update_of_ne hr, h]

theorem current_of_eq (h : Current s) (hk : s'.cons = s.cons) (hh : s'.head = s.head) : Current s' := by
  unfold Current at h ⊢
  rwa [hk, hh]

/-- A step of a producer that is not seen and has no effect yet. -/
theorem Agrees.look {c : Producer} (h : Agrees s q) (hi : ∃ rest', Inv s' rest') (ha : Alike s s')
    (hp : s'.prod = update s.prod p c) (hc : putOf c = putOf (s.prod p)) (hk : s'.cons = s.cons)
    (hh : s'.head = s.head) : Agrees s' q := by
  refine h.alike hi ha rfl (fun r => ?_) (hk ▸ h.get) (current_of_eq h.current hk hh) (hk ▸ h.full)
  rw [hp]
  obtain rfl | hr := eq_or_ne r p
  · rw [update_self, hc, h.put]
  · rw [update_of_ne hr, h.put]

/-- A step of a producer that is not seen and has no effect yet is matched by no action. -/
theorem sim_look {c : Producer} (h : Agrees s q) (hi : ∃ rest', Inv (s.producer p) rest')
    (hs : s.producer p = s') (ha : Alike s s') (hp : s'.prod = update s.prod p c)
    (hc : putOf c = putOf (s.prod p)) (hk : s'.cons = s.cons) (hh : s'.head = s.head)
    (hshow : shows s (.producer p) = none) :
    ∃ q', Chain queue seen q (shows s (.producer p)).toList q' ∧ Agrees (s.producer p) q' := by
  subst hs
  exact ⟨q, by rw [hshow]; exact .refl, h.look hi ha hp hc hk hh⟩

/-- The same, for a step that changes nothing but the producer. -/
theorem sim_setProd {c : Producer} (h : Agrees s q) (hi : ∃ rest', Inv (s.producer p) rest')
    (hs : s.producer p = s.setProd p c) (hc : putOf c = putOf (s.prod p))
    (hshow : shows s (.producer p) = none) :
    ∃ q', Chain queue seen q (shows s (.producer p)).toList q' ∧ Agrees (s.producer p) q' :=
  sim_look h hi hs (.of_eq rfl rfl) rfl hc rfl rfl hshow

/-- The `cas` that links the node: this is when the call takes effect. -/
theorem sim_link (h : Agrees s q) (hp : s.prod p = .swap n i t x) (hx : x.ptr = 0)
    (hz : (s.mem t.ptr).next.ptr = x.ptr) :
    ∃ q', Chain queue seen q (shows s (.producer p)).toList q' ∧ Agrees (s.producer p) q' := by
  obtain ⟨rest, hinv, hitems⟩ := h.inv
  have hne : s.prod p ≠ .idle := by rw [hp]; rintro ⟨⟩
  obtain ⟨rest', hinv'⟩ := inv_producer hinv hne
  have hseen := hinv.sound.seen p
  rw [hp] at hseen
  have hz' : (shape s).next t.ptr = 0 := hz.trans hx
  have ht : t.ptr ∈ (shape s).head :: rest := hseen.2.resolve_right (not_not.mpr hz')
  have ho := hinv.sound.own p n i (by rw [hp]; rfl)
  have hok := ok_link ht hz' hinv.sound.ok ho
  have hs' : s.producer p = { s.setProd p (.linked i t.ptr (x.count + 1)) with
      mem := update s.mem t.ptr { s.mem t.ptr with next := { (s.mem t.ptr).next with ptr := n } } } := by
    simp only [Sys.producer, hp, Sys.swap, if_pos hx, if_pos hz]
  have hnext : (shape (s.producer p)).next = update (shape s).next t.ptr n := by
    funext b
    rw [hs']
    by_cases hb : b = t.ptr <;> simp [shape, hb]
  have hval : (shape (s.producer p)).val = (shape s).val := by
    funext b
    rw [hs']
    by_cases hb : b = t.ptr <;> simp [shape, hb]
  have hhead : (shape (s.producer p)).head = (shape s).head := by rw [hs']; rfl
  have hrest : rest' = rest ++ [n] := by
    refine rest_eq hinv' ?_ hok.null
    rw [hnext, hhead]
    exact hok.chain
  have hcalled : q.put p = .called i := by rw [h.put, hp]; rfl
  have hq' : queue.apply q (.put p) = { q.setPut p (.done i) with items := q.items ++ [i] } := by
    simp only [queue, Queue.apply, Queue.takePut, hcalled]
  refine ⟨queue.apply q (.put p), ?_, ?_⟩
  · rw [show shows s (.producer p) = none by simp only [shows, hp]]
    exact Chain.refl.silent ⟨i, hcalled⟩ rfl
  rw [hq']
  refine ⟨⟨rest', hinv', ?_⟩, ?_, ?_, ?_, ?_⟩
  · have hvn : (shape s).val n = some i := ho.val
    rw [hval, hrest, List.map_append, hitems, List.map_append, List.map_singleton, hvn]
    rfl
  · rw [hs']
    exact put_update h.put rfl
  · rw [hs']
    exact h.get
  · exact current_of_eq h.current (by rw [hs']; rfl) (by rw [hs']; rfl)
  · rw [hs']
    exact h.full

/-- A call of a producer returns. -/
theorem sim_ret {a : Addr} {m : Count} (h : Agrees s q) (hp : s.prod p = .linked i a m) :
    ∃ q', Chain queue seen q (shows s (.producer p)).toList q' ∧ Agrees (s.producer p) q' := by
  obtain ⟨rest, hinv, -⟩ := h.inv
  have hne : s.prod p ≠ .idle := by rw [hp]; rintro ⟨⟩
  have hdone : q.put p = .done i := by rw [h.put, hp]; rfl
  have hs' : s.producer p = { s.setProd p .idle with
      mem := update s.mem a { s.mem a with next := { (s.mem a).next with count := m } }
      busy := s.busy.erase p
      trace := .enqueued i :: s.trace } := by simp only [Sys.producer, hp]
  refine ⟨queue.apply q (.ret p), ?_, ?_⟩
  · rw [show shows s (.producer p) = some (.returned p i) by simp only [shows, hp]]
    exact Chain.single ⟨i, hdone⟩ (by simp only [seen, hdone])
  · refine h.alike (inv_producer hinv hne) ?_ rfl ?_ ?_ ?_ ?_
    · rw [hs']
      refine ⟨rfl, fun b _ => ?_, fun b _ => ?_⟩ <;> by_cases hb : b = a <;> simp [hb]
    · rw [hs']
      exact put_update h.put rfl
    · rw [hs']
      exact h.get
    · exact current_of_eq h.current (by rw [hs']; rfl) (by rw [hs']; rfl)
    · rw [hs']
      exact h.full

/-- **A step of a producer.** -/
theorem sim_producer (h : Agrees s q) (hne : s.prod p ≠ .idle) :
    ∃ q', Chain queue seen q (shows s (.producer p)).toList q' ∧ Agrees (s.producer p) q' := by
  obtain ⟨rest, hinv, -⟩ := h.inv
  have hi : ∃ rest', Inv (s.producer p) rest' := inv_producer hinv hne
  cases hp : s.prod p with
  | idle => exact absurd hp hne
  | linked i a m => exact sim_ret h hp
  | swap n i t x =>
    have hput : putOf (s.prod p) = .called i := by rw [hp]; rfl
    have hshow : shows s (.producer p) = none := by simp only [shows, hp]
    by_cases hx : x.ptr = 0
    · by_cases hz : (s.mem t.ptr).next.ptr = x.ptr
      · exact sim_link h hp hx hz
      · have hs : s.producer p = s.setProd p (.top n i) := by
          simp only [Sys.producer, hp, Sys.swap, if_pos hx, if_neg hz]
        exact sim_setProd h hi hs hput.symm hshow
    · by_cases hz : s.tail.ptr = t.ptr
      · have hs : s.producer p = { s.setProd p (.swung n i (t.count + 1 + 1)) with
            tail := { s.tail with ptr := x.ptr } } := by
          simp only [Sys.producer, hp, Sys.swap, if_neg hx, if_pos hz]
        exact sim_look h hi hs (.of_eq rfl rfl) rfl hput.symm rfl rfl hshow
      · have hs : s.producer p = s.setProd p (.top n i) := by
          simp only [Sys.producer, hp, Sys.swap, if_neg hx, if_neg hz]
        exact sim_setProd h hi hs hput.symm hshow
  | checkCount n i t x =>
    have hs : s.producer p = s.setProd p (if t.count = s.tail.count then .checkPtr n i t x else .top n i) := by
      simp only [Sys.producer, hp]
    refine sim_setProd h hi hs ?_ (by simp only [shows, hp])
    split_ifs <;> rw [hp] <;> rfl
  | checkPtr n i t x =>
    have hs : s.producer p = s.setProd p (if t.ptr = s.tail.ptr then .swap n i t x else .top n i) := by
      simp only [Sys.producer, hp]
    refine sim_setProd h hi hs ?_ (by simp only [shows, hp])
    split_ifs <;> rw [hp] <;> rfl
  | top n i =>
    have hs : s.producer p = s.setProd p (.readTailPtr n i s.tail.count) := by simp only [Sys.producer, hp]
    exact sim_setProd h hi hs (by rw [hp]; rfl) (by simp only [shows, hp])
  | readTailPtr n i c =>
    have hs : s.producer p = s.setProd p (.readNextPtr n i ⟨s.tail.ptr, c⟩) := by simp only [Sys.producer, hp]
    exact sim_setProd h hi hs (by rw [hp]; rfl) (by simp only [shows, hp])
  | readNextPtr n i t =>
    have hs : s.producer p =
        s.setProd p (.readNextCount n i t (if t.ptr = 0 then 0 else (s.mem t.ptr).next.ptr)) := by
      simp only [Sys.producer, hp]
    exact sim_setProd h hi hs (by rw [hp]; rfl) (by simp only [shows, hp])
  | readNextCount n i t x =>
    have hs : s.producer p =
        s.setProd p (.checkCount n i t ⟨x, if t.ptr = 0 then 0 else (s.mem t.ptr).next.count⟩) := by
      simp only [Sys.producer, hp]
    exact sim_setProd h hi hs (by rw [hp]; rfl) (by simp only [shows, hp])
  | swung n i c =>
    have hs : s.producer p = { s.setProd p (.top n i) with tail := { s.tail with count := c } } := by
      simp only [Sys.producer, hp]
    exact sim_look h hi hs (.of_eq rfl rfl) rfl (by rw [hp]; rfl) rfl rfl (by simp only [shows, hp])

/-! ### The consumer -/

/-- A step of the consumer that is not seen and has no effect. -/
theorem sim_watch (h : Agrees s q) (hs : s.consumer = s') (ha : Alike s s') (hp : s'.prod = s.prod)
    (hg : getOf s'.cons = getOf s.cons) (hc : Current s') (ht : taken s'.cons = taken s.cons)
    (hshow : shows s .consumer = none) :
    ∃ q', Chain queue seen q (shows s .consumer).toList q' ∧ Agrees s.consumer q' := by
  obtain ⟨rest, hinv, -⟩ := h.inv
  have hi := inv_consumer hinv
  subst hs
  refine ⟨q, by rw [hshow]; exact .refl, h.alike hi ha rfl (hp ▸ h.put) (hg ▸ h.get) hc ?_⟩
  intro v hv
  exact h.full v (ht ▸ hv)

/-- The same, for a step that changes nothing but the consumer. -/
theorem sim_setCons {k : Consumer} (h : Agrees s q) (hs : s.consumer = s.setCons k) (hg : getOf k = getOf s.cons)
    (hc : Current (s.setCons k)) (ht : taken k = taken s.cons) (hshow : shows s .consumer = none) :
    ∃ q', Chain queue seen q (shows s .consumer).toList q' ∧ Agrees s.consumer q' :=
  sim_watch h hs (.of_eq rfl rfl) rfl hg hc ht hshow

/-- A call of the consumer returns. -/
theorem sim_answer (h : Agrees s q) (hs : s.consumer = s') (ha : Alike s s') (hp : s'.prod = s.prod)
    (hk : s'.cons = .idle) (hg : getOf s.cons = .done v) (hshow : shows s .consumer = some (.answered v)) :
    ∃ q', Chain queue seen q (shows s .consumer).toList q' ∧ Agrees s.consumer q' := by
  obtain ⟨rest, hinv, -⟩ := h.inv
  have hi := inv_consumer hinv
  have hdone : q.get = .done v := h.get.trans hg
  subst hs
  refine ⟨queue.apply q .answer, ?_, h.alike hi ha rfl (hp ▸ h.put) (by rw [hk]; rfl) ?_ ?_⟩
  · rw [hshow]
    exact Chain.single ⟨v, hdone⟩ (by simp only [seen, hdone])
  · unfold Current
    rw [hk]
    trivial
  · rw [hk]
    intro v hv
    cases hv

/-- The consumer reads what follows the head; when nothing does, the call takes effect. -/
theorem sim_next {c : Count} (h : Agrees s q) (hk : s.cons = .readNextPtr hd t c) :
    ∃ q', Chain queue seen q (shows s .consumer).toList q' ∧ Agrees s.consumer q' := by
  obtain ⟨rest, hinv, hitems⟩ := h.inv
  have hi := inv_consumer hinv
  have hs : s.consumer = s.setCons (.checkCount hd t ⟨(s.mem hd.ptr).next.ptr, c⟩) := by
    simp only [Sys.consumer, hk]
  have hshow : shows s .consumer = none := by simp only [shows, hk]
  have hcur : Current (s.setCons (.checkCount hd t ⟨(s.mem hd.ptr).next.ptr, c⟩)) := by
    have hc := h.current
    simp only [Current, hk] at hc
    exact hc
  by_cases hz : (s.mem hd.ptr).next.ptr = 0
  · -- nothing follows the head, so that there are no items
    have hsees := hinv.sound.sees
    rw [hk] at hsees
    have hlast : (shape s).next (shape s).head = 0 := by
      rw [← hsees.head]
      exact hz
    have hrest : rest = [] := by
      cases rest with
      | nil => rfl
      | cons b rest => exact absurd hlast (hinv.sound.ok.chain.next_ne hinv.sound.ok.null List.mem_cons_self)
    have hnil : q.items = [] := by
      rw [hrest] at hitems
      exact List.map_eq_nil_iff.mp hitems.symm
    have hcalled : q.get = .called := by rw [h.get, hk]; rfl
    have hq' : queue.apply q .get = { q with get := .done none } := by
      simp only [queue, Queue.apply, Queue.takeGet, hnil]
    refine ⟨queue.apply q .get, by rw [hshow]; exact Chain.refl.silent hcalled rfl, ?_⟩
    rw [hs] at hi ⊢
    refine h.alike hi (.of_eq rfl rfl) (by rw [hq']) (by rw [hq']; exact h.put) ?_ hcur ?_
    · rw [hq']
      exact (if_pos hz).symm
    · intro v hv
      cases hv
  · refine sim_setCons h hs ?_ hcur (by rw [hk]; rfl) hshow
    rw [hk]
    exact if_neg hz

/-- The `cas` that moves the head: the call takes effect. -/
theorem sim_take (h : Agrees s q) (hk : s.cons = .gotValue hd x v) :
    ∃ q', Chain queue seen q (shows s .consumer).toList q' ∧ Agrees s.consumer q' := by
  obtain ⟨rest, hinv, hitems⟩ := h.inv
  have hsees := hinv.sound.sees
  rw [hk] at hsees
  have hs : s.consumer = { s.setCons (.moved hd v) with head := { s.head with ptr := x.ptr } } := by
    simp only [Sys.consumer, hk]
    exact if_pos hsees.head.symm
  have hadv := inv_advance hinv hk
  obtain ⟨b, rest, rfl⟩ : ∃ b r, rest = b :: r := by
    refine List.exists_cons_of_ne_nil ?_
    rintro rfl
    exact hsees.ne (hsees.next.symm.trans hinv.sound.ok.chain)
  have hb : b = x.ptr := hinv.sound.ok.chain.1.symm.trans hsees.next
  obtain ⟨i, items, hq, hv, hrest⟩ : ∃ i items, q.items = i :: items ∧ (shape s).val b = some i ∧
      rest.map (shape s).val = items.map some := by
    cases hq : q.items with
    | nil =>
      rw [hq] at hitems
      cases hitems
    | cons i items =>
      rw [hq, List.map_cons, List.map_cons] at hitems
      obtain ⟨hi, hl⟩ := List.cons.inj hitems
      exact ⟨i, items, rfl, hi, hl⟩
  have hvi : v = some i := by
    rw [hsees.val, ← hb]
    exact hv
  have hcalled : q.get = .called := by rw [h.get, hk]; rfl
  have hq' : queue.apply q .get = { q with items := items, get := .done (some i) } := by
    simp only [queue, Queue.apply, Queue.takeGet, hq]
  refine ⟨queue.apply q .get, ?_, ?_⟩
  · rw [show shows s .consumer = none by simp only [shows, hk]]
    exact Chain.refl.silent hcalled rfl
  rw [hq', hs]
  refine ⟨⟨rest, hadv, hrest⟩, h.put, by rw [hvi]; rfl, trivial, ?_⟩
  intro w hw
  rw [List.mem_singleton.mp hw, hvi]
  rfl

/-- **A step of the consumer.** -/
theorem sim_consumer (h : Agrees s q) (hne : s.cons ≠ .idle) :
    ∃ q', Chain queue seen q (shows s .consumer).toList q' ∧ Agrees s.consumer q' := by
  obtain ⟨rest, hinv, -⟩ := h.inv
  have hsees := hinv.sound.sees
  have hcur := h.current
  cases hk : s.cons with
  | idle => exact absurd hk hne
  | readNextPtr hd t c => exact sim_next h hk
  | gotValue hd x v => exact sim_take h hk
  | top =>
    have hs : s.consumer = s.setCons (.readHeadCount s.head.ptr) := by simp only [Sys.consumer, hk]
    exact sim_setCons h hs (by rw [hk]; rfl) trivial (by rw [hk]; rfl) (by simp only [shows, hk])
  | readHeadCount a =>
    have hs : s.consumer = s.setCons (.readTailCount ⟨a, s.head.count⟩) := by simp only [Sys.consumer, hk]
    exact sim_setCons h hs (by rw [hk]; rfl) rfl (by rw [hk]; rfl) (by simp only [shows, hk])
  | readTailCount hd =>
    simp only [Current, hk] at hcur
    have hs : s.consumer = s.setCons (.readTailPtr hd s.tail.count) := by simp only [Sys.consumer, hk]
    exact sim_setCons h hs (by rw [hk]; rfl) hcur (by rw [hk]; rfl) (by simp only [shows, hk])
  | readTailPtr hd c =>
    simp only [Current, hk] at hcur
    have hs : s.consumer = s.setCons (.readNextCount hd ⟨s.tail.ptr, c⟩) := by simp only [Sys.consumer, hk]
    exact sim_setCons h hs (by rw [hk]; rfl) hcur (by rw [hk]; rfl) (by simp only [shows, hk])
  | readNextCount hd t =>
    rw [hk] at hsees
    simp only [Current, hk] at hcur
    have h0 : hd.ptr ≠ 0 := by
      rw [hsees.head]
      exact (hinv.sound.ok.used _ List.mem_cons_self).1
    have hs : s.consumer = s.setCons (.readNextPtr hd t (s.mem hd.ptr).next.count) := by
      simp only [Sys.consumer, hk, if_neg h0]
    exact sim_setCons h hs (by rw [hk]; rfl) hcur (by rw [hk]; rfl) (by simp only [shows, hk, if_neg h0])
  | checkCount hd t x =>
    simp only [Current, hk] at hcur
    have hs : s.consumer = s.setCons (.checkPtr hd t x) := by simp only [Sys.consumer, hk, if_pos hcur]
    exact sim_setCons h hs (by rw [hk]; rfl) trivial (by rw [hk]; rfl) (by simp only [shows, hk])
  | checkPtr hd t x =>
    rw [hk] at hsees
    have hs : s.consumer = s.setCons (.decide hd t x) := by
      simp only [Sys.consumer, hk]
      rw [if_pos (show hd.ptr = s.head.ptr from hsees.head)]
    exact sim_setCons h hs (by rw [hk]; rfl) trivial (by rw [hk]; rfl) (by simp only [shows, hk])
  | decide hd t x =>
    rw [hk] at hsees
    by_cases ht : hd.ptr = t.ptr
    · by_cases hx : x.ptr = 0
      · have hs : s.consumer = { s.setCons .idle with trace := .empty :: s.trace } := by
          simp only [Sys.consumer, hk, Sys.decide, if_pos ht, if_pos hx]
        exact sim_answer h hs (.of_eq rfl rfl) rfl rfl (by rw [hk]; exact if_pos hx)
          (by simp only [shows, hk, if_pos (And.intro ht hx)])
      · have hshow : shows s .consumer = none := by
          simp only [shows, hk]
          exact if_neg fun hn => hx hn.2
        have hg : getOf s.cons = .called := by rw [hk]; exact if_neg hx
        by_cases hz : s.tail.ptr = t.ptr
        · have hs : s.consumer = { s.setCons (.swung (t.count + 1)) with
              tail := { s.tail with ptr := x.ptr } } := by
            simp only [Sys.consumer, hk, Sys.decide, if_pos ht, if_neg hx, if_pos hz]
          exact sim_watch h hs (.of_eq rfl rfl) rfl hg.symm trivial (by rw [hk]; rfl) hshow
        · have hs : s.consumer = s.setCons .top := by
            simp only [Sys.consumer, hk, Sys.decide, if_pos ht, if_neg hx, if_neg hz]
          exact sim_setCons h hs hg.symm trivial (by rw [hk]; rfl) hshow
    · have hne : t.ptr ≠ (shape s).head := fun he => ht (hsees.head.trans he.symm)
      have hx : x.ptr ≠ 0 := hsees.ne hne
      have hs : s.consumer = s.setCons (.gotValue hd x (s.mem x.ptr).value) := by
        simp only [Sys.consumer, hk, Sys.decide, if_neg ht]
      refine sim_setCons h hs ?_ trivial (by rw [hk]; rfl) ?_
      · rw [hk]
        exact (if_neg hx).symm
      · simp only [shows, hk]
        exact if_neg fun hn => ht hn.1
  | moved hd v =>
    have hs : s.consumer = { s.setCons (.release hd.ptr v) with
        head := { s.head with count := hd.count + 1 } } := by simp only [Sys.consumer, hk]
    exact sim_watch h hs (.of_eq rfl rfl) rfl (by rw [hk]; rfl) trivial (by rw [hk]; rfl)
      (by simp only [shows, hk])
  | release a v =>
    have hs : s.consumer = { s.setCons .idle with
        allocated := s.allocated.erase a, trace := .dequeued v :: s.trace } := by simp only [Sys.consumer, hk]
    exact sim_answer h hs (.of_eq rfl rfl) rfl rfl (by rw [hk]; rfl) (by simp only [shows, hk])
  | swung c =>
    have hs : s.consumer = { s.setCons .top with tail := { s.tail with count := c } } := by
      simp only [Sys.consumer, hk]
    exact sim_watch h hs (.of_eq rfl rfl) rfl (by rw [hk]; rfl) trivial (by rw [hk]; rfl)
      (by simp only [shows, hk])

/-! ### All runs -/

theorem sim_enqueue {u : ThreadPtr} {a : Addr} (h : Agrees s q) (he : s.Enabled (.enqueue p u a))
    (hok : NoReuse s (.enqueue p u a)) :
    ∃ q', Chain queue seen q (shows s (.enqueue p u a)).toList q' ∧ Agrees (s.enqueue p u a) q' := by
  obtain ⟨rest, hinv, -⟩ := h.inv
  have hidle : q.put p = .idle := by rw [h.put, he.1]; rfl
  refine ⟨queue.apply q (.call p ⟨u, p, s.calls p⟩), Chain.single hidle rfl, ?_⟩
  refine h.alike ⟨rest, inv_enqueue hinv he hok⟩ ?_ rfl (put_update h.put rfl) h.get
    (current_of_eq h.current rfl rfl) h.full
  refine ⟨rfl, fun b hb => ?_, fun b hb => ?_⟩
  · have hne : b ≠ a := fun hba => he.2.2 (hba ▸ hb)
    simp [Sys.enqueue, hne]
  · have hne : b ≠ a := fun hba => he.2.2 (hba ▸ hb)
    simp [Sys.enqueue, hne]

theorem agrees_step (h : Agrees s q) (he : s.Enabled a) (hok : NoReuse s a) :
    ∃ q', Chain queue seen q (shows s a).toList q' ∧ Agrees (s.apply a) q' := by
  cases a with
  | enqueue p u a => exact sim_enqueue h he hok
  | producer p => exact sim_producer h he
  | consumer => exact sim_consumer h he
  | dequeue =>
    obtain ⟨rest, hinv, -⟩ := h.inv
    have hk : s.cons = .idle := he
    have hidle : q.get = .idle := by rw [h.get, hk]; rfl
    have hi : Inv (s.setCons .top) rest := hinv.look trivial (by rw [hk]; rfl)
    refine ⟨queue.apply q .ask, Chain.single hidle rfl, ?_⟩
    refine h.alike ⟨rest, hi⟩ (.of_eq rfl rfl) rfl h.put rfl trivial ?_
    intro v hv
    cases hv

theorem agrees_start {a : Addr} (h0 : a ≠ 0) : Agrees (Sys.start a) ⟨[], fun _ => .idle, .idle⟩ where
  inv := ⟨[], inv_start h0, rfl⟩
  put _ := rfl
  get := rfl
  current := trivial
  full v hv := by cases hv

theorem simulation : Simulation machine NoReuse shows queue seen Agrees where
  init s hs := by
    obtain ⟨a, h0, rfl⟩ := hs
    exact ⟨_, rfl, agrees_start h0⟩
  step _ _ _ h he hok := agrees_step h he hok

/-- **The queue is linearizable**: what a run shows in which no address is reused too early, a queue whose
calls take effect at once can show, and its items are then the values behind the head. -/
theorem queue_linearizable {h : List (Event ℕ Item)} (hs : Shown machine NoReuse shows h s) :
    ∃ q, Shown queue (fun _ _ => True) seen h q ∧
      ∃ rest, Inv s rest ∧ rest.map (fun a => (s.mem a).value) = q.items.map some := by
  obtain ⟨q, hq, hA⟩ := simulation.shown hs
  exact ⟨q, hq, hA.inv⟩

theorem faithfulRun_shown :
    Shown machine NoReuse shows (showing machine shows (Sys.start 1) faithfulRun)
      (faithfulRun.foldl machine.apply (Sys.start 1)) := by
  have hinit : Shown machine NoReuse shows [] (Sys.start 1) := .init ⟨1, by decide, rfl⟩
  exact hinit.foldl faithfulRun (by decide +kernel)

theorem faithfulRun_linearizable :
    ∃ q, Shown queue (fun _ _ => True) seen (showing machine shows (Sys.start 1) faithfulRun) q ∧
      ∃ rest, Inv (faithfulRun.foldl machine.apply (Sys.start 1)) rest ∧
        rest.map (fun a => ((faithfulRun.foldl machine.apply (Sys.start 1)).mem a).value) = q.items.map some :=
  queue_linearizable faithfulRun_shown

/-- **The queue is drained.** When `_st_lock_free_dequeue` reports that the queue is empty, it has returned
every value whose enqueue had returned before that call of it began. -/
theorem drained {h : List (Event ℕ Item)} (hs : Shown machine NoReuse shows h s) :
    Justified Justifies h.reverse := by
  obtain ⟨q, hq, -⟩ := simulation.shown hs
  exact answers_justified hq

/-- Two values are enqueued, then the queue is drained. -/
def drainRun : List Step := enq 0 7 2 8 ++ enq 1 8 3 16 ++ deq 12 ++ deq 22 ++ deq 9

theorem drainRun_drained : Justified Justifies (showing machine shows (Sys.start 1) drainRun).reverse ∧
    Event.answered none ∈ showing machine shows (Sys.start 1) drainRun := by
  have hinit : Shown machine NoReuse shows [] (Sys.start 1) := .init ⟨1, by decide, rfl⟩
  exact ⟨drained (hinit.foldl drainRun (by decide +kernel)), by decide +kernel⟩

end StNvs.LockFree.Linear
