import StNvs.Lib.Links
import StNvs.Lib.Runs
import StNvs.Sched.Sleep

/-! # The lock-free queue, read by read

`_st_lock_free_enqueue` and `_st_lock_free_dequeue`, with each read of a field of the queue or of a node
and each `Interlocked…` operation a step of its own: `producer p` and `consumer` are the next such step
of a producer and of the consumer, which keep their local variables in their program counter. `cas`
compares the pointer, and stores the count in a second step. `calloc` may return any address that is not
allocated, one that was freed among them; what is stored there stays until then. -/

namespace StNvs.LockFree.Model

open StNvs.Lib.Runs StNvs.Lib.Links StNvs.Sched.Sleep Function

/-! ### The data -/

/-- The address of a node; `0` is `NULL`. -/
abbrev Addr := ℕ

/-- `LONG`. -/
abbrev Count := BitVec 32

/-- `st_pointer_t`. -/
structure Pointer where
  ptr : Addr
  count : Count
  deriving DecidableEq, Repr

/-- A value in the queue, together with whose it is: it is put there by the call number `num` of
`producer`. -/
structure Item where
  value : ThreadPtr
  producer : ℕ
  num : ℕ
  deriving DecidableEq, Repr

/-- `st_node_t`. -/
structure Node where
  value : Option Item
  next : Pointer
  deriving DecidableEq, Repr

/-- Where a producer is in `_st_lock_free_enqueue`, before its next step: the node it has got, the local
variables `tail` and `next` as far as they are read. `linked` and `swung`: the count is left to store. -/
inductive Producer
  | idle
  | top (node : Addr) (i : Item)
  | readTailPtr (node : Addr) (i : Item) (tailCount : Count)
  | readNextPtr (node : Addr) (i : Item) (tail : Pointer)
  | readNextCount (node : Addr) (i : Item) (tail : Pointer) (nextPtr : Addr)
  | checkCount (node : Addr) (i : Item) (tail next : Pointer)
  | checkPtr (node : Addr) (i : Item) (tail next : Pointer)
  | swap (node : Addr) (i : Item) (tail next : Pointer)
  | linked (i : Item) (tailPtr : Addr) (count : Count)
  | swung (node : Addr) (i : Item) (count : Count)
  deriving DecidableEq, Repr

/-- Where the consumer is in `_st_lock_free_dequeue`; `gotValue` after it has read the value, `moved`
after it has moved the head, `release` when the old head is left to free. -/
inductive Consumer
  | idle
  | top
  | readHeadCount (headPtr : Addr)
  | readTailCount (head : Pointer)
  | readTailPtr (head : Pointer) (tailCount : Count)
  | readNextCount (head tail : Pointer)
  | readNextPtr (head tail : Pointer) (nextCount : Count)
  | checkCount (head tail next : Pointer)
  | checkPtr (head tail next : Pointer)
  | decide (head tail next : Pointer)
  | gotValue (head next : Pointer) (v : Option Item)
  | moved (head : Pointer) (v : Option Item)
  | release (headPtr : Addr) (v : Option Item)
  | swung (count : Count)
  deriving DecidableEq, Repr

/-- The calls that have returned, newest first. -/
inductive Event
  | enqueued (i : Item)
  | dequeued (v : Option Item)
  | empty
  deriving DecidableEq, Repr

/-- Memory, the addresses in use, `st_queue_t`, the producers and the consumer; `busy` are the producers
inside a call, `calls` how many each has begun. No function reads `trace`. -/
structure Sys where
  mem : Addr → Node
  allocated : List Addr
  head : Pointer
  tail : Pointer
  prod : ℕ → Producer
  busy : List ℕ
  calls : ℕ → ℕ
  cons : Consumer
  trace : List Event

/-- A call, or the next step of one; `a` is what `calloc` returns. -/
inductive Step
  | enqueue (p : ℕ) (v : ThreadPtr) (a : Addr)
  | producer (p : ℕ)
  | dequeue
  | consumer
  deriving DecidableEq, Repr

namespace Sys

/-! ### The steps -/

def setProd (p : ℕ) (c : Producer) (s : Sys) : Sys := { s with prod := update s.prod p c }

def setCons (c : Consumer) (s : Sys) : Sys := { s with cons := c }

/-- `calloc`, and the value is stored in the node. -/
def enqueue (p : ℕ) (v : ThreadPtr) (a : Addr) (s : Sys) : Sys :=
  let i : Item := ⟨v, p, s.calls p⟩
  { s.setProd p (.top a i) with
    mem := update s.mem a ⟨some i, ⟨0, 0⟩⟩
    allocated := a :: s.allocated
    busy := p :: s.busy
    calls := update s.calls p (s.calls p + 1) }

/-- `cas` of `tail.ptr->next` or of the tail of the queue. -/
def swap (p : ℕ) (node : Addr) (i : Item) (tail next : Pointer) (s : Sys) : Sys :=
  if next.ptr = 0 then
    let n := s.mem tail.ptr
    if n.next.ptr = next.ptr then
      { s.setProd p (.linked i tail.ptr (next.count + 1)) with
        mem := update s.mem tail.ptr { n with next := { n.next with ptr := node } } }
    else s.setProd p (.top node i)
  else if s.tail.ptr = tail.ptr then
    { s.setProd p (.swung node i (tail.count + 1 + 1)) with tail := { s.tail with ptr := next.ptr } }
  else s.setProd p (.top node i)

/-- The next step of `_st_lock_free_enqueue`. -/
def producer (p : ℕ) (s : Sys) : Sys :=
  match s.prod p with
  | .idle => s
  | .top n i => s.setProd p (.readTailPtr n i s.tail.count)
  | .readTailPtr n i c => s.setProd p (.readNextPtr n i ⟨s.tail.ptr, c⟩)
  | .readNextPtr n i t =>
    s.setProd p (.readNextCount n i t (if t.ptr = 0 then 0 else (s.mem t.ptr).next.ptr))
  | .readNextCount n i t x =>
    s.setProd p (.checkCount n i t ⟨x, if t.ptr = 0 then 0 else (s.mem t.ptr).next.count⟩)
  | .checkCount n i t x =>
    s.setProd p (if t.count = s.tail.count then .checkPtr n i t x else .top n i)
  | .checkPtr n i t x => s.setProd p (if t.ptr = s.tail.ptr then .swap n i t x else .top n i)
  | .swap n i t x => s.swap p n i t x
  | .linked i a c =>
    let n := s.mem a
    { s.setProd p .idle with
      mem := update s.mem a { n with next := { n.next with count := c } }
      busy := s.busy.erase p
      trace := .enqueued i :: s.trace }
  | .swung n i c => { s.setProd p (.top n i) with tail := { s.tail with count := c } }

/-- Head and tail are read: the queue is empty, the tail lags behind, or the value is read. -/
def decide (head tail next : Pointer) (s : Sys) : Sys :=
  if head.ptr = tail.ptr then
    if next.ptr = 0 then { s.setCons .idle with trace := .empty :: s.trace }
    else if s.tail.ptr = tail.ptr then
      { s.setCons (.swung (tail.count + 1)) with tail := { s.tail with ptr := next.ptr } }
    else s.setCons .top
  else s.setCons (.gotValue head next (s.mem next.ptr).value)

/-- The next step of `_st_lock_free_dequeue`. -/
def consumer (s : Sys) : Sys :=
  match s.cons with
  | .idle => s
  | .top => s.setCons (.readHeadCount s.head.ptr)
  | .readHeadCount h => s.setCons (.readTailCount ⟨h, s.head.count⟩)
  | .readTailCount h => s.setCons (.readTailPtr h s.tail.count)
  | .readTailPtr h c => s.setCons (.readNextCount h ⟨s.tail.ptr, c⟩)
  | .readNextCount h t =>
    if h.ptr = 0 then { s.setCons .idle with trace := .empty :: s.trace }
    else s.setCons (.readNextPtr h t (s.mem h.ptr).next.count)
  | .readNextPtr h t c => s.setCons (.checkCount h t ⟨(s.mem h.ptr).next.ptr, c⟩)
  | .checkCount h t x => s.setCons (if h.count = s.head.count then .checkPtr h t x else .top)
  | .checkPtr h t x => s.setCons (if h.ptr = s.head.ptr then .decide h t x else .top)
  | .decide h t x => s.decide h t x
  | .gotValue h x v =>
    if s.head.ptr = h.ptr then { s.setCons (.moved h v) with head := { s.head with ptr := x.ptr } }
    else s.setCons .top
  | .moved h v =>
    { s.setCons (.release h.ptr v) with head := { s.head with count := h.count + 1 } }
  | .release a v =>
    { s.setCons .idle with allocated := s.allocated.erase a, trace := .dequeued v :: s.trace }
  | .swung c => { s.setCons .top with tail := { s.tail with count := c } }

def Enabled (s : Sys) : Step → Prop
  | .enqueue p _ a => s.prod p = .idle ∧ a ≠ 0 ∧ a ∉ s.allocated
  | .producer p => s.prod p ≠ .idle
  | .dequeue => s.cons = .idle
  | .consumer => s.cons ≠ .idle

instance decidableEnabled (s : Sys) : ∀ a, Decidable (s.Enabled a)
  | .enqueue _ _ _ => inferInstanceAs (Decidable (_ ∧ _ ∧ _ ∉ s.allocated))
  | .producer _ | .consumer => inferInstanceAs (Decidable (_ ≠ _))
  | .dequeue => inferInstanceAs (Decidable (_ = _))

def apply (s : Sys) : Step → Sys
  | .enqueue p v a => s.enqueue p v a
  | .producer p => s.producer p
  | .dequeue => s.setCons .top
  | .consumer => s.consumer

/-- `_st_lock_free_queue_open`, with the first node at `a`. -/
def start (a : Addr) : Sys :=
  { mem := fun _ => ⟨none, ⟨0, 0⟩⟩, allocated := [a], head := ⟨a, 0⟩, tail := ⟨a, 0⟩,
    prod := fun _ => .idle, busy := [], calls := fun _ => 0, cons := .idle, trace := [] }

end Sys

def machine : Machine Sys Step where
  init s := ∃ a, a ≠ 0 ∧ s = Sys.start a
  enabled := Sys.Enabled
  apply := Sys.apply

instance decidableMachine : ∀ s a, Decidable (machine.enabled s a) := Sys.decidableEnabled

/-! ### What was returned -/

/-- The values of the enqueue calls that have returned. -/
def enqueued : List Event → List Item
  | [] => []
  | .enqueued i :: l => i :: enqueued l
  | .dequeued _ :: l | .empty :: l => enqueued l

/-- The values dequeue has returned, in that order. -/
def dequeued : List Event → List (Option Item)
  | [] => []
  | .dequeued v :: l => dequeued l ++ [v]
  | .enqueued _ :: l | .empty :: l => dequeued l

/-- `a` can be reached from the head of the queue. -/
def Reachable (s : Sys) (a : Addr) : Prop := Follows 0 (fun x => (s.mem x).next.ptr) s.head.ptr a

end StNvs.LockFree.Model
