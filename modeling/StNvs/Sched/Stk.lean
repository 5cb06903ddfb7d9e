import Mathlib.Data.List.Perm.Subperm
import StNvs.Lib.Circular
import StNvs.Sched.Sleep

/-! # The stack pool

Stacks of finished threads are kept in a circular list, linked through their `links`, and reused:
`stackNew` walks the list from its head for one that is big enough, and makes a new one when there is
none; `stackFree` puts a stack on the list. The functions are those of `stk.cpp`. What the allocators
return is an argument; of the place of a stack in memory only the one of the thread object that
`st_thread_create` puts below its top is kept. `Free p l` says that the list is `l`. -/

namespace StNvs.Sched.Stk

open StNvs.Lib.Circular StNvs.Sched.Sleep Function

/-! ### The data -/

/-- A `st_stack_t *`. -/
abbrev StackPtr := ℕ

/-- A `st_clist_t *`: `NULL`, `&_st_free_stacks`, or the links of a stack. -/
inductive Link
  | null
  | freeStacks
  | stack (ts : StackPtr)
  deriving DecidableEq, Repr

/-- `st_stack_t`; `thread` is where the thread object goes, below `stk_top`. -/
structure Stack where
  stkSize : ℤ
  thread : ThreadPtr
  deriving DecidableEq, Repr

/-- What `calloc` and the segment allocator return for a new stack: the stack object, and with the
segment the place of the thread object. -/
structure Segment where
  ts : StackPtr
  thread : ThreadPtr
  deriving DecidableEq, Repr

/-- The globals of `stk.cpp`, and the stacks; `allocated` are those that were made so far. -/
structure Pool where
  links : Nodes Link
  numFree : ℤ
  stack : StackPtr → Stack
  allocated : List StackPtr

namespace Pool

/-- `ST_INIT_STATIC_CLIST`: the head is linked to itself. -/
def init : Pool where
  links := ((⟨fun _ => .null, fun _ => .null⟩ : Nodes Link).setNext .freeStacks .freeStacks).setPrev
    .freeStacks .freeStacks
  numFree := 0
  stack := fun _ => ⟨0, 0⟩
  allocated := []

/-- `links.next = NULL; links.prev = NULL`. -/
def unlink (ts : StackPtr) (m : Nodes Link) : Nodes Link :=
  (m.setNext (.stack ts) .null).setPrev (.stack ts) .null

/-! ### The functions -/

/-- The loop of `_st_stack_new`, from `qp`: the stack it stops at, if it does not come to the head.
`none` when the fuel is used up, or at `NULL`. -/
def stackLoop (n : ℤ) (p : Pool) : ℕ → Link → Option (Option StackPtr)
  | 0, _ | _, .null => none
  | _ + 1, .freeStacks => some none
  | k + 1, .stack ts =>
    if n ≤ (p.stack ts).stkSize then some (some ts) else p.stackLoop n k (p.links.next (.stack ts))

/-- A stack is taken off the free list. -/
def take (ts : StackPtr) (p : Pool) : Pool :=
  { p with links := unlink ts (p.links.removeLink (.stack ts)), numFree := p.numFree - 1 }

/-- A new stack is made. -/
def make (n : ℤ) (m : Segment) (p : Pool) : Pool :=
  { p with
    links := unlink m.ts p.links
    stack := update p.stack m.ts ⟨n, m.thread⟩
    allocated := m.ts :: p.allocated }

/-- `_st_stack_new`; `mem` is what a new stack is made of, if the allocators have it. -/
def stackNew (n : ℤ) (mem : Option Segment) (p : Pool) : Option (Option StackPtr × Pool) :=
  (p.stackLoop n (p.allocated.length + 1) (p.links.next .freeStacks)).map fun r =>
    match r, mem with
    | some ts, _ => (some ts, p.take ts)
    | none, some m => (some m.ts, p.make n m)
    | none, none => (none, p)

/-- `_st_stack_free`. -/
def stackFree : Option StackPtr → Pool → Pool
  | none, p => p
  | some ts, p =>
    { p with
      links := p.links.insertBefore (.stack ts) fun m => m.prev .freeStacks
      numFree := p.numFree + 1 }

end Pool

/-! ### The free list -/

/-- The free list is `l`. -/
structure Free (p : Pool) (l : List StackPtr) : Prop where
  ring : Ring p.links .freeStacks (l.map .stack)
  num : p.numFree = l.length
  made : ∀ ts ∈ l, ts ∈ p.allocated

variable {p : Pool} {l : List StackPtr} {n : ℤ} {ts : StackPtr} {m : Segment}

theorem free_init : Free .init [] := ⟨⟨⟨rfl, rfl⟩, by simp⟩, rfl, by simp⟩

theorem Free.nodup (h : Free p l) : l.Nodup := (List.nodup_cons.mp h.ring.nodup).2.of_map _

theorem Free.length_le (h : Free p l) : l.length ≤ p.allocated.length :=
  (h.nodup.subperm h.made).length_le

theorem mem_map_stack : Link.stack ts ∈ l.map Link.stack ↔ ts ∈ l := by simp

/-- The links of a stack that is not on the list can be overwritten. -/
theorem Free.unlink {m : Nodes Link} (h : Ring m .freeStacks (l.map .stack)) (hts : ts ∉ l) :
    Ring (Pool.unlink ts m) .freeStacks (l.map .stack) := by
  have hne : ∀ y ∈ Link.freeStacks :: l.map Link.stack, y ≠ .stack ts := by
    rintro y hy rfl
    exact hts (mem_map_stack.mp ((List.mem_cons.mp hy).resolve_left nofun))
  exact h.congr (fun y hy => update_of_ne (hne y hy) _ _) fun y hy => update_of_ne (hne y hy) _ _

/-- The walk along the list finds the first stack that is big enough. -/
theorem stackLoop_eq (n : ℤ) : ∀ {a : Link} {l : List StackPtr} {k : ℕ},
    Path p.links a (l.map .stack) .freeStacks → l.length < k →
    p.stackLoop n k (p.links.next a) = some (l.find? fun ts => n ≤ (p.stack ts).stkSize)
  | a, [], k + 1, hp, _ => by rw [hp.1]; rfl
  | a, ts :: l, k + 1, hp, hk => by
    rw [hp.1.1, Pool.stackLoop, List.find?_cons]
    split_ifs with hn
    · simp [hn]
    · have hrest := stackLoop_eq n hp.2 (Nat.lt_of_succ_lt_succ hk)
      simpa [hn] using hrest

/-- `_st_stack_new` always comes to an end: with a stack of the list, or with a new one if none of the
list is big enough and there is memory. -/
theorem Free.stackNew (h : Free p l) (mem : Option Segment) :
    (∃ l₁ ts l₂, l = l₁ ++ ts :: l₂ ∧ n ≤ (p.stack ts).stkSize ∧
      p.stackNew n mem = some (some ts, p.take ts)) ∨
    (∀ ts ∈ l, (p.stack ts).stkSize < n) ∧
      p.stackNew n mem = some (match mem with
        | some m => (some m.ts, p.make n m)
        | none => (none, p)) := by
  have hloop := stackLoop_eq n h.ring.path (Nat.lt_succ_of_le h.length_le)
  rw [Pool.stackNew, hloop]
  cases hf : l.find? fun ts => n ≤ (p.stack ts).stkSize with
  | some ts =>
    obtain ⟨hn, l₁, l₂, rfl, -⟩ := List.find?_eq_some_iff_append.mp hf
    exact .inl ⟨l₁, ts, l₂, rfl, by simpa using hn, rfl⟩
  | none =>
    refine .inr ⟨fun ts hts => ?_, ?_⟩
    · simpa using List.find?_eq_none.mp hf ts hts
    · cases mem <;> rfl

/-- **A stack is taken off** the list. -/
theorem Free.take {l₁ l₂ : List StackPtr} (h : Free p (l₁ ++ ts :: l₂)) :
    Free (p.take ts) (l₁ ++ l₂) ∧ ts ∉ l₁ ++ l₂ := by
  have hd : (ts :: (l₁ ++ l₂)).Nodup := List.perm_middle.nodup_iff.mp h.nodup
  have hts := (List.nodup_cons.mp hd).1
  refine ⟨⟨?_, ?_, fun x hx => h.made x ?_⟩, hts⟩
  · have hr := h.ring
    rw [List.map_append, List.map_cons] at hr
    have hrem := hr.removeLink
    rw [← List.map_append] at hrem
    exact Free.unlink hrem hts
  · have := h.num
    simp only [List.length_append, List.length_cons] at this
    simp only [Pool.take, List.length_append]
    omega
  · rcases List.mem_append.mp hx with hx | hx <;> simp [hx]

/-- A new stack is not on the list. -/
theorem Free.make (h : Free p l) (hm : m.ts ∉ p.allocated) : Free (p.make n m) l ∧ m.ts ∉ l := by
  have hts : m.ts ∉ l := fun hl => hm (h.made _ hl)
  exact ⟨⟨Free.unlink h.ring hts, h.num, fun x hx => List.mem_cons_of_mem _ (h.made x hx)⟩, hts⟩

/-- **A stack is put on** the list: before its last element, if it has one. -/
theorem Free.stackFree (h : Free p l) (hts : ts ∉ l) (hm : ts ∈ p.allocated) :
    ∃ l', Free (p.stackFree (some ts)) l' ∧ l'.Perm (ts :: l) := by
  have hhead : Link.stack ts ≠ .freeStacks := nofun
  have hlinks : (hprev : Link.stack ts ≠ p.links.prev .freeStacks) →
      (p.stackFree (some ts)).links = p.links.link (.stack ts) (p.links.prev .freeStacks) :=
    fun hprev => insertBefore_prev hhead hprev
  rcases List.eq_nil_or_concat l with rfl | ⟨l₁, x, rfl⟩
  · have hp : p.links.prev .freeStacks = .freeStacks := h.ring.path.2
    refine ⟨[ts], ⟨?_, ?_, fun x hx => List.mem_singleton.mp hx ▸ hm⟩, .refl _⟩
    · rw [hlinks (by rw [hp]; exact hhead), hp]
      exact h.ring.link_end (by simp)
    · have := h.num
      simp only [Pool.stackFree, List.length_singleton]
      simpa using this
  · rw [List.concat_eq_append] at h hts ⊢
    have hp : p.links.prev .freeStacks = .stack x := by
      have hr := h.ring.path
      rw [List.map_append] at hr
      exact (path_append.mp hr).2.2
    have hr := h.ring
    rw [List.map_append] at hr
    refine ⟨l₁ ++ ts :: [x], ⟨?_, ?_, fun y hy => ?_⟩, ?_⟩
    · have hne : Link.stack ts ≠ .stack x := by rintro ⟨⟩; simp at hts
      rw [hlinks (by rw [hp]; exact hne), hp]
      simpa using hr.link (e := .stack ts) (by simpa using hts)
    · have := h.num
      simp only [List.length_append, List.length_cons, List.length_nil] at this ⊢
      simp only [Pool.stackFree]
      omega
    · have hy : y = ts ∨ y ∈ l₁ ++ [x] := by simpa [or_left_comm] using hy
      rcases hy with rfl | hy
      · exact hm
      · exact h.made y hy
    · exact List.perm_middle

end StNvs.Sched.Stk
