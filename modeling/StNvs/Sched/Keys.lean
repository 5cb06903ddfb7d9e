import StNvs.Lib.History
import StNvs.Lib.Runs
import StNvs.Sched.Sleep

/-! # Thread-specific data

The key table of `key.cpp` and the private data of the threads. A key is an index into the table of
destructors; every thread has an array of one value for each key. A value and a destructor are `none`
where the pointer is `NULL`. A destructor is a function of the program: what is kept of it is that it was
called, and with what.

`trace` is the history of the calls and what they returned, newest first. What a slot holds
(`lastSet`), and which destructors have to be called (`callsDue`), are functions of the history alone.

* `thread_specific_data`: in every run a thread reads what it last set, and the destructors that were
  called are those that were due. -/

namespace StNvs.Sched.Keys

open StNvs.Lib.History StNvs.Lib.Runs StNvs.Sched.Sleep Function

variable {D V : Type}

/-! ### The key table and the slots -/

/-- `ST_KEYS_MAX`. -/
def keysMax : ℕ := 16

inductive Errno
  | eagain | einval
  deriving DecidableEq, Repr

/-- A call, and what it returned: the new key, nothing, or `errno`. -/
inductive Event (D V : Type)
  | threadCreate (t : ThreadPtr)
  | keyCreate (destructor : Option D) (r : Except Errno ℤ)
  | setspecific (t : ThreadPtr) (key : ℤ) (value : Option V) (r : Except Errno Unit)
  | getspecific (t : ThreadPtr) (key : ℤ) (r : Option V)
  | threadExit (t : ThreadPtr)

/-- `_st_destructors`, `key_max` and the `private_data` of the threads. `live` are the threads that have
not exited; `calls` are the destructor calls in their order. -/
structure Table (D V : Type) where
  destructors : ℕ → Option D
  keyMax : ℕ
  privateData : ThreadPtr → ℕ → Option V
  live : List ThreadPtr
  calls : List (D × V)
  trace : List (Event D V)

namespace Table

/-- `if (value && destructor) (*destructor)(value)`. -/
def destroy (destructor : Option D) (value : Option V) : List (D × V) :=
  match value, destructor with
  | some v, some d => [(d, v)]
  | _, _ => []

def log (e : Event D V) (s : Table D V) : Table D V := { s with trace := e :: s.trace }

/-- `private_data[key] = value`. -/
def store (t : ThreadPtr) (key : ℕ) (value : Option V) (s : Table D V) : Table D V :=
  { s with privateData := update s.privateData t (update (s.privateData t) key value) }

/-- The destructor of the key, called for what the thread has in the slot. -/
def callDestructor (t : ThreadPtr) (key : ℕ) (s : Table D V) : Table D V :=
  { s with calls := s.calls ++ destroy (s.destructors key) (s.privateData t key) }

/-- `st_key_create`. -/
def keyCreate (destructor : Option D) (s : Table D V) : Table D V × Except Errno ℤ :=
  if keysMax ≤ s.keyMax then (s, .error .eagain)
  else
    ({ s with keyMax := s.keyMax + 1, destructors := update s.destructors s.keyMax destructor },
      .ok s.keyMax)

/-- `key < 0 || key >= key_max` fails. -/
def Valid (s : Table D V) (key : ℤ) : Prop := 0 ≤ key ∧ key < s.keyMax

instance decidableValid (s : Table D V) (key : ℤ) : Decidable (s.Valid key) :=
  inferInstanceAs (Decidable (_ ∧ _))

/-- `st_thread_setspecific` of the thread `me`. -/
def threadSetspecific [DecidableEq V] (me : ThreadPtr) (key : ℤ) (value : Option V) (s : Table D V) :
    Table D V × Except Errno Unit :=
  if ¬ s.Valid key then (s, .error .einval)
  else if value ≠ s.privateData me key.toNat then
    ((s.callDestructor me key.toNat).store me key.toNat value, .ok ())
  else (s, .ok ())

/-- `st_thread_getspecific` of the thread `me`. -/
def threadGetspecific (me : ThreadPtr) (key : ℤ) (s : Table D V) : Option V :=
  if ¬ s.Valid key then none else s.privateData me key.toNat

/-- The loop of `_st_thread_cleanup`. -/
def cleanupLoop (t : ThreadPtr) : List ℕ → Table D V → Table D V
  | [], s => s
  | key :: keys, s =>
    if s.privateData t key ≠ none ∧ s.destructors key ≠ none then
      cleanupLoop t keys ((s.callDestructor t key).store t key none)
    else cleanupLoop t keys s

/-- `_st_thread_cleanup`. -/
def threadCleanup (t : ThreadPtr) (s : Table D V) : Table D V := s.cleanupLoop t (List.range s.keyMax)

/-- `st_thread_create`: the slots of the new thread are cleared. -/
def threadCreate (t : ThreadPtr) (s : Table D V) : Table D V :=
  { s with privateData := update s.privateData t fun _ => none, live := t :: s.live }

/-- `st_thread_exit`, as far as the slots are concerned. -/
def threadExit (t : ThreadPtr) (s : Table D V) : Table D V :=
  { s.threadCleanup t with live := s.live.erase t }

end Table

/-! ### What the history tells -/

/-- The destructors of the keys that were created, in their order. -/
def created : List (Event D V) → List (Option D)
  | [] => []
  | .keyCreate d (.ok _) :: h => created h ++ [d]
  | _ :: h => created h

/-- The value a thread last set for a key, since it exists. -/
def lastSet (t : ThreadPtr) (key : ℤ) : List (Event D V) → Option V
  | [] => none
  | .threadCreate t' :: h => if t' = t then none else lastSet t key h
  | .setspecific t' key' v (.ok _) :: h => if t' = t ∧ key' = key then v else lastSet t key h
  | _ :: h => lastSet t key h

/-- The destructor call a value is owed when it leaves the slot of the thread: that of the destructor the
key was created with, if both are there. -/
def owed (h : List (Event D V)) (t : ThreadPtr) (key : ℕ) : List (D × V) :=
  Table.destroy ((created h)[key]?).join (lastSet t key h)

/-- The destructor calls of one event after a history: for the value that is replaced by a different one,
and for those an exiting thread leaves behind. -/
def due [DecidableEq V] : Event D V → List (Event D V) → List (D × V)
  | .setspecific t key v (.ok _), h => if v = lastSet t key h then [] else owed h t key.toNat
  | .threadExit t, h => (List.range (created h).length).flatMap (owed h t)
  | _, _ => []

/-- All the destructor calls of a history, in their order. -/
def callsDue [DecidableEq V] : List (Event D V) → List (D × V)
  | [] => []
  | e :: h => callsDue h ++ due e h

/-- A key that was created. -/
def Known (h : List (Event D V)) (key : ℤ) : Prop := 0 ≤ key ∧ key < (created h).length

/-- What a call returns after a history. -/
def Answers : Event D V → List (Event D V) → Prop
  | .keyCreate _ r, h =>
    r = if (created h).length < keysMax then .ok ((created h).length : ℤ) else .error .eagain
  | .setspecific _ key _ r, h => (Known h key ∧ r = .ok ()) ∨ (¬ Known h key ∧ r = .error .einval)
  | .getspecific t key r, h => r = lastSet t key h
  | _, _ => True

/-! ### What the functions do -/

variable {s : Table D V} {t : ThreadPtr} {key : ℤ} {d : Option D} {v : Option V}

theorem destroy_eq_nil (h : ¬ (v ≠ none ∧ d ≠ none)) : Table.destroy d v = [] := by
  cases v <;> cases d <;> simp_all [Table.destroy]

/-- What the cleanup leaves alone, and the destructors it calls: each slot is met once. -/
theorem cleanupLoop_spec (t : ThreadPtr) : ∀ (keys : List ℕ) (s : Table D V), keys.Nodup →
    (s.cleanupLoop t keys).calls =
        s.calls ++ keys.flatMap (fun k => Table.destroy (s.destructors k) (s.privateData t k)) ∧
      (s.cleanupLoop t keys).destructors = s.destructors ∧
      (s.cleanupLoop t keys).keyMax = s.keyMax ∧ (s.cleanupLoop t keys).live = s.live ∧
      (s.cleanupLoop t keys).trace = s.trace ∧
      ∀ t' ≠ t, (s.cleanupLoop t keys).privateData t' = s.privateData t'
  | [], s, _ => by simp [Table.cleanupLoop]
  | key :: keys, s, hd => by
    obtain ⟨hk, hd⟩ := List.nodup_cons.mp hd
    rw [Table.cleanupLoop]
    split
    · have hrest := cleanupLoop_spec t keys ((s.callDestructor t key).store t key none) hd
      have hsame : keys.flatMap (fun k => Table.destroy (s.destructors k)
          (((s.callDestructor t key).store t key none).privateData t k)) =
          keys.flatMap (fun k => Table.destroy (s.destructors k) (s.privateData t k)) := by
        refine List.flatMap_congr fun k hkm => ?_
        have hne : k ≠ key := fun he => hk (he ▸ hkm)
        simp [Table.store, Table.callDestructor, update_of_ne hne]
      obtain ⟨hc, h1, h2, h3, h4, h5⟩ := hrest
      refine ⟨?_, h1, h2, h3, h4, fun t' ht => ?_⟩
      · rw [hc, List.flatMap_cons, ← List.append_assoc]
        exact congrArg _ hsame
      · rw [h5 t' ht]
        simp [Table.store, Table.callDestructor, update_of_ne ht]
    · next hnone =>
      obtain ⟨hc, hrest⟩ := cleanupLoop_spec t keys s hd
      refine ⟨?_, hrest⟩
      rw [hc, List.flatMap_cons, destroy_eq_nil hnone, List.nil_append]

/-! ### Runs -/

inductive Op (D V : Type)
  | threadCreate (t : ThreadPtr)
  | keyCreate (destructor : Option D)
  | setspecific (t : ThreadPtr) (key : ℤ) (value : Option V)
  | getspecific (t : ThreadPtr) (key : ℤ)
  | threadExit (t : ThreadPtr)
  deriving DecidableEq

/-- A thread is placed where none lives; the others are called by a thread that lives. -/
def Enabled (s : Table D V) : Op D V → Prop
  | .threadCreate t => t ∉ s.live
  | .keyCreate _ => True
  | .setspecific t _ _ | .getspecific t _ | .threadExit t => t ∈ s.live

instance decidableEnabled (s : Table D V) : ∀ a, Decidable (Enabled s a)
  | .threadCreate _ => inferInstanceAs (Decidable (_ ∉ s.live))
  | .keyCreate _ => .isTrue trivial
  | .setspecific _ _ _ | .getspecific _ _ | .threadExit _ => inferInstanceAs (Decidable (_ ∈ s.live))

def apply [DecidableEq V] (s : Table D V) : Op D V → Table D V
  | .threadCreate t => (s.threadCreate t).log (.threadCreate t)
  | .keyCreate d => (s.keyCreate d).1.log (.keyCreate d (s.keyCreate d).2)
  | .setspecific t key v =>
    (s.threadSetspecific t key v).1.log (.setspecific t key v (s.threadSetspecific t key v).2)
  | .getspecific t key => s.log (.getspecific t key (s.threadGetspecific t key))
  | .threadExit t => (s.threadExit t).log (.threadExit t)

/-- The program starts without keys and threads; the primordial thread is created like any other. -/
def start : Table D V :=
  { destructors := fun _ => none, keyMax := 0, privateData := fun _ _ => none, live := [], calls := [],
    trace := [] }

/-- The table and the threads as a machine. -/
def machine [DecidableEq V] : Machine (Table D V) (Op D V) where
  init s := s = start
  enabled := Enabled
  apply := apply

instance decidableMachine [DecidableEq V] : ∀ (s : Table D V) a, Decidable (machine.enabled s a) :=
  decidableEnabled

/-! ### The invariant -/

/-- The table and the slots are what the history tells. -/
structure Shape [DecidableEq V] (s : Table D V) : Prop where
  count : s.keyMax = (created s.trace).length
  bound : s.keyMax ≤ keysMax
  table : ∀ k, s.destructors k = ((created s.trace)[k]?).join
  slots : ∀ t ∈ s.live, ∀ k : ℕ, s.privateData t k = lastSet t k s.trace
  known : ∀ t key, lastSet t key s.trace ≠ none → Known s.trace key
  calls : s.calls = callsDue s.trace
  nodup : s.live.Nodup
  answers : Justified Answers s.trace

section Invariant

variable [DecidableEq V]

theorem shape_start : Shape (start : Table D V) where
  count := rfl
  bound := Nat.zero_le _
  table _ := rfl
  slots _ ht := absurd ht List.not_mem_nil
  known _ _ hv := absurd rfl hv
  calls := rfl
  answers := trivial
  nodup := List.nodup_nil

theorem Shape.valid_iff (hs : Shape s) : s.Valid key ↔ Known s.trace key := by
  rw [Table.Valid, Known, hs.count]

/-- A thread that lives reads what it last set. -/
theorem Shape.get (hs : Shape s) (ht : t ∈ s.live) :
    s.threadGetspecific t key = lastSet t key s.trace := by
  rw [Table.threadGetspecific]
  split
  · next hv =>
    by_contra hne
    exact hv (hs.valid_iff.mpr (hs.known t key (Ne.symm hne)))
  · next hv =>
    have hk : ((key.toNat : ℕ) : ℤ) = key := Int.toNat_of_nonneg (not_not.mp hv).1
    rw [hs.slots t ht, hk]

/-- The destructor call for a slot of a thread that lives is the one that is owed. -/
theorem Shape.destroy_slot (hs : Shape s) (ht : t ∈ s.live) (k : ℕ) :
    Table.destroy (s.destructors k) (s.privateData t k) = owed s.trace t k := by
  rw [owed, hs.table, hs.slots t ht]

theorem shape_threadCreate (hs : Shape s) (ht : t ∉ s.live) : Shape (apply s (.threadCreate t)) where
  count := hs.count
  bound := hs.bound
  table := hs.table
  slots t' ht' k := by
    rcases eq_or_ne t' t with rfl | hne
    · simp [apply, Table.threadCreate, Table.log, lastSet]
    · have ht' : t' ∈ s.live := (List.mem_cons.mp ht').resolve_left hne
      simp [apply, Table.threadCreate, Table.log, lastSet, hne, hne.symm, hs.slots t' ht']
  known t' key hv := by
    have hv : lastSet t' key s.trace ≠ none := by
      intro hnone
      exact hv (by simp [apply, Table.log, Table.threadCreate, lastSet, hnone])
    exact hs.known t' key hv
  calls := by simpa [apply, Table.threadCreate, Table.log, callsDue, due] using hs.calls
  answers := ⟨trivial, hs.answers⟩
  nodup := List.nodup_cons.mpr ⟨ht, hs.nodup⟩

/-- A failed `st_key_create` changes nothing but the history. -/
theorem shape_keyCreate (hs : Shape s) : Shape (apply s (.keyCreate d)) := by
  have hcount := hs.count
  rcases Nat.lt_or_ge s.keyMax keysMax with hlt | hge
  · have hok : s.keyCreate d = ({ s with
        keyMax := s.keyMax + 1, destructors := update s.destructors s.keyMax d }, .ok s.keyMax) :=
      if_neg (by omega)
    simp only [apply, hok, Table.log]
    refine ⟨?_, hlt, fun k => ?_, hs.slots, fun t key hv => ?_, ?_, hs.nodup, ?_,
      hs.answers⟩
    · simp [created, hcount]
    · show update s.destructors s.keyMax d k = ((created s.trace ++ [d])[k]?).join
      rcases lt_trichotomy k s.keyMax with hk | rfl | hk
      · rw [update_of_ne hk.ne, hs.table, List.getElem?_append_left (by omega)]
      · simp [hcount]
      · rw [update_of_ne hk.ne', hs.table, List.getElem?_eq_none (by omega),
          List.getElem?_eq_none (by simp; omega)]
    · have hkn := hs.known t key hv
      exact ⟨hkn.1, hkn.2.trans (by simp [created])⟩
    · simpa [callsDue, due] using hs.calls
    · show _ = ite _ _ _
      rw [if_pos (by omega), hcount]
  · have hfail : s.keyCreate d = (s, .error .eagain) := if_pos hge
    simp only [apply, hfail, Table.log]
    refine ⟨hcount, hs.bound, hs.table, hs.slots, hs.known, ?_, hs.nodup, ?_,
      hs.answers⟩
    · simpa [callsDue, due] using hs.calls
    · show _ = ite _ _ _
      rw [if_neg (by omega)]

/-- What can be read after a value was set belongs to a key that is known. -/
theorem Shape.known_set (hs : Shape s) (hk : Known s.trace key) {t' : ThreadPtr} {key' : ℤ}
    (hv : lastSet t' key' (.setspecific t key v (.ok ()) :: s.trace) ≠ none) : Known s.trace key' := by
  rw [lastSet] at hv
  split at hv
  · next hj => exact hj.2 ▸ hk
  · exact hs.known t' key' hv

/-- A failed `st_thread_setspecific` changes nothing but the history. -/
theorem shape_setspecific (hs : Shape s) (ht : t ∈ s.live) :
    Shape (apply s (.setspecific t key v)) := by
  by_cases hv : s.Valid key
  · have hkn := hs.valid_iff.mp hv
    obtain ⟨k, rfl⟩ := Int.eq_ofNat_of_zero_le hv.1
    have hslot := hs.slots t ht k
    rcases eq_or_ne v (s.privateData t k) with heq | hne
    · -- the value is there already
      have hok : s.threadSetspecific t k v = (s, .ok ()) := by
        simp [Table.threadSetspecific, hv, heq]
      simp only [apply, hok, Table.log]
      refine ⟨hs.count, hs.bound, hs.table, fun t' ht' j => ?_, fun t' key' hv' => hs.known_set hkn hv', ?_,
        hs.nodup, .inl ⟨hkn, rfl⟩, hs.answers⟩
      · simp only [lastSet]
        split
        · next hj =>
          obtain ⟨rfl, hj⟩ := hj
          rw [← Int.ofNat.inj hj, heq]
        · exact hs.slots t' ht' j
      · simpa [callsDue, due, ← hslot, heq] using hs.calls
    · have hok : s.threadSetspecific t k v = ((s.callDestructor t k).store t k v, .ok ()) := by
        simp [Table.threadSetspecific, hv, hne]
      simp only [apply, hok, Table.log, Table.store, Table.callDestructor]
      refine ⟨hs.count, hs.bound, hs.table, fun t' ht' j => ?_, fun t' key' hv' => hs.known_set hkn hv', ?_,
        hs.nodup, .inl ⟨hkn, rfl⟩, hs.answers⟩
      · simp only [lastSet]
        split
        · next hj =>
          obtain ⟨rfl, hj⟩ := hj
          rw [← Int.ofNat.inj hj, update_self, update_self]
        · next hj =>
          rcases eq_or_ne t' t with rfl | hne'
          · have hjk : j ≠ k := fun he => hj ⟨rfl, by rw [he]⟩
            rw [update_self, update_of_ne hjk, hs.slots t' ht']
          · rw [update_of_ne hne', hs.slots t' ht']
      · rw [hs.destroy_slot ht, hs.calls, callsDue, due, if_neg (hslot ▸ hne), Int.toNat_natCast]
  · have hfail : s.threadSetspecific t key v = (s, .error .einval) := if_pos hv
    simp only [apply, hfail, Table.log]
    refine ⟨hs.count, hs.bound, hs.table, hs.slots, hs.known, ?_,
      hs.nodup, .inr ⟨fun hk => hv (hs.valid_iff.mpr hk), rfl⟩, hs.answers⟩
    simpa [callsDue, due] using hs.calls

theorem shape_getspecific (hs : Shape s) (ht : t ∈ s.live) :
    Shape (apply s (.getspecific t key)) where
  count := hs.count
  bound := hs.bound
  table := hs.table
  slots := hs.slots
  known := hs.known
  calls := by simpa [apply, Table.log, callsDue, due] using hs.calls
  answers := ⟨hs.get ht, hs.answers⟩
  nodup := hs.nodup

theorem shape_threadExit (hs : Shape s) (ht : t ∈ s.live) :
    Shape (apply s (.threadExit t)) := by
  obtain ⟨hc, h1, h2, h3, h4, h5⟩ := cleanupLoop_spec t (List.range s.keyMax) s List.nodup_range
  refine ⟨?_, ?_, fun k => ?_, fun t' ht' k => ?_, fun t' key hv => ?_, ?_, ?_, ?_⟩
  all_goals
    simp only [apply, Table.threadExit, Table.threadCleanup, Table.log, h1, h2, h3, h4] at *
  · exact hs.count
  · exact hs.bound
  · exact hs.table k
  · have hmem := hs.nodup.mem_erase_iff.mp ht'
    rw [h5 t' hmem.1]
    exact hs.slots t' hmem.2 k
  · exact hs.known t' key hv
  · rw [hc, hs.calls, callsDue, due, ← hs.count]
    simp only [hs.destroy_slot ht]
  · exact hs.nodup.erase t
  · exact ⟨trivial, hs.answers⟩

theorem shape_apply {a : Op D V} (hs : Shape s) (ha : Enabled s a) : Shape (apply s a) := by
  cases a with
  | threadCreate t => exact shape_threadCreate hs ha
  | keyCreate d => exact shape_keyCreate hs
  | setspecific t key v => exact shape_setspecific hs ha
  | getspecific t key => exact shape_getspecific hs ha
  | threadExit t => exact shape_threadExit hs ha

theorem shape_reach (h : Reach machine s) : Shape s :=
  h.invariant (I := Shape) (fun _ he => he ▸ shape_start) fun _ _ hs ha _ => shape_apply hs ha

/-! ### Thread-specific data -/

/-- **Thread-specific data**: whatever was called, every call returned what the history before it says, a
thread reads what it last set; the destructors called are those that were due, in their order; and a call
that fails changes nothing. -/
theorem thread_specific_data (h : Reach machine s) :
    Justified Answers s.trace ∧
      (∀ t ∈ s.live, ∀ key, s.threadGetspecific t key = lastSet t key s.trace) ∧
      s.calls = callsDue s.trace ∧
      (∀ d e, (s.keyCreate d).2 = .error e → (s.keyCreate d).1 = s) ∧
      ∀ t key v e, (s.threadSetspecific t key v).2 = .error e → (s.threadSetspecific t key v).1 = s := by
  have hs := shape_reach h
  refine ⟨hs.answers, fun t ht key => hs.get ht, hs.calls, fun d e he => ?_, fun t key v e he => ?_⟩
  · rw [Table.keyCreate] at he ⊢
    split at he
    · rw [if_pos ‹_›]
    · cases he
  · rw [Table.threadSetspecific] at he ⊢
    split at he
    · rw [if_pos ‹_›]
    · split at he <;> cases he

/-- Two threads and two keys: a value replaced, one left behind by an exit, and a key created between a
set and the exit. -/
def twoThreads : List (Op ℕ ℕ) :=
  [.threadCreate 0, .keyCreate (some 7), .threadCreate 1, .setspecific 0 0 (some 50),
    .setspecific 1 0 (some 60), .setspecific 0 0 (some 51), .keyCreate none, .setspecific 1 1 (some 61),
    .getspecific 0 0, .setspecific 0 2 (some 52), .threadExit 1]

theorem twoThreads_calls : (twoThreads.foldl apply start).calls = [(7, 50), (7, 60)] ∧
    (twoThreads.foldl apply start).calls = callsDue (twoThreads.foldl apply start).trace ∧
    (twoThreads.foldl apply start).threadGetspecific 0 0 = some 51 :=
  have h : Reach machine (twoThreads.foldl apply start) :=
    (ReachVia.init rfl).foldl twoThreads (by decide)
  ⟨by decide, (thread_specific_data h).2.2.1, by decide⟩

end Invariant

end StNvs.Sched.Keys
