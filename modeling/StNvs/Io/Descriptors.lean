import StNvs.Lib.Runs
import StNvs.Lib.Links
import Mathlib.Data.List.Nodup
import Mathlib.Data.Int.Notation

/-! # The descriptor objects and their free list

`_st_netfd_new` takes an `st_netfd_t` from the free list, or allocates one; `st_netfd_free` puts it back.
A run is a sequence of the calls that do so. Next to the pool a run keeps what a reader of the calls
would know: the handles in use with what they were opened with, and those freed and not reissued.

* `pool_shape`: the free list is what was freed and not reissued, and no handle is issued twice.
* `law_iff`: a handle refers to the descriptor it was last opened with, throughout a run, just when every
  handle that is reissued is reissued for the descriptor it had before. -/

namespace StNvs.Io.Descriptors

open StNvs.Lib.Runs StNvs.Lib.Links Function

/-! ### The pool -/

/-- `st_netfd_t`. Its `aux_data` is never set, and `private_data` by `st_netfd_setspecific` only. -/
structure Netfd where
  osfd : ℤ
  inuse : Bool
  next : Option ℕ
  deriving DecidableEq, Repr

/-- The objects, numbered as `calloc` returns them, and `_st_netfd_freelist`. -/
structure Pool where
  fd : ℕ → Netfd
  count : ℕ
  freelist : Option ℕ

namespace Pool

/-- `_st_netfd_new`. -/
def netfdNew (s : Pool) (osfd : ℤ) : ℕ × Pool :=
  match s.freelist with
  | some fd =>
    (fd, { s with
      freelist := (s.fd fd).next
      fd := update s.fd fd { s.fd fd with inuse := true, next := none } })
  | none => (s.count, { s with fd := update s.fd s.count ⟨osfd, true, none⟩, count := s.count + 1 })

/-- `st_netfd_free`. -/
def netfdFree (s : Pool) (fd : ℕ) : Pool :=
  if (s.fd fd).inuse then
    { s with
      fd := update s.fd fd { s.fd fd with inuse := false, next := s.freelist }
      freelist := some fd }
  else s

/-- `st_netfd_fileno`. -/
def netfdFileno (s : Pool) (fd : ℕ) : ℤ := (s.fd fd).osfd

end Pool

/-! ### The calls -/

/-- `st_netfd_open`, `st_netfd_open_socket`, `st_netfd_free` and `st_netfd_close`. -/
inductive Op
  | netfdOpen (osfd : ℤ)
  | openSocket (osfd : ℤ)
  | free (fd : ℕ)
  | close (fd : ℕ)
  deriving DecidableEq, Repr

/-- `handles` are in use, with what they were opened with; `returned` were freed and not reissued. -/
structure Sys where
  pool : Pool
  handles : List (ℕ × ℤ)
  returned : List ℕ

namespace Sys

def opened (s : Sys) (osfd : ℤ) : Sys :=
  let r := s.pool.netfdNew osfd
  { pool := r.2, handles := (r.1, osfd) :: s.handles, returned := s.returned.erase r.1 }

/-- `closesocket` is left to the system. -/
def freed (s : Sys) (fd : ℕ) : Sys :=
  { pool := s.pool.netfdFree fd
    handles := s.handles.filter (·.1 ≠ fd)
    returned := if fd ∈ s.handles.map Prod.fst then fd :: s.returned else s.returned }

/-- A handle that is given back is one that was issued. -/
def Enabled (s : Sys) : Op → Prop
  | .netfdOpen _ | .openSocket _ => True
  | .free fd | .close fd => fd < s.pool.count

def apply (s : Sys) : Op → Sys
  | .netfdOpen osfd | .openSocket osfd => s.opened osfd
  | .free fd | .close fd => s.freed fd

def start : Sys := ⟨⟨fun _ => ⟨0, false, none⟩, 0, none⟩, [], []⟩

instance decidableEnabled (s : Sys) : ∀ a, Decidable (s.Enabled a)
  | .netfdOpen _ | .openSocket _ => .isTrue trivial
  | .free fd | .close fd => inferInstanceAs (Decidable (fd < s.pool.count))

end Sys

def machine : Machine Sys Op where
  init s := s = Sys.start
  enabled := Sys.Enabled
  apply := Sys.apply

instance decidableMachine : ∀ s a, Decidable (machine.enabled s a) := Sys.decidableEnabled

variable {s : Sys} {fd : ℕ} {osfd : ℤ} {a : Op} {as : List Op}

/-! ### The free list -/

/-- What the calls keep whatever they are given. -/
structure Shape (s : Sys) : Prop where
  inuse : ∀ fd, (s.pool.fd fd).inuse = true ↔ fd ∈ s.handles.map Prod.fst
  distinct : (s.handles.map Prod.fst).Nodup
  issued : ∀ fd ∈ s.handles.map Prod.fst, fd < s.pool.count
  linked : Linked (fun fd => (s.pool.fd fd).next) s.pool.freelist s.returned
  nodup : s.returned.Nodup
  idle : ∀ fd ∈ s.returned, fd < s.pool.count ∧ (s.pool.fd fd).inuse = false

/-- The handle that is issued was not in use. -/
theorem Shape.new_idle (h : Shape s) : (s.pool.netfdNew osfd).1 ∉ s.handles.map Prod.fst := by
  unfold Pool.netfdNew
  split
  next fd he =>
    have hl := h.linked
    cases hr : s.returned with
    | nil => simp [hr, Linked, he] at hl
    | cons b l =>
      rw [hr] at hl
      obtain rfl : fd = b := Option.some.inj (he.symm.trans hl.1)
      intro hm
      have := (h.inuse fd).2 hm
      simp [(h.idle fd (hr ▸ List.mem_cons_self)).2] at this
  next => exact fun hm => Nat.lt_irrefl _ (h.issued _ hm)

theorem shape_opened (h : Shape s) : Shape (s.opened osfd) := by
  have hn : (s.pool.netfdNew osfd).1 ∉ s.handles.map Prod.fst := h.new_idle
  unfold Sys.opened Pool.netfdNew at *
  cases hr : s.returned with
  | nil =>
    have hf : s.pool.freelist = none := by simpa [hr, Linked] using h.linked
    simp only [hf] at hn ⊢
    refine ⟨fun fd => ?_, ?_, ?_, ?_, by simp, by simp⟩
    · by_cases he : fd = s.pool.count
      · simp [he]
      · simpa [update_of_ne he, he] using h.inuse fd
    · exact List.nodup_cons.2 ⟨hn, h.distinct⟩
    · rintro fd hfd
      rcases List.mem_cons.1 hfd with rfl | hfd
      · exact Nat.lt_succ_self _
      · exact Nat.lt_succ_of_lt (h.issued fd hfd)
    · rfl
  | cons b l =>
    have hl := h.linked
    rw [hr] at hl
    obtain ⟨hbl, hd⟩ := List.nodup_cons.1 (hr ▸ h.nodup)
    simp only [hl.1] at hn ⊢
    have hne : ∀ fd ∈ l, fd ≠ b := fun fd hfd he => hbl (he ▸ hfd)
    have hi : ∀ fd ∈ l, fd < s.pool.count ∧ (s.pool.fd fd).inuse = false :=
      fun fd hfd => h.idle fd (hr ▸ List.mem_cons_of_mem _ hfd)
    simp only [List.erase_cons_head]
    refine ⟨fun fd => ?_, ?_, ?_, ?_, hd, fun fd hfd => ?_⟩
    · by_cases he : fd = b
      · simp [he]
      · simpa [update_of_ne he, he] using h.inuse fd
    · exact List.nodup_cons.2 ⟨hn, h.distinct⟩
    · rintro fd hfd
      rcases List.mem_cons.1 hfd with he | hfd
      · exact he ▸ (h.idle b (hr ▸ List.mem_cons_self)).1
      · exact h.issued fd hfd
    · exact hl.2.congr fun x hx => by simp [update_of_ne (hne x hx)]
    · simpa [update_of_ne (hne fd hfd)] using hi fd hfd

theorem shape_freed (h : Shape s) : Shape (s.freed fd) := by
  unfold Sys.freed Pool.netfdFree
  by_cases hu : (s.pool.fd fd).inuse = true
  · have hm := (h.inuse fd).1 hu
    have hnr : fd ∉ s.returned := fun hr => by simp [(h.idle fd hr).2] at hu
    have hne : ∀ x ∈ s.returned, x ≠ fd := fun x hx he => hnr (he ▸ hx)
    simp only [hu, if_true, if_pos hm]
    refine ⟨fun x => ?_, ?_, fun x hx => ?_, ⟨rfl, ?_⟩, List.nodup_cons.2 ⟨hnr, h.nodup⟩, fun x hx => ?_⟩
    · by_cases he : x = fd
      · simp [he]
      · simpa [update_of_ne he, he] using h.inuse x
    · exact h.distinct.sublist (List.filter_sublist.map _)
    · exact h.issued x ((List.filter_sublist.map _).subset hx)
    · simpa using h.linked.congr fun x hx => by simp [update_of_ne (hne x hx)]
    · rcases List.mem_cons.1 hx with rfl | hx
      · exact ⟨h.issued _ hm, by simp⟩
      · simpa [update_of_ne (hne x hx)] using h.idle x hx
  · have hm : fd ∉ s.handles.map Prod.fst := fun hm => hu ((h.inuse fd).2 hm)
    have he : s.handles.filter (·.1 ≠ fd) = s.handles :=
      List.filter_eq_self.2 fun p hp => decide_eq_true fun he => hm (he ▸ List.mem_map_of_mem hp)
    rw [if_neg hu, if_neg hm, he]
    exact h

theorem shape_apply (h : Shape s) : Shape (s.apply a) := by
  cases a with
  | netfdOpen osfd | openSocket osfd => exact shape_opened h
  | free fd | close fd => exact shape_freed h

theorem shape_start : Shape Sys.start :=
  ⟨by simp [Sys.start], by simp [Sys.start], by simp [Sys.start], rfl, List.nodup_nil, by simp [Sys.start]⟩

/-- **The free list** after any calls. -/
theorem pool_shape (h : Reach machine s) : Shape s := by
  refine h.invariant (I := Shape) ?_ fun _ _ hs _ _ => shape_apply hs
  rintro s rfl
  exact shape_start

/-! ### The descriptors -/

/-- What the callers rely on: a handle in use refers to what it was last opened with, handles in use are
distinct, and the free list has, once each, the handles freed and not reissued. -/
structure Law (s : Sys) : Prop where
  bound : ∀ h ∈ s.handles, s.pool.netfdFileno h.1 = h.2
  inuse : ∀ fd, (s.pool.fd fd).inuse = true ↔ fd ∈ s.handles.map Prod.fst
  distinct : (s.handles.map Prod.fst).Nodup
  free : ∃ l, Linked (fun fd => (s.pool.fd fd).next) s.pool.freelist l ∧ l.Nodup ∧
    (∀ fd, fd ∈ l ↔ fd ∈ s.returned) ∧ ∀ fd ∈ l, (s.pool.fd fd).inuse = false

theorem Shape.law (h : Shape s) (hb : ∀ h ∈ s.handles, s.pool.netfdFileno h.1 = h.2) : Law s :=
  ⟨hb, h.inuse, h.distinct, s.returned, h.linked, h.nodup, fun _ => Iff.rfl, fun fd hfd => (h.idle fd hfd).2⟩

/-- A handle is taken from the free list only for the descriptor it had before. -/
def Rebound (s : Sys) : Op → Prop
  | .netfdOpen osfd | .openSocket osfd => ∀ fd ∈ s.pool.freelist, s.pool.netfdFileno fd = osfd
  | .free _ | .close _ => True

instance decidableRebound (s : Sys) : ∀ a, Decidable (Rebound s a)
  | .netfdOpen osfd | .openSocket osfd =>
    inferInstanceAs (Decidable (∀ fd ∈ s.pool.freelist, s.pool.netfdFileno fd = osfd))
  | .free _ | .close _ => .isTrue trivial

/-- Issuing a handle leaves the descriptors of the others. -/
theorem fileno_new (hne : fd ≠ (s.pool.netfdNew osfd).1) :
    (s.pool.netfdNew osfd).2.netfdFileno fd = s.pool.netfdFileno fd := by
  unfold Pool.netfdNew Pool.netfdFileno at *
  split at hne <;> simp_all

/-- The handle issued has the descriptor that is asked for just when the free list is empty or its first
handle had it. -/
theorem fileno_issued : (s.pool.netfdNew osfd).2.netfdFileno (s.pool.netfdNew osfd).1 = osfd ↔
    ∀ fd ∈ s.pool.freelist, s.pool.netfdFileno fd = osfd := by
  unfold Pool.netfdNew Pool.netfdFileno
  split
  next fd he => simp [he]
  next he => simp [he]

theorem fileno_free (x : ℕ) : (s.pool.netfdFree fd).netfdFileno x = s.pool.netfdFileno x := by
  unfold Pool.netfdFree Pool.netfdFileno
  split
  · by_cases he : x = fd
    · simp [he]
    · simp [update_of_ne he]
  · rfl

theorem law_opened (h : Shape s) (hl : Law s) :
    Law (s.opened osfd) ↔ ∀ fd ∈ s.pool.freelist, s.pool.netfdFileno fd = osfd := by
  rw [← fileno_issued]
  refine ⟨fun hl' => hl'.bound (_, osfd) List.mem_cons_self, fun hb => (shape_opened h).law ?_⟩
  rintro ⟨fd, x⟩ hm
  rcases List.mem_cons.1 hm with he | hm
  · obtain ⟨rfl, rfl⟩ := Prod.mk.inj he
    exact hb
  · have hn : (s.pool.netfdNew osfd).1 ∉ s.handles.map Prod.fst := h.new_idle
    have hne : fd ≠ (s.pool.netfdNew osfd).1 := fun he => hn (he ▸ List.mem_map_of_mem (f := Prod.fst) hm)
    exact (fileno_new hne).trans (hl.bound _ hm)

theorem law_freed (h : Shape s) (hl : Law s) : Law (s.freed fd) :=
  (shape_freed h).law fun p hp => (fileno_free p.1).trans (hl.bound p (List.mem_of_mem_filter hp))

/-- One call keeps the law just when it meets the condition. -/
theorem law_apply (h : Shape s) (hl : Law s) : Law (s.apply a) ↔ Rebound s a := by
  cases a with
  | netfdOpen osfd | openSocket osfd => exact law_opened h hl
  | free fd | close fd => exact iff_of_true (law_freed h hl) trivial

/-- **Descriptor binding**: in every run the law holds throughout just when every handle that is reissued
is reissued for the descriptor it had. -/
theorem law_iff (as : List Op) (he : Enables machine (fun _ _ => True) Sys.start as) :
    (∀ pre, pre <+: as → Law (pre.foldl machine.apply Sys.start)) ↔
      Enables machine Rebound Sys.start as := by
  have key : ∀ (as : List Op) (s : Sys), Shape s → Law s → Enables machine (fun _ _ => True) s as →
      ((∀ pre, pre <+: as → Law (pre.foldl machine.apply s)) ↔ Enables machine Rebound s as) := by
    intro as
    induction as with
    | nil => exact fun s _ hl _ => iff_of_true (fun pre hp => by simpa [List.prefix_nil.1 hp] using hl) trivial
    | cons a as ih =>
      intro s h hl he
      constructor
      · intro hall
        have ha : Law (s.apply a) := hall [a] ⟨as, rfl⟩
        have hrest := (ih _ (shape_apply h) ha he.2).1 fun pre hp =>
          hall (a :: pre) (List.cons_prefix_cons.2 ⟨rfl, hp⟩)
        exact ⟨⟨he.1.1, (law_apply h hl).1 ha⟩, hrest⟩
      · rintro ⟨⟨-, ha⟩, hrest⟩ pre hp
        cases pre with
        | nil => exact hl
        | cons b pre =>
          obtain ⟨rfl, hp'⟩ := List.cons_prefix_cons.1 hp
          exact (ih _ (shape_apply h) ((law_apply h hl).2 ha) he.2).2 hrest pre hp'
  exact key as _ shape_start (shape_start.law (by simp [Sys.start])) he

/-- A handle is freed twice and reissued for the descriptor it had. -/
def reboundRun : List Op := [.netfdOpen 5, .openSocket 6, .free 0, .free 0, .netfdOpen 5, .close 1]

theorem reboundRun_law : Law (reboundRun.foldl machine.apply Sys.start) :=
  (law_iff reboundRun (by decide)).2 (by decide) reboundRun List.prefix_rfl

/-- It is reissued for another one. -/
def staleRun : List Op := [.netfdOpen 5, .free 0, .netfdOpen 7]

/-- The handle still refers to descriptor `5`. -/
theorem stale_descriptor : ¬ ∀ s, Reach machine s → Law s := by
  intro hall
  have hr : Reach machine (staleRun.foldl machine.apply Sys.start) :=
    (ReachVia.init rfl).foldl staleRun (by decide)
  exact absurd ((hall _ hr).bound (0, 7) (by decide)) (by decide)

end StNvs.Io.Descriptors
