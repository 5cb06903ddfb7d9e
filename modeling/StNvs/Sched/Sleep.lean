import StNvs.Lib.DeltaQueue
import Mathlib.Data.BitVec
import Mathlib.Data.Int.Order.Basic
import Mathlib.Algebra.Order.Group.Int
import Mathlib.Logic.Function.Basic
import Mathlib.Tactic.Ring

/-! # The sleep queue

`_ST_SLEEPQ` is kept sorted by the time a thread has left to sleep; `thread->sleep` is the difference to
the thread in front of it, and `_ST_SLEEPQMAX` the time the last one has left. The operations are those
of `_st_add_sleep_q`, `_st_del_sleep_q` and the loop of `_st_vp_check_clock`, written over any numbers
`W`: at `W = UTime` they are the code (`st_utime_t` is a 32-bit `unsigned long` on Win32), at `W = ℤ` the
same computation where nothing can wrap.

* `pairs_add`, `pairs_del`, `pairs_expireLoop`: over `ℤ` they are the operations on deltas of
  `Lib.DeltaQueue`, as long as the queue is well formed (`WF`), which they keep.
* `toInt_add`, `toInt_del`, `toInt_expireLoop`: on a queue that is well formed when read in `ℤ`, the code
  and the computation in `ℤ` stay in step, so no addition or subtraction wraps. -/

namespace StNvs.Sched.Sleep

open StNvs.Lib.DeltaQueue Function

/-- An `st_thread_t *`. -/
abbrev ThreadPtr := ℕ

/-- `st_utime_t`. -/
abbrev UTime := BitVec 32

/-- The sleep queue: `_ST_SLEEPQ` from its head, the `sleep` field of each thread, `_ST_SLEEPQMAX`. -/
structure SleepQ (W : Type) where
  links : List ThreadPtr
  sleep : ThreadPtr → W
  sleepMax : W

/-- `thread->links.next` in the list, `none` when that is the list's own head. -/
def next (t : ThreadPtr) : List ThreadPtr → Option ThreadPtr
  | [] => none
  | x :: q => if x = t then q.head? else next t q

section Code
variable {W : Type} [Zero W] [Add W] [Sub W] [LE W] [LT W] [DecidableLE W] [DecidableLT W]

/-- The scan of `_st_add_sleep_q`: the sleepers passed, what is left of the timeout there, and the queue
from the sleeper to insert in front of. -/
def scan (sleep : ThreadPtr → W) (left : W) : List ThreadPtr → List ThreadPtr × W × List ThreadPtr
  | [] => ([], left, [])
  | t :: q =>
    if left < sleep t then ([], left, t :: q)
    else
      let r := scan sleep (left - sleep t) q
      (t :: r.1, r.2)

/-- `_st_add_sleep_q`, without the flag. -/
def SleepQ.add (t : ThreadPtr) (timeout : W) (sq : SleepQ W) : SleepQ W :=
  if sq.sleepMax ≤ timeout then
    { links := sq.links ++ [t]
      sleep := update sq.sleep t (timeout - sq.sleepMax)
      sleepMax := timeout }
  else
    let r := scan sq.sleep timeout sq.links
    { sq with
      links := r.1 ++ t :: r.2.2
      sleep :=
        match r.2.2 with
        -- the assertion of the source: the scan stops at a sleeper
        | [] => update sq.sleep t r.2.1
        | n :: _ => update (update sq.sleep t r.2.1) n (sq.sleep n - r.2.1) }

/-- `_st_del_sleep_q`, without the flag. -/
def SleepQ.del (t : ThreadPtr) (expired : Bool) (sq : SleepQ W) : SleepQ W :=
  match next t sq.links with
  | some n =>
    if expired then { sq with links := sq.links.erase t, sleepMax := sq.sleepMax - sq.sleep t }
    else { sq with links := sq.links.erase t, sleep := update sq.sleep n (sq.sleep n + sq.sleep t) }
  | none =>
    { sq with
      links := sq.links.erase t
      -- `prev` is the head of the list exactly when `t` is the only element
      sleepMax := if sq.links.head? = some t then 0 else sq.sleepMax - sq.sleep t }

/-- The loop of `_st_vp_check_clock`, on the sleep queue alone. Every round but the last removes the
first thread, so the rounds go down the queue as it was at the start. -/
def SleepQ.expireLoop (elapsed : W) : List ThreadPtr → SleepQ W → SleepQ W
  | [], sq => sq
  | t :: q, sq =>
    if elapsed < sq.sleep t then
      { sq with
        sleep := update sq.sleep t (sq.sleep t - elapsed)
        sleepMax := sq.sleepMax - elapsed }
    else SleepQ.expireLoop (elapsed - sq.sleep t) q (sq.del t true)

/-- The threads that loop takes off the queue. -/
def SleepQ.expireList (sleep : ThreadPtr → W) (elapsed : W) : List ThreadPtr → List ThreadPtr
  | [] => []
  | t :: q => if elapsed < sleep t then [] else t :: SleepQ.expireList sleep (elapsed - sleep t) q

end Code

/-! ### In the integers -/

/-- The delta list the queue holds. -/
def deltas {W : Type} (sleep : ThreadPtr → W) (q : List ThreadPtr) : List (ThreadPtr × W) :=
  q.map fun t => (t, sleep t)

/-- `sleepMax` is the sum of the deltas, which are not negative; no thread is queued twice. -/
structure WF (sq : SleepQ ℤ) : Prop where
  nodup : sq.links.Nodup
  nonneg : ∀ t ∈ sq.links, 0 ≤ sq.sleep t
  max : sq.sleepMax = total (deltas sq.sleep sq.links)

@[simp] theorem deltas_nil {W : Type} (sleep : ThreadPtr → W) : deltas sleep [] = [] := rfl

@[simp] theorem deltas_cons {W : Type} (sleep : ThreadPtr → W) (t : ThreadPtr) (q : List ThreadPtr) :
    deltas sleep (t :: q) = (t, sleep t) :: deltas sleep q := rfl

@[simp] theorem deltas_append {W : Type} (sleep : ThreadPtr → W) (p q : List ThreadPtr) :
    deltas sleep (p ++ q) = deltas sleep p ++ deltas sleep q := List.map_append

@[simp] theorem map_fst_deltas {W : Type} (sleep : ThreadPtr → W) (q : List ThreadPtr) :
    (deltas sleep q).map Prod.fst = q := by simp [deltas, Function.comp_def]

/-- Changing the delta of a thread that is not in the list changes nothing. -/
theorem deltas_update {W : Type} {sleep : ThreadPtr → W} {t : ThreadPtr} {v : W}
    {q : List ThreadPtr} (h : t ∉ q) : deltas (update sleep t v) q = deltas sleep q := by
  refine List.map_congr_left fun x hx => ?_
  have hne : x ≠ t := fun he => h (he ▸ hx)
  rw [update_of_ne hne]

theorem nonneg_deltas {sleep : ThreadPtr → ℤ} {q : List ThreadPtr} :
    Nonneg (deltas sleep q) ↔ ∀ t ∈ q, 0 ≤ sleep t := by
  simp [Nonneg, deltas]

theorem WF.nonneg_deltas {sq : SleepQ ℤ} (h : WF sq) : Nonneg (deltas sq.sleep sq.links) :=
  Sleep.nonneg_deltas.mpr h.nonneg

/-! ### Adding -/

theorem scan_append {W : Type} [Sub W] [LT W] [DecidableLT W] (sleep : ThreadPtr → W) :
    ∀ (q : List ThreadPtr) (u : W), (scan sleep u q).1 ++ (scan sleep u q).2.2 = q
  | [], u => rfl
  | t :: q, u => by
    by_cases h : u < sleep t
    · simp [scan, h]
    · simp [scan, h, scan_append sleep q (u - sleep t)]

/-- The scan stops in front of a sleeper due later than what is left. -/
theorem scan_lt {W : Type} [Sub W] [LT W] [DecidableLT W] (sleep : ThreadPtr → W) :
    ∀ (q : List ThreadPtr) (u : W) (n : ThreadPtr) (r : List ThreadPtr),
      (scan sleep u q).2.2 = n :: r → (scan sleep u q).2.1 < sleep n
  | [], u, n, r, h => by simp [scan] at h
  | t :: q, u, n, r, h => by
    by_cases hu : u < sleep t
    · simp only [scan, if_pos hu, List.cons.injEq] at h ⊢
      rw [← h.1]; exact hu
    · simp only [scan, if_neg hu] at h ⊢
      exact scan_lt sleep q _ n r h

/-- Where the scan stops is where the delta is inserted. -/
theorem deltaInsert_scan (sleep : ThreadPtr → ℤ) (t : ThreadPtr) :
    ∀ (q : List ThreadPtr) (u : ℤ), deltaInsert t u (deltas sleep q) =
      deltas sleep (scan sleep u q).1 ++ (t, (scan sleep u q).2.1) ::
        match (scan sleep u q).2.2 with
        | [] => []
        | n :: r => (n, sleep n - (scan sleep u q).2.1) :: deltas sleep r
  | [], u => by simp [scan, deltaInsert]
  | x :: q, u => by
    by_cases hu : u < sleep x
    · simp [scan, hu, deltaInsert]
    · simp [scan, hu, deltaInsert, deltaInsert_scan sleep t q (u - sleep x)]

/-- **Adding** is inserting into the deltas. -/
theorem pairs_add {sq : SleepQ ℤ} (h : WF sq) {t : ThreadPtr} (ht : t ∉ sq.links) {u : ℤ} :
    deltas (sq.add t u).sleep (sq.add t u).links = deltaInsert t u (deltas sq.sleep sq.links) := by
  by_cases hu : sq.sleepMax ≤ u
  · rw [deltaInsert_of_total_le t h.nonneg_deltas (h.max ▸ hu), ← h.max]
    simp [SleepQ.add, hu, deltas_update ht]
  · rw [deltaInsert_scan sq.sleep t sq.links u]
    have hq := scan_append sq.sleep sq.links u
    simp only [SleepQ.add, if_neg hu]
    generalize scan sq.sleep u sq.links = r at hq ⊢
    obtain ⟨p, left, r⟩ := r
    simp only at hq ⊢
    have htp : t ∉ p := fun hm => ht (by rw [← hq]; simp [hm])
    rcases r with _ | ⟨n, r⟩
    · simp [deltas_update htp]
    · have hnd : (p ++ n :: r).Nodup := hq ▸ h.nodup
      have hn : n ∈ sq.links := by rw [← hq]; simp
      have htn : t ≠ n := fun he => ht (he ▸ hn)
      have htr : t ∉ r := fun hm => ht (by rw [← hq]; simp [hm])
      have hnp : n ∉ p := fun hm => (List.nodup_append.mp hnd).2.2 n hm n (by simp) rfl
      have hnr : n ∉ r := (List.nodup_cons.mp (List.nodup_append.mp hnd).2.1).1
      simp [deltas_update hnp, deltas_update hnr, deltas_update htp, deltas_update htr, htn]

theorem nodup_links_add {W : Type} [Zero W] [Add W] [Sub W] [LE W] [LT W] [DecidableLE W]
    [DecidableLT W] {sq : SleepQ W} {t : ThreadPtr} {u : W} (h : sq.links.Nodup)
    (ht : t ∉ sq.links) : (sq.add t u).links.Nodup := by
  unfold SleepQ.add
  split_ifs
  · exact List.nodup_append.mpr ⟨h, by simp, fun a ha b hb => by
      rw [List.mem_singleton.mp hb]; exact fun he => ht (he ▸ ha)⟩
  · have hq := scan_append sq.sleep sq.links u
    generalize scan sq.sleep u sq.links = r at hq ⊢
    rw [← hq] at h ht
    have hp : (r.1 ++ t :: r.2.2).Perm (t :: (r.1 ++ r.2.2)) := List.perm_middle
    exact hp.nodup_iff.mpr (List.nodup_cons.mpr ⟨ht, h⟩)

theorem WF.add {sq : SleepQ ℤ} (h : WF sq) {t : ThreadPtr} (ht : t ∉ sq.links) {u : ℤ}
    (hu : 0 ≤ u) : WF (sq.add t u) := by
  refine ⟨nodup_links_add h.nodup ht, ?_, ?_⟩
  · rw [← Sleep.nonneg_deltas, pairs_add h ht]
    exact nonneg_deltaInsert t h.nonneg_deltas hu
  · rw [pairs_add h ht]
    by_cases hm : sq.sleepMax ≤ u
    · rw [total_deltaInsert_of_le t h.nonneg_deltas (h.max ▸ hm)]
      simp [SleepQ.add, hm]
    · rw [total_deltaInsert_of_lt t (h.max ▸ not_le.mp hm) hu, ← h.max]
      simp [SleepQ.add, hm]

/-! ### Deleting -/

/-- A queued thread with the part of the queue in front of it and the part behind it. -/
theorem exists_split {q : List ThreadPtr} (hq : q.Nodup) {t : ThreadPtr} (ht : t ∈ q) :
    ∃ p r, q = p ++ t :: r ∧ t ∉ p ∧ t ∉ r := by
  obtain ⟨p, r, rfl⟩ := List.append_of_mem ht
  obtain ⟨-, h2, h3⟩ := List.nodup_append.mp hq
  exact ⟨p, r, rfl, fun hm => h3 t hm t (by simp) rfl, (List.nodup_cons.mp h2).1⟩

theorem next_append {t : ThreadPtr} {r : List ThreadPtr} : ∀ {p : List ThreadPtr}, t ∉ p →
    next t (p ++ t :: r) = r.head?
  | [], _ => by simp [next]
  | x :: p, h => by
    obtain ⟨hx, hp⟩ := not_or.mp (List.mem_cons.not.mp h)
    rw [List.cons_append, next, if_neg (Ne.symm hx), next_append hp]

theorem erase_append {t : ThreadPtr} {p r : List ThreadPtr} (h : t ∉ p) :
    (p ++ t :: r).erase t = p ++ r := by
  rw [List.erase_append_right _ h, List.erase_cons_head]

theorem deltaDelete_append {sleep : ThreadPtr → ℤ} {t : ThreadPtr} {r : List ThreadPtr} :
    ∀ {p : List ThreadPtr}, t ∉ p → deltaDelete t (deltas sleep (p ++ t :: r)) =
      deltas sleep p ++ bump (sleep t) (deltas sleep r)
  | [], _ => by simp [deltaDelete]
  | x :: p, h => by
    obtain ⟨hx, hp⟩ := not_or.mp (List.mem_cons.not.mp h)
    rw [List.cons_append, deltas_cons, deltaDelete, if_neg (Ne.symm hx), deltaDelete_append hp,
      deltas_cons, List.cons_append]

@[simp] theorem links_del {W : Type} [Zero W] [Add W] [Sub W] (t : ThreadPtr) (expired : Bool)
    (sq : SleepQ W) : (sq.del t expired).links = sq.links.erase t := by
  unfold SleepQ.del
  split
  · split <;> rfl
  · rfl

/-- **Deleting** is deleting from the deltas. -/
theorem pairs_del {sq : SleepQ ℤ} (h : WF sq) {t : ThreadPtr} (ht : t ∈ sq.links) :
    deltas (sq.del t false).sleep (sq.del t false).links =
      deltaDelete t (deltas sq.sleep sq.links) := by
  obtain ⟨p, r, hq, hp, hr⟩ := exists_split h.nodup ht
  rw [links_del, hq, deltaDelete_append hp, erase_append hp, deltas_append]
  unfold SleepQ.del
  rw [hq, next_append hp]
  rcases r with _ | ⟨n, r⟩
  · simp [bump]
  · have hnd : (p ++ t :: n :: r).Nodup := hq ▸ h.nodup
    obtain ⟨-, h2, h3⟩ := List.nodup_append.mp hnd
    have hnp : n ∉ p := fun hm => h3 n hm n (by simp) rfl
    have hnr : n ∉ r := (List.nodup_cons.mp (List.nodup_cons.mp h2).2).1
    simp [bump, deltas_update hnp, deltas_update hnr]

theorem WF.del {sq : SleepQ ℤ} (h : WF sq) {t : ThreadPtr} (ht : t ∈ sq.links) :
    WF (sq.del t false) := by
  refine ⟨by rw [links_del]; exact h.nodup.erase t, ?_, ?_⟩
  · rw [← Sleep.nonneg_deltas, pairs_del h ht]
    exact nonneg_deltaDelete t h.nonneg_deltas
  · obtain ⟨p, r, hq, hp, hr⟩ := exists_split h.nodup ht
    have hmax := h.max
    rw [pairs_del h ht, hq, deltaDelete_append hp, total_append]
    rw [hq, deltas_append, deltas_cons, total_append, total_cons] at hmax
    unfold SleepQ.del
    rw [hq, next_append hp]
    rcases r with _ | ⟨n, r⟩
    · rcases p with _ | ⟨x, p⟩
      · simp [bump]
      · have hx : x ≠ t := fun he => hp (by simp [he])
        simp only [List.head?_nil, List.cons_append, List.head?_cons, Option.some.injEq, hx,
          if_false, deltas_nil, bump, total_nil, add_zero]
        simp only [deltas_nil, total_nil, add_zero] at hmax
        omega
    · have ht' : total (bump (sq.sleep t) (deltas sq.sleep (n :: r))) =
          sq.sleep t + total (deltas sq.sleep (n :: r)) := total_bump (by simp)
      simp only [List.head?_cons, Bool.false_eq_true, if_false, ht', hmax]

/-- An expired thread is the first one: the queue loses it and the time it had left. -/
theorem del_expired {sleep : ThreadPtr → ℤ} {m : ℤ} {t : ThreadPtr} {q : List ThreadPtr}
    (h : WF ⟨t :: q, sleep, m⟩) :
    SleepQ.del t true ⟨t :: q, sleep, m⟩ = ⟨q, sleep, total (deltas sleep q)⟩ := by
  have hmax : m = sleep t + total (deltas sleep q) := by simpa using h.max
  rcases q with _ | ⟨n, q⟩
  · simp [SleepQ.del, next]
  · simp only [SleepQ.del, next, if_true, List.head?_cons, List.erase_cons_head, hmax]
    congr 1
    ring

theorem WF.tail {sleep : ThreadPtr → ℤ} {m : ℤ} {t : ThreadPtr} {q : List ThreadPtr}
    (h : WF ⟨t :: q, sleep, m⟩) : WF ⟨q, sleep, total (deltas sleep q)⟩ :=
  ⟨(List.nodup_cons.mp h.nodup).2, fun x hx => h.nonneg x (List.mem_cons_of_mem t hx), rfl⟩

/-! ### Letting time pass -/

theorem expireList_eq {W : Type} [AddCommGroup W] [LinearOrder W] (sleep : ThreadPtr → W) :
    ∀ (q : List ThreadPtr) (e : W), SleepQ.expireList sleep e q = deltaExpired e (deltas sleep q)
  | [], e => rfl
  | t :: q, e => by
    by_cases he : e < sleep t
    · simp [SleepQ.expireList, deltaExpired, he]
    · simp [SleepQ.expireList, deltaExpired, he, expireList_eq sleep q (e - sleep t)]

/-- **A tick** advances the deltas. -/
theorem pairs_expireLoop {sleep : ThreadPtr → ℤ} : ∀ {q : List ThreadPtr} {m : ℤ} (e : ℤ),
    WF ⟨q, sleep, m⟩ → let sq' := SleepQ.expireLoop e q ⟨q, sleep, m⟩
      WF sq' ∧ deltas sq'.sleep sq'.links = deltaAdvance e (deltas sleep q)
  | [], m, e, h => ⟨h, rfl⟩
  | t :: q, m, e, h => by
    by_cases he : e < sleep t
    · have htq : t ∉ q := (List.nodup_cons.mp h.nodup).1
      have hd : deltas (update sleep t (sleep t - e)) (t :: q) =
          deltaAdvance e (deltas sleep (t :: q)) := by
        simp [deltaAdvance, he, deltas_update htq]
      have hmax : m - e = total (deltas (update sleep t (sleep t - e)) (t :: q)) := by
        rw [hd, total_deltaAdvance e (by simp [deltaAdvance, he]), ← h.max]
      have hnn : ∀ x ∈ t :: q, 0 ≤ update sleep t (sleep t - e) x := by
        rw [← Sleep.nonneg_deltas, hd]
        exact nonneg_deltaAdvance e h.nonneg_deltas
      simp only [SleepQ.expireLoop, if_pos he]
      exact ⟨⟨h.nodup, hnn, hmax⟩, hd⟩
    · have hdel := del_expired h
      have ih := pairs_expireLoop (e - sleep t) h.tail
      simp only [SleepQ.expireLoop, if_neg he, hdel, deltas_cons, deltaAdvance]
      exact ih

/-! ### The code in step with the integers -/

/-- The value of a time in `ℤ`. -/
def val (u : UTime) : ℤ := u.toNat

theorem val_nonneg (u : UTime) : 0 ≤ val u := Int.natCast_nonneg _

theorem val_lt (u : UTime) : val u < 2 ^ 32 := by
  have := u.isLt
  unfold val; omega

@[simp] theorem val_zero : val 0#32 = 0 := rfl

@[simp] theorem val_lt_val {a b : UTime} : val a < val b ↔ a < b := by
  rw [BitVec.lt_def]; unfold val; omega

@[simp] theorem val_le_val {a b : UTime} : val a ≤ val b ↔ a ≤ b := by
  rw [BitVec.le_def]; unfold val; omega

theorem val_sub {a b : UTime} (h : b ≤ a) : val (a - b) = val a - val b := by
  have h' : b.toNat ≤ a.toNat := h
  unfold val
  rw [BitVec.toNat_sub_of_le h]; omega

theorem val_add {a b : UTime} (h : val a + val b < 2 ^ 32) : val (a + b) = val a + val b := by
  unfold val at h ⊢
  rw [BitVec.toNat_add_of_lt (by omega)]; push_cast; rfl

/-- The queue of the code, read in `ℤ`. -/
def SleepQ.toInt (sq : SleepQ UTime) : SleepQ ℤ :=
  ⟨sq.links, fun t => val (sq.sleep t), val sq.sleepMax⟩

@[simp] theorem toInt_links (sq : SleepQ UTime) : sq.toInt.links = sq.links := rfl

@[simp] theorem toInt_sleep (sq : SleepQ UTime) (t : ThreadPtr) :
    sq.toInt.sleep t = val (sq.sleep t) := rfl

@[simp] theorem toInt_sleepMax (sq : SleepQ UTime) : sq.toInt.sleepMax = val sq.sleepMax := rfl

theorem scan_toInt (sleep : ThreadPtr → UTime) : ∀ (q : List ThreadPtr) (u : UTime),
    scan (fun t => val (sleep t)) (val u) q =
      ((scan sleep u q).1, val (scan sleep u q).2.1, (scan sleep u q).2.2)
  | [], u => rfl
  | t :: q, u => by
    by_cases h : u < sleep t
    · simp [scan, h]
    · have ih := scan_toInt sleep q (u - sleep t)
      rw [val_sub (BitVec.not_lt.mp h)] at ih
      simp [scan, h, ih]

theorem update_toInt (sleep : ThreadPtr → UTime) (t : ThreadPtr) (v : UTime) :
    (fun x => val (update sleep t v x)) = update (fun x => val (sleep x)) t (val v) := by
  funext x
  by_cases h : x = t
  · subst h; simp
  · simp [update_of_ne h]

/-- **Adding does not wrap.** -/
theorem toInt_add (sq : SleepQ UTime) (t : ThreadPtr) (u : UTime) :
    (sq.add t u).toInt = sq.toInt.add t (val u) := by
  by_cases h : sq.sleepMax ≤ u
  · simp [SleepQ.add, SleepQ.toInt, h, update_toInt, val_sub h]
  · have hsc := scan_toInt sq.sleep sq.links u
    have hlt := scan_lt sq.sleep sq.links u
    simp only [SleepQ.add, SleepQ.toInt, val_le_val, if_neg h, hsc]
    generalize scan sq.sleep u sq.links = r at hlt ⊢
    obtain ⟨p, left, r⟩ := r
    rcases r with _ | ⟨n, r⟩
    · simp [update_toInt]
    · have hn : left ≤ sq.sleep n := BitVec.le_of_lt (hlt n r rfl)
      simp [update_toInt, val_sub hn]

theorem le_total_of_mem {q : List (ThreadPtr × ℤ)} (h : Nonneg q) {p : ThreadPtr × ℤ}
    (hp : p ∈ q) : p.2 ≤ total q := by
  obtain ⟨a, b, rfl⟩ := List.append_of_mem hp
  have ha : Nonneg a := fun x hx => h x (by simp [hx])
  have hb : Nonneg b := fun x hx => h x (by simp [hx])
  have h1 := total_nonneg ha
  have h2 := total_nonneg hb
  rw [total_append, total_cons]
  omega

/-- The delta of a queued thread is at most `sleepMax`. -/
theorem WF.sleep_le {sq : SleepQ ℤ} (h : WF sq) {t : ThreadPtr} (ht : t ∈ sq.links) :
    sq.sleep t ≤ sq.sleepMax := by
  rw [h.max]
  exact le_total_of_mem h.nonneg_deltas (p := (t, sq.sleep t)) (List.mem_map_of_mem ht)

/-- The deltas of two successive threads together are at most `sleepMax`. -/
theorem WF.add_sleep_le {sq : SleepQ ℤ} (h : WF sq) {p r : List ThreadPtr} {t n : ThreadPtr}
    (hq : sq.links = p ++ t :: n :: r) : sq.sleep n + sq.sleep t ≤ sq.sleepMax := by
  have hp := total_nonneg (Sleep.nonneg_deltas (q := p).mpr fun x hx => h.nonneg x (by simp [hq, hx]))
  have hr := total_nonneg (Sleep.nonneg_deltas (q := r).mpr fun x hx => h.nonneg x (by simp [hq, hx]))
  rw [h.max, hq, deltas_append, deltas_cons, deltas_cons, total_append, total_cons, total_cons]
  omega

/-- **Deleting does not wrap**: the sum the delta goes into is at most `sleepMax`. -/
theorem toInt_del {sq : SleepQ UTime} (h : WF sq.toInt) {t : ThreadPtr} (ht : t ∈ sq.links)
    (expired : Bool) : (sq.del t expired).toInt = sq.toInt.del t expired := by
  obtain ⟨p, r, hq, hp, hr⟩ := exists_split h.nodup (t := t) ht
  rw [toInt_links] at hq
  have hle : sq.sleep t ≤ sq.sleepMax := val_le_val.mp (h.sleep_le ht)
  unfold SleepQ.del
  simp only [SleepQ.toInt, hq, next_append hp]
  rcases r with _ | ⟨n, r⟩
  · rcases p with _ | ⟨x, p⟩
    · simp
    · have hx : x ≠ t := fun he => hp (by simp [he])
      simp [hx, val_sub hle]
  · cases expired
    · have hsum : val (sq.sleep n) + val (sq.sleep t) < 2 ^ 32 :=
        lt_of_le_of_lt (h.add_sleep_le (p := p) (r := r) hq) (val_lt _)
      simp [update_toInt, val_add hsum]
    · simp [val_sub hle]

/-- The expired first thread leaves the code's queue as it leaves that in `ℤ`. -/
theorem toInt_del_expired {sq : SleepQ UTime} (h : WF sq.toInt) {t : ThreadPtr}
    {q : List ThreadPtr} (hq : sq.links = t :: q) :
    (sq.del t true).toInt = ⟨q, sq.toInt.sleep, total (deltas sq.toInt.sleep q)⟩ := by
  have hsq : sq.toInt = ⟨t :: q, sq.toInt.sleep, sq.toInt.sleepMax⟩ := by rw [← hq]; rfl
  rw [toInt_del h (by simp [hq])]
  rw [hsq] at h
  conv_lhs => rw [hsq]
  exact del_expired h

/-- **A tick does not wrap.** -/
theorem toInt_expireLoop : ∀ {q : List ThreadPtr} {sq : SleepQ UTime} (e : UTime),
    sq.links = q → WF sq.toInt →
      (SleepQ.expireLoop e q sq).toInt = SleepQ.expireLoop (val e) q sq.toInt ∧
      SleepQ.expireList sq.sleep e q = SleepQ.expireList sq.toInt.sleep (val e) q
  | [], sq, e, _, _ => ⟨rfl, rfl⟩
  | t :: q, sq, e, hq, h => by
    have hmax : sq.sleep t ≤ sq.sleepMax := val_le_val.mp (h.sleep_le (by simp [hq]))
    by_cases he : e < sq.sleep t
    · have hse : e ≤ sq.sleep t := BitVec.le_of_lt he
      have hle : e ≤ sq.sleepMax := BitVec.le_trans hse hmax
      simp [SleepQ.expireLoop, SleepQ.expireList, SleepQ.toInt, he, update_toInt, val_sub hle,
        val_sub hse]
    · have hdel := toInt_del_expired h hq
      have hdel' : sq.toInt.del t true = (sq.del t true).toInt :=
        (toInt_del h (by simp [hq]) true).symm
      have hlinks : (sq.del t true).links = q := by rw [links_del, hq, List.erase_cons_head]
      have hwf : WF (sq.del t true).toInt := by
        rw [hdel]
        have hsq : sq.toInt = ⟨t :: q, sq.toInt.sleep, sq.toInt.sleepMax⟩ := by rw [← hq]; rfl
        rw [hsq] at h
        exact h.tail
      have hsleep : (sq.del t true).sleep = sq.sleep := by
        unfold SleepQ.del; split <;> simp
      have ih := toInt_expireLoop (e - sq.sleep t) hlinks hwf
      rw [val_sub (BitVec.not_lt.mp he), hsleep] at ih
      simp only [SleepQ.expireLoop, SleepQ.expireList, if_neg he, toInt_sleep, val_lt_val, hdel']
      refine ⟨ih.1, ?_⟩
      rw [ih.2]
      simp [SleepQ.toInt, hsleep]

end StNvs.Sched.Sleep
