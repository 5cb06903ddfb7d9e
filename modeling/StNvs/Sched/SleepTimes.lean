import StNvs.Sched.Model
import Mathlib.Algebra.BigOperators.Group.List.Basic

/-! # What the sleep queue says: the time each sleeper has left

`remaining s t` is the sum of the stored deltas from the head of the sleep queue up to `t`. In every
queue that `addSleepQ`, `delSleepQ t false` and `vpCheckClock` produce from the empty one, in any order,
these are exact (`sleepQueue_exact`): a thread is added with the time it asked for, behind those due no
later, deleting one changes no other, and a tick takes the elapsed time off, making exactly those
runnable that are due.

`times` lists the sleepers with what they have left; each operation is an operation on timers of
`Lib.DeltaQueue` there (`times_add`, `times_del`, `times_tick`). -/

namespace StNvs.Sched.SleepTimes

open StNvs.Lib.DeltaQueue StNvs.Lib.Runs StNvs.Sched.Sleep StNvs.Sched.Model Function

/-! ### The operations in any order -/

/-- The operations on the sleep queue. -/
inductive SleepAction
  | add (t : ThreadPtr) (timeout : UTime)
  | del (t : ThreadPtr)
  | clock (now : UTime)

/-- A thread is added when it is not queued, and deleted when it is. -/
def sleepMachine : Machine Vp SleepAction where
  init s := s.sq.links = [] ∧ s.sq.sleepMax = 0
  enabled s
    | .add t _ => t ∉ s.sq.links
    | .del t => t ∈ s.sq.links
    | .clock _ => True
  apply s
    | .add t u => s.addSleepQ t u
    | .del t => s.delSleepQ t false
    | .clock now => s.vpCheckClock now

/-- The time `t` has left: the deltas from the head up to it, added as numbers. -/
def remaining (sq : SleepQ UTime) (t : ThreadPtr) : ℕ :=
  ((sq.links.takeWhile (· ≠ t) ++ [t]).map fun x => (sq.sleep x).toNat).sum

/-- The sleepers with the time each has left, in queue order. -/
def times (sq : SleepQ UTime) : List (ThreadPtr × ℤ) :=
  undelta 0 (deltas sq.toInt.sleep sq.toInt.links)

/-! ### Reading the times back -/

@[simp] theorem map_fst_times (sq : SleepQ UTime) : (times sq).map Prod.fst = sq.links := by
  rw [times, map_fst_undelta, map_fst_deltas, toInt_links]

theorem mem_undelta_deltas (sleep : ThreadPtr → UTime) : ∀ {q : List ThreadPtr} {b : ℤ}, q.Nodup →
    ∀ p ∈ undelta b (deltas (fun x => val (sleep x)) q),
      p.2 = b + (((q.takeWhile (· ≠ p.1) ++ [p.1]).map fun x => (sleep x).toNat).sum : ℕ)
  | [], b, _, p, hp => by simp [undelta] at hp
  | x :: q, b, h, p, hp => by
    obtain ⟨hx, hq⟩ := List.nodup_cons.mp h
    simp only [deltas_cons, undelta, List.mem_cons] at hp
    rcases hp with rfl | hp
    · simp [val]
    · have hpq : p.1 ∈ q := by
        have := List.mem_map_of_mem (f := Prod.fst) hp
        rwa [map_fst_undelta, map_fst_deltas] at this
      have hne : x ≠ p.1 := fun he => hx (he ▸ hpq)
      rw [mem_undelta_deltas sleep hq p hp, List.takeWhile_cons_of_pos (by simpa using hne)]
      simp only [List.cons_append, List.map_cons, List.sum_cons, val]
      push_cast
      ring

theorem mem_times {sq : SleepQ UTime} (h : sq.links.Nodup) {p : ThreadPtr × ℤ}
    (hp : p ∈ times sq) : p.2 = (remaining sq p.1 : ℤ) := by
  have := mem_undelta_deltas sq.sleep h p hp
  rw [zero_add] at this
  exact this

theorem times_mem {sq : SleepQ UTime} (h : sq.links.Nodup) {t : ThreadPtr} (ht : t ∈ sq.links) :
    (t, (remaining sq t : ℤ)) ∈ times sq := by
  rw [← map_fst_times sq] at ht
  obtain ⟨p, hp, rfl⟩ := List.mem_map.mp ht
  rw [← mem_times h hp]
  exact hp

/-- A list of times that contains `(t, v)` says that `t` has `v` left. -/
theorem remaining_eq {sq : SleepQ UTime} (h : sq.links.Nodup) {t : ThreadPtr} {v : ℕ}
    (hp : (t, (v : ℤ)) ∈ times sq) : remaining sq t = v := by
  have hv : (v : ℤ) = (remaining sq t : ℤ) := mem_times h hp
  exact_mod_cast hv.symm

theorem takeWhile_times {sq : SleepQ UTime} (h : WF sq.toInt) (u : ℤ) :
    (times sq).takeWhile (·.2 ≤ u) = (times sq).filter fun p => decide (p.2 ≤ u) :=
  takeWhile_undelta u h.nonneg_deltas

theorem dropWhile_times {sq : SleepQ UTime} (h : WF sq.toInt) (u : ℤ) :
    (times sq).dropWhile (·.2 ≤ u) = (times sq).filter fun p => decide (u < p.2) :=
  dropWhile_undelta u h.nonneg_deltas

/-- The threads whose entry passes a test on the time left. -/
theorem map_fst_filter_times {sq : SleepQ UTime} (h : sq.links.Nodup) (P : ℤ → Bool) :
    ((times sq).filter fun p => P p.2).map Prod.fst =
      sq.links.filter fun t => P (remaining sq t : ℤ) := by
  have hf : (times sq).filter (fun p => P p.2) =
      (times sq).filter ((fun t => P (remaining sq t : ℤ)) ∘ Prod.fst) :=
    List.filter_congr fun p hp => by rw [mem_times h hp]; rfl
  rw [hf, ← List.filter_map, map_fst_times]

/-! ### The operations on timers -/

theorem times_add {sq : SleepQ UTime} (h : WF sq.toInt) {t : ThreadPtr} (ht : t ∉ sq.links)
    (u : UTime) : times (sq.add t u) = place t (val u) (times sq) := by
  have hp := pairs_add h (t := t) ht (u := val u)
  rw [← toInt_add] at hp
  rw [times, hp, undelta_deltaInsert t 0 (val u) h.nonneg_deltas, zero_add]
  rfl

theorem times_del {sq : SleepQ UTime} (h : WF sq.toInt) {t : ThreadPtr} (ht : t ∈ sq.links) :
    times (sq.del t false) = cancel t (times sq) := by
  have hp := pairs_del h (t := t) ht
  rw [← toInt_del h ht] at hp
  rw [times, hp, undelta_deltaDelete t 0 (by rw [map_fst_deltas]; exact h.nodup)]
  rfl

theorem times_tick {sq : SleepQ UTime} (h : WF sq.toInt) (e : UTime) :
    WF (SleepQ.expireLoop e sq.links sq).toInt ∧
      times (SleepQ.expireLoop e sq.links sq) = advance (val e) (times sq) ∧
      SleepQ.expireList sq.sleep e sq.links = expired (val e) (times sq) := by
  obtain ⟨hl, hx⟩ := toInt_expireLoop e rfl h
  obtain ⟨hwf, hd⟩ : WF (SleepQ.expireLoop (val e) sq.links sq.toInt) ∧
      deltas (SleepQ.expireLoop (val e) sq.links sq.toInt).sleep
        (SleepQ.expireLoop (val e) sq.links sq.toInt).links =
      deltaAdvance (val e) (deltas sq.toInt.sleep sq.toInt.links) := pairs_expireLoop (val e) h
  rw [← hl] at hwf hd
  refine ⟨hwf, ?_, ?_⟩
  · rw [times, hd, undelta_deltaAdvance (val e) h.nonneg_deltas]
    rfl
  · rw [hx, expireList_eq, deltaExpired_eq 0 (val e), zero_add]
    rfl

/-! ### The clock of the scheduler -/

@[simp] theorem sq_makeRunnable (s : Vp) (t : ThreadPtr) (w : Wake) :
    (s.makeRunnable t w).sq = s.sq := rfl

theorem sq_expireThread (s : Vp) (t : ThreadPtr) : (s.expireThread t).sq = s.sq.del t true := by
  unfold Vp.expireThread
  dsimp only
  split <;> rfl

theorem runQ_expireThread (s : Vp) (t : ThreadPtr) : (s.expireThread t).runQ = s.runQ ++ [t] := by
  unfold Vp.expireThread
  dsimp only
  split <;> rfl

theorem state_expireThread (s : Vp) (t : ThreadPtr) :
    ((s.expireThread t).thr t).state = .runnable := by
  simp [Vp.expireThread, Vp.makeRunnable, Vp.log, Vp.addRunQ, Vp.setState, Vp.modify]

theorem thr_expireThread (s : Vp) {t x : ThreadPtr} (h : x ≠ t) :
    (s.expireThread t).thr x = s.thr x := by
  unfold Vp.expireThread
  dsimp only
  split <;> simp [Vp.makeRunnable, Vp.log, Vp.addRunQ, Vp.setState, Vp.modify, Vp.delSleepQ, h]

@[simp] theorem sleep_del_expired {W : Type} [Zero W] [Add W] [Sub W] (t : ThreadPtr)
    (sq : SleepQ W) : (sq.del t true).sleep = sq.sleep := by
  unfold SleepQ.del; split <;> simp

/-- **The loop of the clock**: the sleep queue advances, and the threads it pops are made runnable in
that order; nothing else changes. -/
theorem checkClockLoop_spec : ∀ (q : List ThreadPtr) (e : UTime) (s : Vp), q.Nodup →
    (Vp.checkClockLoop e q s).sq = SleepQ.expireLoop e q s.sq ∧
    (Vp.checkClockLoop e q s).runQ = s.runQ ++ SleepQ.expireList s.sq.sleep e q ∧
    (∀ t ∈ SleepQ.expireList s.sq.sleep e q,
      ((Vp.checkClockLoop e q s).thr t).state = .runnable) ∧
    ∀ t ∉ SleepQ.expireList s.sq.sleep e q, (Vp.checkClockLoop e q s).thr t = s.thr t
  | [], e, s, _ => by simp [Vp.checkClockLoop, SleepQ.expireLoop, SleepQ.expireList]
  | x :: q, e, s, h => by
    obtain ⟨hx, hq⟩ := List.nodup_cons.mp h
    by_cases he : e < s.sq.sleep x
    · simp [Vp.checkClockLoop, SleepQ.expireLoop, SleepQ.expireList, he]
    · obtain ⟨h1, h2, h3, h4⟩ :=
        checkClockLoop_spec q (e - s.sq.sleep x) (s.expireThread x) hq
      simp only [sq_expireThread, runQ_expireThread, sleep_del_expired] at h1 h2 h3 h4
      have hsub : ∀ (q : List ThreadPtr) (e : UTime), ∀ t ∈ SleepQ.expireList s.sq.sleep e q, t ∈ q := by
        intro q
        induction q with
        | nil => intro e t ht; exact ht
        | cons y q ih =>
          intro e t ht
          simp only [SleepQ.expireList] at ht
          split at ht
          · simp at ht
          · rcases List.mem_cons.mp ht with rfl | ht
            · simp
            · exact List.mem_cons_of_mem y (ih _ t ht)
      simp only [Vp.checkClockLoop, SleepQ.expireLoop, SleepQ.expireList, if_neg he]
      refine ⟨h1, by rw [h2, List.append_assoc]; rfl, ?_, ?_⟩
      · intro t ht
        rcases List.mem_cons.mp ht with rfl | ht
        · rw [h4 t fun hm => hx (hsub _ _ t hm)]
          exact state_expireThread s t
        · exact h3 t ht
      · intro t ht
        obtain ⟨hne, ht⟩ := not_or.mp (List.mem_cons.not.mp ht)
        rw [h4 t ht, thr_expireThread s hne]

/-! ### The queue is always well formed -/

theorem wf_reach {s : Vp} (h : Reach sleepMachine s) : WF s.sq.toInt := by
  refine h.invariant (I := fun s => WF s.sq.toInt) ?_ ?_
  · rintro s ⟨hl, hm⟩
    exact ⟨by simp [hl], by simp [hl], by simp [hl, hm]⟩
  · rintro s (⟨t, u⟩ | ⟨t⟩ | ⟨now⟩) hw he -
    · change WF (s.sq.add t u).toInt
      rw [toInt_add]
      exact hw.add he (val_nonneg u)
    · change WF (s.sq.del t false).toInt
      rw [toInt_del hw he]
      exact hw.del he
    · have hsq : (s.vpCheckClock now).sq = SleepQ.expireLoop (now - s.lastClock) s.sq.links s.sq :=
        (checkClockLoop_spec _ _ _ hw.nodup).1
      change WF (s.vpCheckClock now).sq.toInt
      rw [hsq]
      exact (times_tick hw _).1

/-! ### Exactness -/

/-- `sleepMax` is what the last sleeper has left, `0` if there is none. -/
theorem sleepMax_eq {sq : SleepQ UTime} (h : WF sq.toInt) :
    sq.sleepMax.toNat = (sq.links.getLast?.map (remaining sq)).getD 0 := by
  have hmax : val sq.sleepMax = total (deltas sq.toInt.sleep sq.links) := h.max
  rcases hq : sq.links.getLast? with _ | t
  · have hnil : sq.links = [] := List.getLast?_eq_none_iff.mp hq
    rw [hnil] at hmax
    simp only [val, deltas_nil, total_nil] at hmax
    simpa using hmax
  · have hne : deltas sq.toInt.sleep sq.links ≠ [] := by
      intro hd
      have : sq.links = [] := by simpa [deltas] using hd
      simp [this] at hq
    have hlast := getLast?_undelta 0 hne
    rw [zero_add, ← hmax] at hlast
    change ((times sq).getLast?).map Prod.snd = _ at hlast
    obtain ⟨p, hp, hv⟩ := Option.map_eq_some_iff.mp hlast
    have hfst : ((times sq).map Prod.fst).getLast? = some p.1 := by rw [List.getLast?_map, hp]; rfl
    rw [map_fst_times, hq] at hfst
    have hr := mem_times h.nodup (List.mem_of_getLast? hp)
    rw [hv, ← Option.some.inj hfst] at hr
    simp only [val] at hr
    simp only [Option.map_some, Option.getD_some]
    exact_mod_cast hr

/-- **Adding**: `t` gets the time it asked for, behind everyone due no later; nobody else's changes. -/
theorem add_exact {sq : SleepQ UTime} (h : WF sq.toInt) {t : ThreadPtr} (ht : t ∉ sq.links)
    (u : UTime) :
    (sq.add t u).links = (sq.links.filter fun x => remaining sq x ≤ u.toNat) ++
        t :: sq.links.filter (fun x => u.toNat < remaining sq x) ∧
      remaining (sq.add t u) t = u.toNat ∧
      ∀ x ∈ sq.links, remaining (sq.add t u) x = remaining sq x := by
  have htimes := times_add h ht u
  have hnd : (sq.add t u).links.Nodup := nodup_links_add h.nodup ht
  have hplace : times (sq.add t u) = (times sq).filter (fun p => p.2 ≤ val u) ++
      (t, val u) :: (times sq).filter (fun p => val u < p.2) := by
    rw [htimes, place, takeWhile_times h, dropWhile_times h]
  refine ⟨?_, ?_, fun x hx => ?_⟩
  · rw [← map_fst_times (sq.add t u), hplace, List.map_append, List.map_cons,
      map_fst_filter_times h.nodup (fun v => decide (v ≤ val u)),
      map_fst_filter_times h.nodup (fun v => decide (val u < v))]
    simp only [val, Nat.cast_le, Nat.cast_lt]
  · exact remaining_eq hnd (by rw [hplace]; simp [val])
  · refine remaining_eq hnd ?_
    have hm := times_mem h.nodup hx
    rw [hplace]
    rcases le_or_gt (remaining sq x : ℤ) (val u) with hle | hlt
    · exact List.mem_append_left _ (List.mem_filter.mpr ⟨hm, by simpa using hle⟩)
    · exact List.mem_append_right _ (List.mem_cons_of_mem _
        (List.mem_filter.mpr ⟨hm, by simpa using hlt⟩))

/-- **Deleting** changes nobody else's time. -/
theorem del_exact {sq : SleepQ UTime} (h : WF sq.toInt) {t : ThreadPtr} (ht : t ∈ sq.links) :
    (sq.del t false).links = sq.links.erase t ∧
      ∀ x ∈ sq.links, x ≠ t → remaining (sq.del t false) x = remaining sq x := by
  refine ⟨links_del t false sq, fun x hx hne => ?_⟩
  have hnd : (sq.del t false).links.Nodup := by rw [links_del]; exact h.nodup.erase t
  refine remaining_eq hnd ?_
  rw [times_del h ht]
  exact List.mem_filter.mpr ⟨times_mem h.nodup hx, by simpa using hne⟩

/-- **A tick** of `e`: the sleepers with at most `e` left are popped, the others have `e` less. -/
theorem tick_exact {sq : SleepQ UTime} (h : WF sq.toInt) (e : UTime) :
    SleepQ.expireList sq.sleep e sq.links = sq.links.filter (fun x => remaining sq x ≤ e.toNat) ∧
      (SleepQ.expireLoop e sq.links sq).links =
        sq.links.filter (fun x => e.toNat < remaining sq x) ∧
      ∀ x ∈ sq.links, e.toNat < remaining sq x →
        remaining (SleepQ.expireLoop e sq.links sq) x = remaining sq x - e.toNat := by
  obtain ⟨hwf, htimes, hexp⟩ := times_tick h e
  have hadv : times (SleepQ.expireLoop e sq.links sq) =
      ((times sq).filter fun p => val e < p.2).map fun p => (p.1, p.2 - val e) := by
    rw [htimes, advance, dropWhile_times h]
  refine ⟨?_, ?_, fun x hx hlt => ?_⟩
  · rw [hexp, expired, takeWhile_times h,
      map_fst_filter_times h.nodup (fun v => decide (v ≤ val e))]
    simp only [val, Nat.cast_le]
  · rw [← map_fst_times (SleepQ.expireLoop e sq.links sq), hadv, List.map_map]
    change ((times sq).filter fun p => decide (val e < p.2)).map Prod.fst = _
    rw [map_fst_filter_times h.nodup (fun v => decide (val e < v))]
    simp only [val, Nat.cast_lt]
  · refine remaining_eq hwf.nodup ?_
    rw [hadv]
    refine List.mem_map.mpr ⟨(x, (remaining sq x : ℤ)), List.mem_filter.mpr
      ⟨times_mem h.nodup hx, ?_⟩, ?_⟩
    · simp only [val, Nat.cast_lt, decide_eq_true_eq]; exact hlt
    · rw [Nat.cast_sub hlt.le]; rfl

/-- The clock difference modulo `2^32` is the time passed, when that is less than `2^32`. -/
theorem elapsed_exact {t₀ t₁ : ℕ} (h : t₀ ≤ t₁) (hlt : t₁ - t₀ < 2 ^ 32) :
    (BitVec.ofNat 32 t₁ - BitVec.ofNat 32 t₀ : UTime).toNat = t₁ - t₀ := by
  simp only [BitVec.toNat_sub, BitVec.toNat_ofNat]
  omega

/-- **The sleep queue is exact**, for every queue reached. In order: `sleepMax`; adding; deleting; the
clock, at any reading; no operation wraps, since each gives the same numbers when computed in `ℤ`; the
elapsed time is the true one below `2^32` microseconds. -/
theorem sleepQueue_exact {s : Vp} (h : Reach sleepMachine s) :
    s.sq.sleepMax.toNat = (s.sq.links.getLast?.map (remaining s.sq)).getD 0 ∧
    (∀ t u, t ∉ s.sq.links →
      (s.addSleepQ t u).sq.links = (s.sq.links.filter fun x => remaining s.sq x ≤ u.toNat) ++
        t :: s.sq.links.filter (fun x => u.toNat < remaining s.sq x) ∧
      remaining (s.addSleepQ t u).sq t = u.toNat ∧
      ∀ x ∈ s.sq.links, remaining (s.addSleepQ t u).sq x = remaining s.sq x) ∧
    (∀ t ∈ s.sq.links, (s.delSleepQ t false).sq.links = s.sq.links.erase t ∧
      ∀ x ∈ s.sq.links, x ≠ t → remaining (s.delSleepQ t false).sq x = remaining s.sq x) ∧
    (∀ now, let e := (now - s.lastClock).toNat
      let due := s.sq.links.filter fun x => remaining s.sq x ≤ e
      (s.vpCheckClock now).runQ = s.runQ ++ due ∧
      (∀ x ∈ due, ((s.vpCheckClock now).thr x).state = .runnable) ∧
      (∀ x ∉ due, (s.vpCheckClock now).thr x = s.thr x) ∧
      (s.vpCheckClock now).sq.links = s.sq.links.filter (fun x => e < remaining s.sq x) ∧
      ∀ x ∈ s.sq.links, e < remaining s.sq x →
        remaining (s.vpCheckClock now).sq x = remaining s.sq x - e) ∧
    ((∀ t u, (s.addSleepQ t u).sq.toInt = s.sq.toInt.add t (u.toNat : ℤ)) ∧
      (∀ t ∈ s.sq.links, (s.delSleepQ t false).sq.toInt = s.sq.toInt.del t false) ∧
      ∀ now, (s.vpCheckClock now).sq.toInt =
        SleepQ.expireLoop ((now - s.lastClock).toNat : ℤ) s.sq.links s.sq.toInt) ∧
    ∀ t₀ t₁ : ℕ, t₀ ≤ t₁ → t₁ - t₀ < 2 ^ 32 → s.lastClock = BitVec.ofNat 32 t₀ →
      (BitVec.ofNat 32 t₁ - s.lastClock).toNat = t₁ - t₀ := by
  have hw := wf_reach h
  refine ⟨sleepMax_eq hw, fun t u ht => add_exact hw ht u, fun t ht => del_exact hw ht, ?_,
    ⟨fun t u => toInt_add s.sq t u, fun t ht => toInt_del hw ht false, ?_⟩, ?_⟩
  · intro now
    obtain ⟨h1, h2, h3, h4⟩ :=
      checkClockLoop_spec s.sq.links (now - s.lastClock) { s with lastClock := now } hw.nodup
    obtain ⟨t1, t2, t3⟩ := tick_exact hw (now - s.lastClock)
    simp only at h1 h2 h3 h4
    rw [t1] at h2 h3 h4
    rw [← h1] at t2 t3
    exact ⟨h2, h3, h4, t2, t3⟩
  · intro now
    obtain ⟨h1, -⟩ :=
      checkClockLoop_spec s.sq.links (now - s.lastClock) { s with lastClock := now } hw.nodup
    change (Vp.checkClockLoop _ _ _).sq.toInt = _
    rw [h1]
    exact (toInt_expireLoop (now - s.lastClock) rfl hw).1
  · rintro t₀ t₁ hle hlt hc
    rw [hc]
    exact elapsed_exact hle hlt

instance decidableSleep (s : Vp) : ∀ a, Decidable (sleepMachine.enabled s a)
  | .add t _ => inferInstanceAs (Decidable (t ∉ s.sq.links))
  | .del t => inferInstanceAs (Decidable (t ∈ s.sq.links))
  | .clock _ => .isTrue trivial

/-- Three sleepers; one is deleted, one is due after `200`. -/
def sleepRun : List SleepAction := [.add 3 500, .add 4 200, .add 5 400, .del 3, .clock 200]

theorem sleepRun_exact : (sleepRun.foldl sleepMachine.apply (Vp.blank 0)).sq.sleepMax.toNat = 200 := by
  have hinit : sleepMachine.init (Vp.blank 0) := ⟨rfl, rfl⟩
  have hr : Reach sleepMachine (sleepRun.foldl sleepMachine.apply (Vp.blank 0)) :=
    (ReachVia.init hinit).foldl sleepRun (by decide +kernel)
  rw [(sleepQueue_exact hr).1]
  decide +kernel

end StNvs.Sched.SleepTimes
