import StNvs.Sched.Touches

/-! # What a step does to the sleepers

But for the clock and the calls that put the current thread to sleep, a step takes sleepers off the sleep
queue and leaves the others the time they have left, inside the call they are in (`Rests`). A thread that
goes to sleep has all the time it asks for (`Naps`). -/

namespace StNvs.Sched.Sleepers

open StNvs.Sched.Sleep StNvs.Sched.Model StNvs.Sched.Moves StNvs.Sched.Threads StNvs.Sched.Invariant
open StNvs.Sched.Calls StNvs.Sched.SleepTimes StNvs.Sched.Touches
open StNvs.Lib.Runs Function

variable {s s' : Vp} {t u x : ThreadPtr} {op : Op} {R : Vp → Vp → Prop} {c : Option Op}

/-- The sleep queue is well formed, and who has the flag is on it. -/
structure Queued (s : Vp) : Prop where
  wf : WF s.sq.toInt
  flagged : ∀ t, (s.thr t).onSleepQ = true → t ∈ s.sq.links

/-- Who is on the sleep queue was on it, with the same time left; `u` aside, inside the same call. -/
structure Rests (u : ThreadPtr) (s s' : Vp) : Prop where
  clock : s'.lastClock = s.lastClock
  queued : Queued s'
  sleepers : ∀ x ∈ s'.sq.links, x ∈ s.sq.links ∧ remaining s'.sq x = remaining s.sq x ∧
    (x ≠ u → (s'.thr x).ctx = (s.thr x).ctx)

theorem Rests.refl (h : Queued s) : Rests u s s := ⟨rfl, h, fun _ hx => ⟨hx, rfl, fun _ => rfl⟩⟩

theorem Rests.trans {s'' : Vp} (h : Rests u s s') (h' : Rests u s' s'') : Rests u s s'' := by
  refine ⟨h'.clock.trans h.clock, h'.queued, fun x hx => ?_⟩
  obtain ⟨hx', hr', hc'⟩ := h'.sleepers x hx
  obtain ⟨hx, hr, hc⟩ := h.sleepers x hx'
  exact ⟨hx, hr'.trans hr, fun hne => (hc' hne).trans (hc hne)⟩

/-- The sleep queue is left alone. -/
theorem Rests.of_sq (h : Queued s) (hc : s'.lastClock = s.lastClock) (hq : s'.sq = s.sq)
    (ho : ∀ x, (s'.thr x).onSleepQ = true → (s.thr x).onSleepQ = true)
    (hx : ∀ x ∈ s.sq.links, x ≠ u → (s'.thr x).ctx = (s.thr x).ctx) : Rests u s s' :=
  ⟨hc, ⟨hq ▸ h.wf, fun t ht => hq ▸ h.flagged t (ho t ht)⟩,
    fun x hm => ⟨hq ▸ hm, by rw [hq], hx x (hq ▸ hm)⟩⟩

theorem onSleepQ_modify {f : Thread → Thread} (hf : Mild f) :
    ((s.modify t f).thr x).onSleepQ = (s.thr x).onSleepQ := by
  rcases eq_or_ne x t with rfl | hne
  · simp [Vp.modify, hf.onSleepQ]
  · simp [Vp.modify, hne]

/-- A thread leaves the sleep queue. -/
theorem rests_delSleepQ (h : Queued s) (ht : t ∈ s.sq.links) : Rests u s (s.delSleepQ t false) := by
  obtain ⟨hl, hr⟩ := del_exact h.wf ht
  have hwf : WF (s.delSleepQ t false).sq.toInt := by
    change WF (s.sq.del t false).toInt
    rw [toInt_del h.wf ht]
    exact h.wf.del ht
  have hmem : ∀ x, x ∈ (s.delSleepQ t false).sq.links ↔ x ≠ t ∧ x ∈ s.sq.links := fun x => by
    change x ∈ (s.sq.del t false).links ↔ _
    rw [hl]
    exact h.wf.nodup.mem_erase_iff
  refine ⟨rfl, ⟨hwf, fun x hx => (hmem x).mpr ?_⟩, fun x hx => ?_⟩
  · rcases eq_or_ne x t with rfl | hne
    · simp [Vp.delSleepQ, Vp.modify] at hx
    · exact ⟨hne, h.flagged x (by simpa [Vp.delSleepQ, Vp.modify, hne] using hx)⟩
  · obtain ⟨hne, hx⟩ := (hmem x).mp hx
    exact ⟨hx, hr x hx hne, fun _ => by simp [Vp.delSleepQ, Vp.modify, hne]⟩

/-- What is special about a call leaves the sleepers of `s` alone. -/
def Sparing (R : Vp → Vp → Prop) (s : Vp) : Prop := ∀ s₁ s₂, R s₁ s₂ → s₂.lastClock = s₁.lastClock ∧
  s₂.sq = s₁.sq ∧ (∀ x, (s₂.thr x).onSleepQ = true → (s₁.thr x).onSleepQ = true) ∧
  ∀ x ∈ s.sq.links, (s₂.thr x).ctx = (s₁.thr x).ctx

/-- **Touches** leave the sleepers the time they have. -/
theorem rests_touched (h : Touched R c u s s') (hq : Queued s) (hR : Sparing R s) : Rests u s s' := by
  induction h with
  | refl => exact .refl hq
  | @tail s₁ s₂ _ ht ih =>
    have hq := ih.queued
    refine ih.trans ?_
    cases ht with
    | own f hf _ =>
      refine .of_sq hq rfl rfl (fun x hx => onSleepQ_modify hf ▸ hx) fun x _ hne => ?_
      simp [Vp.modify, hne]
    | other t f hf hc =>
      refine .of_sq hq rfl rfl (fun x hx => onSleepQ_modify hf ▸ hx) fun x _ _ => ?_
      rcases eq_or_ne x t with rfl | hne
      · simp [Vp.modify, hc]
      · simp [Vp.modify, hne]
    | lists hth _ hsq hcl _ _ => exact .of_sq hq hcl hsq (fun _ hx => hth ▸ hx) fun _ _ _ => by rw [hth]
    | awaken ho => exact rests_delSleepQ hq (hq.flagged _ ho)
    | special hs =>
      obtain ⟨h1, h2, h3, h4⟩ := hR _ _ hs
      exact .of_sq hq h1 h2 h3 fun x hx _ => h4 x (ih.sleepers x hx).1

theorem ctx_vpSchedule : (s.vpSchedule.thr x).ctx = (s.thr x).ctx := by
  have hm : ∀ t, ((s.setState t .running).thr x).ctx = (s.thr x).ctx := fun t => by
    rcases eq_or_ne x t with rfl | hne
    · simp [Vp.setState, Vp.modify]
    · simp [Vp.setState, Vp.modify, hne]
  unfold Vp.vpSchedule
  split
  · exact hm _
  · exact hm _

/-! ### Going to sleep -/

/-- Who is on the sleep queue was on it, with the same time left and inside the same call, or is the
current thread, inside `op` and with all of `y` left. -/
structure Naps (op : Op) (y : UTime) (s s' : Vp) : Prop where
  clock : s'.lastClock = s.lastClock
  queued : Queued s'
  sleepers : ∀ x ∈ s'.sq.links,
    x = s.current ∧ remaining s'.sq x = y.toNat ∧ (s'.thr x).ctx = .within op ∨
    x ≠ s.current ∧ x ∈ s.sq.links ∧ remaining s'.sq x = remaining s.sq x ∧ (s'.thr x).ctx = (s.thr x).ctx

section Naps

variable {y : UTime} (hx : s.current ∉ s.sq.links)
include hx

theorem Rests.naps (hr : Rests s.current s s') : Naps op y s s' := by
  refine ⟨hr.clock, hr.queued, fun x hm => ?_⟩
  obtain ⟨hl, hrem, hc⟩ := hr.sleepers x hm
  have hne : x ≠ s.current := fun he => hx (he ▸ hl)
  exact .inr ⟨hne, hl, hrem, hc hne⟩

variable (hq : Queued s)
include hq

theorem naps_pause {st : TState} : Naps op y s (pause op st (some y) s).vpSchedule := by
  have hsq : (pause op st (some y) s).sq = s.sq.add s.current y := rfl
  obtain ⟨hlinks, hself, hothers⟩ := add_exact hq.wf hx y
  have hmem : ∀ x, x ∈ (s.sq.add s.current y).links ↔ x = s.current ∨ x ∈ s.sq.links := fun x => by
    rw [← List.count_pos_iff, count_links_add, ← List.count_pos_iff]
    split_ifs with he
    · simp [he]
    · simp [Ne.symm he]
  have hqp : Queued (pause op st (some y) s) := by
    refine ⟨?_, fun x ho => (hmem x).mpr ?_⟩
    · rw [hsq, toInt_add]
      exact hq.wf.add hx (val_nonneg y)
    · refine (eq_or_ne x s.current).imp_right fun hne => hq.flagged x ?_
      simpa [pause, hne] using ho
  -- scheduling the next thread changes nothing of this
  have hsched := rests_touched (touches_vpSchedule (R := fun _ _ => False) (c := none) (u := s.current)) hqp
    fun _ _ hR => hR.elim
  refine ⟨hsched.clock, hsched.queued, fun x hm => ?_⟩
  obtain ⟨hm, hr, hc⟩ := hsched.sleepers x hm
  rcases eq_or_ne x s.current with rfl | hne
  · exact .inl ⟨rfl, hr.trans hself, by rw [ctx_vpSchedule]; simp [pause]⟩
  · have hxl : x ∈ s.sq.links := ((hmem x).mp hm).resolve_left hne
    refine .inr ⟨hne, hxl, hr.trans (hothers x hxl), (hc hne).trans ?_⟩
    simp [pause, hne]

/-- A call that returns at once since an interrupt is pending. -/
theorem naps_intr (r : Ret) : Naps op y s ((s.clearInterrupt s.current).ret op r) :=
  (rests_touched (touches_clear_ret (R := fun _ _ => False) rfl r) hq fun _ _ hR => hR.elim).naps hx

/-- `st_usleep`. -/
theorem naps_usleep : Naps (.usleep y) y s (s.usleep y) := by
  unfold Vp.usleep
  dsimp only
  split_ifs
  · exact naps_intr hx hq _
  · rw [usleep_eq]
    exact naps_pause hx hq

/-- `st_cond_timedwait`. -/
theorem naps_condTimedwait {w : WaitQ} (hop : waitsOn (.within op) = some w) (hy : y ≠ noTimeout) :
    Naps op y s (s.condTimedwait w y op) := by
  by_cases hint : (s.thr s.current).interrupt = true
  · rw [Vp.condTimedwait, if_pos hint]
    exact naps_intr hx hq _
  · rw [condTimedwait_eq hop y (by simpa using hint), if_neg hy]
    exact naps_pause hx hq

end Naps

/-! ### The steps -/

/-- Only a call that goes to sleep is not sparing. -/
theorem sparing_step {a : Vp.Action} (he : ∀ b j, a = .call (.create (some b) j) → b ∉ s.sq.links)
    (hu : ∀ y, a ≠ .call (.usleep y)) (hc : ∀ c y, a = .call (.condTimedwait c y) → y = noTimeout) :
    Sparing (SpecialStep s a) s := by
  intro s₁ s₂ hR
  match a, hR with
  | .call (.create (some b) j), hR =>
    obtain rfl := hR
    refine ⟨rfl, rfl, fun x ho => ?_, fun x hx => ?_⟩
    · rcases eq_or_ne x b with rfl | hne
      · simp [Vp.newThread] at ho
      · simpa [hne] using ho
    · have hne : x ≠ b := fun hxb => he b j rfl (hxb ▸ hx)
      simp [hne]
  | .call (.usleep y), _ => exact absurd rfl (hu y)
  | .call (.condTimedwait c y), hR => exact absurd (hc c y rfl) hR.1
  | .call (.exit v), hR => obtain rfl := hR; exact ⟨rfl, rfl, fun _ ho => ho, fun _ _ => rfl⟩
  | .call (.io k o n), hR => obtain rfl := hR; exact ⟨rfl, rfl, fun _ ho => ho, fun _ _ => rfl⟩
  | .call (.interrupt t), hR =>
    obtain rfl := hR
    refine ⟨rfl, rfl, fun x ho => ?_, fun x _ => ?_⟩ <;> rcases eq_or_ne x t with rfl | hne
    · simpa [Vp.modify] using ho
    · simpa [Vp.modify, hne] using ho
    · simp [Vp.modify]
    · simp [Vp.modify, hne]
  | .resume, hR =>
    obtain ⟨v, -, rfl⟩ := hR
    exact ⟨rfl, rfl, fun _ ho => ho, fun _ _ => rfl⟩

/-- A completion leaves the sleepers alone. -/
theorem rests_complete (hq : Queued s) (e : Entry) (n : ℤ) : Rests u s (s.complete e n) := by
  obtain ⟨v, hc⟩ := complete_eq (s := s) e n
  rw [hc]
  refine .of_sq hq rfl rfl (fun x ho => ?_) fun x _ _ => ?_ <;> rcases eq_or_ne x e.thread with rfl | hne
  · simpa [Vp.modify] using ho
  · simpa [Vp.modify, hne] using ho
  · simp [Vp.modify]
  · simp [Vp.modify, hne]

/-- **A step** but for a reading of the clock and a call of `st_usleep`: who is inside `st_usleep` after
it was there before. -/
theorem kept_apply (hs : Sound s) (hq : Queued s) (hx : s.current ∉ s.sq.links) {a : Vp.Action}
    (he : Vp.Enabled s a) (hu : ∀ y, a ≠ .call (.usleep y)) (hc : ∀ now, a ≠ .idleClock now) :
    (Vp.apply s a).lastClock = s.lastClock ∧ Queued (Vp.apply s a) ∧
      ∀ x ∈ (Vp.apply s a).sq.links, ∀ y, ((Vp.apply s a).thr x).ctx = .within (.usleep y) →
        x ∈ s.sq.links ∧ remaining (Vp.apply s a).sq x = remaining s.sq x ∧
          ((Vp.apply s a).thr x).ctx = (s.thr x).ctx := by
  have hn : ∃ c y, Naps (.condTimedwait c y) y s (Vp.apply s a) := by
    by_cases hct : ∃ c y, a = .call (.condTimedwait c y) ∧ y ≠ noTimeout
    · obtain ⟨c, y, rfl, hy⟩ := hct
      have hnap := naps_condTimedwait (s := s.log (.called s.current (.condTimedwait c y)
        (s.thr s.current).interrupt)) hx ⟨hq.wf, hq.flagged⟩ (rfl : waitsOn (.within (.condTimedwait c y)) = _) hy
      exact ⟨c, y, hnap.clock, hnap.queued, hnap.sleepers⟩
    refine ⟨0, 0, Rests.naps hx ?_⟩
    by_cases hco : ∃ e n, a = .complete e n
    · obtain ⟨e, n, rfl⟩ := hco
      exact rests_complete hq e n
    refine rests_touched (touches_apply hc fun e n hn => hco ⟨e, n, hn⟩) hq (sparing_step ?_ hu ?_)
    · rintro b j rfl hb
      exact he.2 ((hs.good b).of_mem_links hb).1
    · rintro c y rfl
      by_contra hy
      exact hct ⟨c, y, rfl, hy⟩
  obtain ⟨c, y, hn⟩ := hn
  refine ⟨hn.clock, hn.queued, fun x hm z hz => ?_⟩
  rcases hn.sleepers x hm with ⟨-, -, hc⟩ | ⟨-, hl, hr, hc⟩
  · cases hc.symm.trans hz
  · exact ⟨hl, hr, hc⟩

/-! ### The clock -/

/-- The events of the loop: who is made runnable. -/
theorem trace_checkClockLoop : ∀ (q : List ThreadPtr) (e : UTime) (s : Vp),
    (s.checkClockLoop e q).trace =
      ((SleepQ.expireList s.sq.sleep e q).map (Event.woken · .clock)).reverse ++ s.trace
  | [], _, _ => rfl
  | t :: q, e, s => by
    have htr : (s.expireThread t).trace = .woken t .clock :: s.trace := by
      unfold Vp.expireThread; dsimp only; split <;> rfl
    rw [Vp.checkClockLoop, SleepQ.expireList]
    split_ifs
    · rfl
    · rw [trace_checkClockLoop q, sq_expireThread, sleep_del_expired, htr]
      simp

/-- Who the loop leaves the flag is still on the queue. -/
theorem flagged_checkClockLoop : ∀ (q : List ThreadPtr) (e : UTime) (s : Vp),
    (∀ t, (s.thr t).onSleepQ = true → t ∈ s.sq.links) →
    ∀ t, ((s.checkClockLoop e q).thr t).onSleepQ = true → t ∈ (s.checkClockLoop e q).sq.links
  | [], _, _, h => h
  | x :: q, e, s, h => by
    rw [Vp.checkClockLoop]
    split_ifs
    · exact h
    · refine flagged_checkClockLoop q _ _ fun t ho => ?_
      rcases eq_or_ne t x with rfl | hne
      · rw [← th_view, view_expireThread] at ho
        simp at ho
      · rw [thr_of_view (view_expireThread_of_ne hne)] at ho
        rw [sq_expireThread, links_del]
        exact (List.mem_erase_of_ne hne).mpr (h t ho)

/-- **The clock**: the sleepers with no more time left than has passed are made runnable, in order, and
the others have that much less. -/
theorem idleClock_spec (hq : Queued s) (now : UTime) :
    Queued (s.idleClock now) ∧ (s.idleClock now).lastClock = now ∧
      (s.idleClock now).trace = ((s.sq.links.filter fun x => remaining s.sq x ≤ (now - s.lastClock).toNat).map
        (Event.woken · .clock)).reverse ++ s.trace ∧
      ∀ x ∈ (s.idleClock now).sq.links, x ∈ s.sq.links ∧ (now - s.lastClock).toNat < remaining s.sq x ∧
        remaining (s.idleClock now).sq x = remaining s.sq x - (now - s.lastClock).toNat ∧
        (x ≠ s.current → ((s.idleClock now).thr x).ctx = (s.thr x).ctx) := by
  have hw := hq.wf
  have hsq : ∀ s' : Vp, s'.vpSchedule.sq = s'.sq ∧ s'.vpSchedule.lastClock = s'.lastClock ∧
      s'.vpSchedule.trace = s'.trace := fun s' => by
    unfold Vp.vpSchedule; split <;> exact ⟨rfl, rfl, rfl⟩
  obtain ⟨h1, h2, h3⟩ := hsq (((s.vpCheckClock now).setState s.current .runnable).setCtx s.current (.idle .wait))
  obtain ⟨l1, -, -, l4⟩ :=
    checkClockLoop_spec s.sq.links (now - s.lastClock) { s with lastClock := now } hw.nodup
  obtain ⟨t1, t2, t3⟩ := tick_exact hw (now - s.lastClock)
  have hsq' : (s.idleClock now).sq = SleepQ.expireLoop (now - s.lastClock) s.sq.links s.sq := h1.trans l1
  have hlast : ∀ (q : List ThreadPtr) (e : UTime) (s : Vp), (s.checkClockLoop e q).lastClock = s.lastClock := by
    intro q
    induction q with
    | nil => exact fun _ _ => rfl
    | cons x q ih =>
      intro e s
      rw [Vp.checkClockLoop]
      split_ifs
      · rfl
      · rw [ih]; unfold Vp.expireThread; dsimp only; split <;> rfl
  refine ⟨?_, h2.trans (hlast _ _ _), h3.trans ((trace_checkClockLoop _ _ _).trans (by rw [t1])), fun x hx => ?_⟩
  · have hqs : Queued (s.vpCheckClock now) := by
      refine ⟨?_, flagged_checkClockLoop _ _ _ hq.flagged⟩
      change WF (Vp.checkClockLoop _ _ _).sq.toInt
      rw [l1]
      exact (times_tick hw _).1
    have htouch : Touched (fun _ _ => False) none s.current (s.vpCheckClock now)
        (((s.vpCheckClock now).setState s.current .runnable).setCtx s.current (.idle .wait)).vpSchedule :=
      ((touches_setState .runnable).tail
        (.own (fun th => { th with ctx := .idle .wait })
          ⟨fun _ => rfl, fun _ => rfl, fun _ => rfl, fun _ h => h⟩ (by simp))).trans
        touches_vpSchedule
    exact (rests_touched htouch hqs fun _ _ hR => hR.elim).queued
  · rw [hsq', t2] at hx
    obtain ⟨hx, hlt⟩ := List.mem_filter.mp hx
    have hlt : (now - s.lastClock).toNat < remaining s.sq x := by simpa using hlt
    refine ⟨hx, hlt, by rw [hsq']; exact t3 x hx hlt, fun hne => ?_⟩
    have hnot : x ∉ SleepQ.expireList s.sq.sleep (now - s.lastClock) s.sq.links := by
      rw [t1]
      exact fun hm => absurd (of_decide_eq_true (List.mem_filter.mp hm).2) (not_le.mpr hlt)
    have hthr : (s.vpCheckClock now).thr x = s.thr x := l4 x hnot
    refine ctx_vpSchedule.trans ?_
    simp [Vp.setCtx, Vp.setState, Vp.modify, hne, hthr]

end StNvs.Sched.Sleepers
