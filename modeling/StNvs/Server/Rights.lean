import StNvs.Server.Counts

/-! # What is done once -/

namespace StNvs.Server.Rights

open StNvs.Lib.Holders StNvs.Server.Model StNvs.Server.References StNvs.Server.Moves StNvs.Server.Counts
open Function

/-- The right of a client's sender, whatever its batch, also in its last step. -/
def Sends (c : CuPtr) : Token → Prop
  | .cuSender d _ | .closing d => d = c
  | _ => False

instance decidableSends (c : CuPtr) : DecidablePred (Sends c)
  | .cuSender d _ | .closing d => inferInstanceAs (Decidable (d = c))
  | .pu _ | .cu _ | .msg _ | .draft _ | .opening _ | .puSender _ | .right _ | .waiter _ | .woken _ | .seat _
  | .entry _ => .isFalse id

/-- How often `_real_video_cmd` has been set. -/
def opened (o : PuProxy) : ℕ := o.video.elim 0 fun _ => 1

/-- Each right is held once at most. `_real_video_cmd` is set once, and nobody is entered before. -/
structure Exclusive (H : Hand) (s : Sys) : Prop where
  opening : ∀ p, (H + tokens s).count (.opening p) + opened (s.pu p) ≤ 1
  unopened : ∀ p, (s.pu p).video = none → (s.pu p).viewers = []
  puSender : ∀ p, (H + tokens s).count (.puSender p) ≤ 1
  cuSender : ∀ c, (H + tokens s).countP (Sends c) ≤ 1
  right : ∀ m, (H + tokens s).count (.right m) + (H + tokens s).count (.waiter m) ≤ 1

variable {law : Law} {gain loss H H' : Hand} {s s' : Sys} {p : PuPtr} {c : CuPtr} {m : MsgPtr}

theorem not_born {t : Token} (hb : Balanced H s) (h : ¬ Born s t) : (H + tokens s).count t = 0 :=
  Multiset.count_eq_zero.2 fun ht => h (hb.born t ht)

/-- What a move does about `_real_video_cmd`: nothing, or it is a new one, or a right has been used. -/
theorem opened_move (h : Move law gain loss H s H' s') (p : PuPtr) :
    gain.count (.opening p) = 0 ∧ opened (s'.pu p) ≤ opened (s.pu p) + loss.count (.opening p) ∨
      p = s.pus ∧ gain.count (.opening p) = 1 ∧ opened (s'.pu p) = 0 := by
  cases h with
  | newPu sn hsn =>
    obtain rfl | hp := eq_or_ne p s.pus
    · simp [opened]
    · simp [hp]
  | @setVideo _ _ q m hmaker h0 hv hviewers =>
    obtain rfl | hp := eq_or_ne p q
    · simp [opened, hv]
    · simp [hp]
  | _ =>
    simp [Sys.notifyPu, Sys.notifyCu, Sys.fork, Sys.addPu, closed_pu, opened, update_field PuProxy.video]

theorem unopened_move (hr : Exclusive H s) (h : Move law gain loss H s H' s') (hv : (s'.pu p).video = none) :
    (s'.pu p).viewers = [] := by
  cases h with
  | newPu sn hsn =>
    obtain rfl | hp := eq_or_ne p s.pus
    · simp [Sys.newPu]
    · simp only [Sys.newPu, update_of_ne hp] at hv ⊢
      exact hr.unopened p hv
  | @setVideo _ _ q m hmaker h0 hv' hviewers =>
    obtain rfl | hp := eq_or_ne p q
    · simp [Sys.modPu] at hv
    · simp only [Sys.modPu, update_of_ne hp] at hv ⊢
      exact hr.unopened p hv
  | @enter _ _ q c v h0 hv' hp =>
    obtain rfl | hq := eq_or_ne p q
    · simp [Sys.modPu, hv'] at hv
    · simp only [Sys.modPu, update_of_ne hq] at hv ⊢
      exact hr.unopened p hv
  | @exit _ _ q c v hq' hc hv' =>
    obtain rfl | hq := eq_or_ne p q
    · simp [Sys.modPu, hv'] at hv
    · simp only [Sys.modPu, update_of_ne hq] at hv ⊢
      exact hr.unopened p hv
  | share | dropRight | dropSender | giveUp | dropClosing => exact hr.unopened p hv
  | _ =>
    simp [Sys.notifyPu, Sys.notifyCu, Sys.fork, Sys.addPu, closed_pu, update_field PuProxy.video,
      update_field PuProxy.viewers] at hv ⊢
    exact hr.unopened p hv

/-- The sender of a device and that of a client come into being with the object. -/
theorem puSender_gain (h : Move law gain loss H s H' s') (p : PuPtr) :
    gain.count (.puSender p) = 0 ∨ p = s.pus ∧ gain.count (.puSender p) = 1 := by
  cases h with
  | newPu sn hsn =>
    obtain rfl | hp := eq_or_ne p s.pus
    · simp
    · simp [hp]
  | _ => simp

theorem countP_sends (t : Token) : Multiset.countP (Sends c) {t} = if Sends c t then 1 else 0 := by
  rw [← Multiset.cons_zero, Multiset.countP_cons, Multiset.countP_zero, zero_add]

theorem cuSender_gain (h : Move law gain loss H s H' s') (c : CuPtr) :
    gain.countP (Sends c) ≤ loss.countP (Sends c) ∨ c = s.cus ∧ gain.countP (Sends c) = 1 := by
  cases h with
  | newCu =>
    obtain rfl | hc := eq_or_ne c s.cus
    · exact .inr ⟨rfl, by simp [countP_sends, Multiset.countP_cons, Sends]⟩
    · exact .inl (by simp [countP_sends, Multiset.countP_cons, Sends, Ne.symm hc])
  | backupCu | giveUp | clearCu | noteWritten => exact .inl (le_of_eq ((countP_sends _).trans (countP_sends _).symm))
  | _ => exact .inl (by simp [countP_sends, Multiset.countP_cons, Sends])

theorem right_gain (hb : Balanced H s) (h : Move law gain loss H s H' s') (m : MsgPtr) :
    gain.count (.right m) + gain.count (.waiter m) ≤ loss.count (.right m) + loss.count (.waiter m) ∨
      m ∉ s.log.news ∧ gain.count (.right m) = 1 ∧ gain.count (.waiter m) = 0 := by
  cases h with
  | newDraft c hdr body =>
    obtain rfl | hm := eq_or_ne m (s.fresh (.client c))
    · exact .inr ⟨hb.fresh_not_mem _, by simp, by simp⟩
    · exact .inl (by simp [hm])
  | _ => exact .inl (by simp [Multiset.count_singleton])

/-- **What is done once is done once.** -/
theorem Exclusive.move (hb : Balanced H s) (hr : Exclusive H s) (h : Move law gain loss H s H' s') :
    Exclusive H' s' := by
  have ht (t : Token) : (H' + tokens s').count t + loss.count t = (H + tokens s).count t + gain.count t := by
    rw [← Multiset.count_add, ← Multiset.count_add, total hb h]
  refine ⟨fun p => ?_, fun p hv => unopened_move hr h hv, fun p => ?_, fun c => ?_, fun m => ?_⟩
  · have h1 := ht (.opening p)
    have h2 := hr.opening p
    obtain h3 | ⟨rfl, h3⟩ := opened_move h p
    · omega
    · have := not_born hb (t := .opening s.pus) (lt_irrefl _)
      omega
  · have h1 := ht (.puSender p)
    have h2 := hr.puSender p
    obtain h3 | ⟨rfl, h3⟩ := puSender_gain h p
    · omega
    · have := not_born hb (t := .puSender s.pus) (lt_irrefl _)
      omega
  · have h1 := congrArg (Multiset.countP (Sends c)) (total hb h)
    rw [Multiset.countP_add, Multiset.countP_add _ _ gain] at h1
    have h2 := hr.cuSender c
    obtain h3 | ⟨rfl, h3⟩ := cuSender_gain h c
    · omega
    · have : (H + tokens s).countP (Sends s.cus) = 0 := by
        refine Multiset.countP_eq_zero.2 fun t ht hs => ?_
        cases t with
        | cuSender d b =>
          obtain rfl : d = s.cus := hs
          exact absurd (hb.born _ ht) (lt_irrefl _)
        | closing d =>
          obtain rfl : d = s.cus := hs
          exact absurd (hb.born _ ht) (lt_irrefl _)
        | _ => exact hs
      omega
  · have h1 := ht (.right m)
    have h2 := ht (.waiter m)
    have h3 := hr.right m
    obtain h4 | ⟨hm, h4⟩ := right_gain hb h m
    · omega
    · have h5 := not_born hb (t := .right m) hm
      have h6 := not_born hb (t := .waiter m) hm
      omega

end StNvs.Server.Rights
