import StNvs.Server.Rights

/-! # Sessions and their objects

* `Registered.move`: `_device_map` has exactly the devices that are alive.
* `Clients.move`: what a client has entered, asked for and been woken for.
* `Senders.move`: the queue of a client without a sender is empty. -/

namespace StNvs.Server.Sessions

open StNvs.Lib.Holders StNvs.Server.Model StNvs.Server.References StNvs.Server.Moves StNvs.Server.Counts
open StNvs.Server.Rights Function

variable {law : Law} {gain loss H H' : Hand} {s s' : Sys} {p : PuPtr} {c : CuPtr} {m : MsgPtr} {t : Task}

/-! ### The registry -/

/-- `_device_map` has the devices that are alive. -/
def Registered (s : Sys) : Prop :=
  ∀ sn p, s.deviceMap sn = some p ↔ (s.pu p).ref ≠ 0 ∧ (s.pu p).sn = sn

theorem Registered.move (hb : Balanced H s) (hr : Registered s) (h : Move law gain loss H s H' s') :
    Registered s' := by
  intro sn p
  have hold := hr sn p
  cases h with
  | newPu sn' hsn' =>
    have h0 : (s.pu s.pus).ref = 0 := by
      by_contra h
      exact absurd (hb.pu_lt h) (lt_irrefl _)
    simp only [Sys.newPu_deviceMap, Sys.newPu_pu, update_apply]
    split_ifs with hsn hp hp
    · simp [hp, hsn]
    · rw [← hold, hsn, hsn']
      simp [Ne.symm hp]
    · have hnot : s.deviceMap sn ≠ some p := fun hm => (hold.1 hm).1 (hp ▸ h0)
      simp [hnot, Ne.symm hsn]
    · exact hold
  | @addPu _ _ q h0 =>
    obtain rfl | hp := eq_or_ne p q
    · simp [Sys.addPu, hold, h0]
    · simp [Sys.addPu, hold, hp]
  | @dropPu _ _ q h0 h1 =>
    obtain rfl | hp := eq_or_ne p q
    · have : (s.pu p).ref - 1 ≠ 0 := by omega
      simp [hold, h0, this]
    · simp [hold, hp]
  | @deletePu _ _ q v h1 hv =>
    have hq := hr (s.pu q).sn q
    simp only [Sys.lose_deviceMap, Sys.lose_pu, Sys.unregister_deviceMap, Sys.unregister_pu, Sys.modPu_pu,
      Sys.modPu_deviceMap, update_apply]
    split_ifs with hsn hp hp
    · simp
    · have hnot : s.deviceMap sn ≠ some p := fun hm => by
        rw [hsn, hq.2 ⟨by omega, rfl⟩] at hm
        exact hp (Option.some.inj hm).symm
      simpa [hnot] using hold
    · have hnot : s.deviceMap sn ≠ some p := fun hm => hsn ((hold.1 hm).2 ▸ hp ▸ rfl)
      simp [hnot]
    · exact hold
  | share | dropRight | giveUp => exact hold
  | _ =>
    simpa [Sys.notifyPu, Sys.notifyCu, Sys.fork, closed_pu, closed_deviceMap, update_field PuProxy.ref,
      update_field PuProxy.sn] using hold

/-! ### What a move does to a client -/

theorem viewers_move (hb : Balanced H s) (h : Move law gain loss H s H' s') (hc : c ∈ (s'.pu p).viewers) :
    c ∈ (s.pu p).viewers ∨ c < s.cus ∧ (s.cu c).puProxy = some p := by
  cases h with
  | newPu sn hsn =>
    obtain rfl | hp := eq_or_ne p s.pus
    · simp at hc
    · exact .inl (by simpa [hp] using hc)
  | @enter X _ q d v h0 hv hpu =>
    obtain rfl | hp := eq_or_ne p q
    · simp only [Sys.modPu_pu, update_self, List.mem_append, List.mem_singleton] at hc
      obtain hc | rfl := hc
      · exact .inl hc
      · exact .inr ⟨hb.born (.cu c) (by simp), hpu⟩
    · exact .inl (by simpa [hp] using hc)
  | @exit _ _ q d v hq hd hv =>
    obtain rfl | hp := eq_or_ne p q
    · simp only [Sys.modPu_pu, update_self] at hc
      exact .inl (List.mem_of_mem_erase hc)
    · exact .inl (by simpa [hp] using hc)
  | share | dropRight | dropSender | giveUp | dropClosing => exact .inl hc
  | _ =>
    exact .inl (by
      simpa [Sys.notifyPu, Sys.notifyCu, Sys.fork, Sys.addPu, closed_pu, update_field PuProxy.viewers] using hc)

theorem puProxy_move (h : Move law gain loss H s H' s') (hc : c < s.cus) :
    (s'.cu c).puProxy = (s.cu c).puProxy ∨ (s'.cu c).puProxy = none := by
  cases h with
  | newCu => exact .inl (by simp [ne_of_lt hc])
  | @takeProxy _ _ d p hp =>
    obtain rfl | hd := eq_or_ne c d
    · exact .inr (by simp)
    · exact .inl (by simp [hd])
  | _ =>
    exact .inl (by
      simp [Sys.notifyPu, Sys.notifyCu, Sys.fork, Sys.addPu, closed_cu, update_field CuProxy.puProxy])

/-- What a client has used up of its life: its socket, and its device. -/
def spare (o : CuProxy) : ℕ := o.puProxy.elim 1 (fun _ => 0) + o.valid.toNat

theorem spare_move (h : Move law gain loss H s H' s') (hc : c < s.cus) :
    spare (s'.cu c) + gain.count (.woken c) ≤ spare (s.cu c) + loss.count (.woken c) := by
  cases h with
  | newCu => simp [ne_of_lt hc]
  | @closeQuiet _ _ d hvalid _ _ _ =>
    obtain rfl | hd := eq_or_ne c d
    · simp [closed_cu, spare, hvalid]
    · simp [closed_cu, hd]
  | @closeParked _ _ d m hvalid _ _ _ =>
    obtain rfl | hd := eq_or_ne c d
    · simp [closed_cu, spare, hvalid]
    · simp [closed_cu, hd]
  | @takeProxy _ _ d p hp =>
    obtain rfl | hd := eq_or_ne c d
    · simp [spare, hp, add_comm]
    · simp [hd]
  | _ =>
    simp [Sys.notifyPu, Sys.notifyCu, Sys.fork, Sys.addPu, spare, update_field CuProxy.puProxy,
      update_field CuProxy.valid]

theorem wrap_move (h : Move law gain loss H s H' s') (c : CuPtr) :
    (s'.cu c).videoMsgWrap = (s.cu c).videoMsgWrap ∨ (s'.cu c).videoMsgWrap = none ∨
      ∃ m, (s'.cu c).videoMsgWrap = some m ∧ m.maker = .client c ∧ .waiter m ∈ gain := by
  cases h with
  | newCu =>
    obtain rfl | hc := eq_or_ne c s.cus
    · exact .inr (.inl (by simp))
    · exact .inl (by simp [hc])
  | @closeQuiet _ _ d _ _ _ _ =>
    obtain rfl | hd := eq_or_ne c d
    · exact .inr (.inl (by simp [closed_cu]))
    · exact .inl (by simp [closed_cu, hd])
  | @closeParked _ _ d m _ _ _ _ =>
    obtain rfl | hd := eq_or_ne c d
    · exact .inr (.inl (by simp [closed_cu]))
    · exact .inl (by simp [closed_cu, hd])
  | @ask _ _ d m hmaker _ _ =>
    obtain rfl | hd := eq_or_ne c d
    · exact .inr (.inr ⟨m, by simp [Sys.fork], hmaker, by simp⟩)
    · exact .inl (by simp [Sys.fork, hd])
  | _ =>
    exact .inl (by simp [Sys.notifyPu, Sys.notifyCu, Sys.addPu, update_field CuProxy.videoMsgWrap])

/-- A coroutine stops to wait when the client it belongs to forgets it. -/
theorem waiter_loss (h : Move law gain loss H s H' s') (hm : .waiter m ∈ loss) :
    ∃ c, (s.cu c).videoMsgWrap = some m ∧ (s'.cu c).videoMsgWrap = none := by
  cases h with
  | @closeParked _ _ c x _ _ hx _ =>
    obtain rfl : m = x := by simpa using hm
    exact ⟨c, hx, by simp [closed_cu]⟩
  | _ => simp at hm

theorem gain_seat (h : Move law gain loss H s H' s') (c : CuPtr) :
    gain.count (.seat c) = gain.count (.entry c) ∧ loss.count (.seat c) = loss.count (.entry c) := by
  cases h <;> simp [Multiset.count_singleton, Multiset.count_cons]

/-- A client is constructed with a valid socket and a device, and with a sender. -/
theorem new_client (h : Move law gain loss H s H' s') (hc : c < s'.cus) :
    c < s.cus ∨ c = s.cus ∧ gain = {.cu c} + {.cuSender c (some [])} ∧ loss = 0 ∧
      ∃ p, s'.cu c = ⟨1, true, [], some p, none, 0⟩ := by
  cases h with
  | @newCu _ _ p =>
    obtain hc | rfl := Nat.lt_succ_iff_lt_or_eq.1 hc
    · exact .inl hc
    · exact .inr ⟨rfl, rfl, rfl, p, update_self ..⟩
  | _ => exact .inl (by simpa [Sys.notifyPu, Sys.notifyCu, Sys.fork, Sys.addPu, closed_cus] using hc)

/-! ### The clients -/

/-- Who has entered a client will remove it; a client whose socket is valid has its device; the coroutine
of the last request has yet to be woken. -/
structure Clients (H : Hand) (s : Sys) : Prop where
  seats : ∀ c, (H + tokens s).count (.seat c) = (H + tokens s).count (.entry c)
  viewers : ∀ p, ∀ c ∈ (s.pu p).viewers, c < s.cus ∧ ((s.cu c).puProxy = some p ∨ (s.cu c).puProxy = none)
  woken : ∀ c < s.cus, (H + tokens s).count (.woken c) + spare (s.cu c) ≤ 1
  wrap : ∀ c m, (s.cu c).videoMsgWrap = some m → .waiter m ∈ H + tokens s ∧ m.maker = .client c

theorem Clients.move (hb : Balanced H s) (hcl : Clients H s) (h : Move law gain loss H s H' s') :
    Clients H' s' := by
  have ht (t : Token) : (H' + tokens s').count t + loss.count t = (H + tokens s).count t + gain.count t := by
    rw [← Multiset.count_add, ← Multiset.count_add, total hb h]
  refine ⟨fun c => ?_, fun p c hc => ?_, fun c hc => ?_, fun c m hm => ?_⟩
  · have h1 := ht (.seat c)
    have h2 := ht (.entry c)
    have h3 := gain_seat h c
    have h4 := hcl.seats c
    omega
  · have hold : c < s.cus ∧ ((s.cu c).puProxy = some p ∨ (s.cu c).puProxy = none) := by
      obtain hc | ⟨hc, hp⟩ := viewers_move hb h hc
      · exact hcl.viewers p c hc
      · exact ⟨hc, .inl hp⟩
    refine ⟨born_mono h (t := .cu c) hold.1, ?_⟩
    obtain h1 | h1 := puProxy_move h hold.1
    · exact h1 ▸ hold.2
    · exact .inr h1
  · have h1 := ht (.woken c)
    obtain hc | ⟨rfl, hgain, hloss, p, hnew⟩ := new_client h hc
    · have h2 := spare_move h hc
      have h3 := hcl.woken c hc
      omega
    · have h2 := not_born hb (t := .woken s.cus) (lt_irrefl _)
      rw [hgain, hloss, h2] at h1
      simp only [Multiset.count_add, Multiset.count_singleton, Multiset.count_zero, reduceCtorEq, if_false]
        at h1
      simp only [hnew, spare, Option.elim_some, Bool.toNat_true, Multiset.count_add]
      omega
  · obtain h1 | h1 | ⟨m', h1, hmaker, hgain⟩ := wrap_move h c
    · obtain ⟨hw, hmaker⟩ := hcl.wrap c m (h1 ▸ hm)
      refine ⟨Multiset.count_pos.1 ?_, hmaker⟩
      have h2 := ht (.waiter m)
      have h3 := Multiset.count_pos.2 hw
      -- the only one that can stop to wait is the one of another client
      have h4 : loss.count (.waiter m) = 0 := Multiset.count_eq_zero.2 fun hloss => by
        obtain ⟨d, hd, hd'⟩ := waiter_loss h hloss
        obtain rfl : c = d := Maker.client.inj (hmaker.symm.trans (hcl.wrap d m hd).2)
        exact Option.some_ne_none m (hm.symm.trans hd')
      omega
    · exact absurd (hm.symm.trans h1) (Option.some_ne_none m)
    · obtain rfl : m = m' := Option.some.inj (hm.symm.trans h1)
      refine ⟨Multiset.count_pos.1 ?_, hmaker⟩
      have h2 := ht (.waiter m)
      have h3 := Multiset.count_pos.2 hgain
      have h4 : loss.count (.waiter m) = 0 := Multiset.count_eq_zero.2 fun hloss => by
        obtain ⟨d, hd, hd'⟩ := waiter_loss h hloss
        obtain rfl : c = d := Maker.client.inj (hmaker.symm.trans (hcl.wrap d m hd).2)
        exact Option.some_ne_none m (hm.symm.trans hd')
      omega

/-! ### Clients without a sender -/

theorem cuQueue_move (h : Move law gain loss H s H' s') (c : CuPtr) :
    (s'.cu c).queue = (s.cu c).queue ∨ (s'.cu c).queue = [] ∨
      ∃ m, (s'.cu c).queue = (s.cu c).queue ++ [m] ∧ (s.cu c).valid ∧ (s.cu c).ref ≠ 0 ∧
        (∀ p, m.maker ≠ .device p) ∧ .closing c ∉ H := by
  cases h with
  | newCu =>
    obtain rfl | hc := eq_or_ne c s.cus
    · exact .inr (.inl (by simp))
    · exact .inl (by simp [hc])
  | @pushCu _ _ d m hvalid h0 hmaker hwhole hclosing =>
    obtain rfl | hd := eq_or_ne c d
    · exact .inr (.inr ⟨m, by simp [Sys.notifyCu], hvalid, h0, hmaker, fun hc => hclosing (by simpa using hc)⟩)
    · exact .inl (by simp [Sys.notifyCu, hd])
  | @deleteCu _ _ d _ _ | @backupCu _ _ d _ | @clearCu _ _ d _ _ =>
    obtain rfl | hd := eq_or_ne c d
    · exact .inr (.inl (by simp))
    · exact .inl (by simp [hd])
  | _ =>
    exact .inl (by
      simp [Sys.notifyPu, Sys.fork, Sys.addPu, closed_cu, update_field CuProxy.queue])

theorem valid_move (h : Move law gain loss H s H' s') (hc : c < s.cus) (hv : (s'.cu c).valid) :
    (s.cu c).valid := by
  cases h with
  | newCu => simpa [ne_of_lt hc] using hv
  | @closeQuiet _ _ d _ _ _ _ | @closeParked _ _ d _ _ _ _ _ =>
    obtain rfl | hd := eq_or_ne c d
    · simp [closed_cu] at hv
    · simpa [closed_cu, hd] using hv
  | share | dropRight | dropSender | giveUp | dropClosing => exact hv
  | _ =>
    simpa [Sys.notifyPu, Sys.notifyCu, Sys.fork, Sys.addPu, update_field CuProxy.valid] using hv

/-- The sender of a client ends when the socket is not valid any more. -/
theorem cuSender_loss (h : Move law gain loss H s H' s') (c : CuPtr) :
    loss.countP (Sends c) ≤ gain.countP (Sends c) ∨ .closing c ∈ H ∧ (s.cu c).valid = false ∧ s' = s := by
  cases h with
  | @dropClosing _ _ d hv =>
    obtain rfl | hd := eq_or_ne c d
    · exact .inr ⟨by simp, hv, rfl⟩
    · exact .inl (by simp [countP_sends, Sends, Ne.symm hd])
  | backupCu | giveUp | clearCu | noteWritten =>
    exact .inl (le_of_eq ((countP_sends _).trans (countP_sends _).symm))
  | _ => exact .inl (by simp [countP_sends, Multiset.countP_cons, Sends])

theorem closing_gain (h : Move law gain loss H s H' s') (hc : .closing c ∈ gain) : (s'.cu c).queue = [] := by
  cases h with
  | @clearCu _ _ d _ _ =>
    obtain rfl : c = d := by simpa using hc
    simp
  | _ => simp at hc

/-- No coroutine has that when it does not run, and no object. -/
theorem closing_not_mem : .closing c ∉ tokens s := fun h => by
  obtain ⟨t, -, ht⟩ := held_by_task h nofun nofun nofun nofun
  cases t <;> simp [grants, mem_msgs] at ht

/-- A client whose sender has ended takes no more messages, and has none. -/
structure Senders (H : Hand) (s : Sys) : Prop where
  gone : ∀ c < s.cus, (H + tokens s).countP (Sends c) = 0 → (s.cu c).valid = false ∧ (s.cu c).queue = []
  closing : ∀ c, .closing c ∈ H + tokens s → (s.cu c).queue = []

theorem Senders.move (hb : Balanced H s) (hs : Senders H s) (h : Move law gain loss H s H' s') :
    Senders H' s' := by
  refine ⟨fun c hc h0 => ?_, fun c hc => ?_⟩
  · have h1 := congrArg (Multiset.countP (Sends c)) (total hb h)
    rw [Multiset.countP_add, Multiset.countP_add _ _ gain, h0] at h1
    obtain hc | ⟨rfl, hgain, hloss, -⟩ := new_client h hc
    · obtain h2 | ⟨h2, hv, rfl⟩ := cuSender_loss h c
      · obtain ⟨hv, hq⟩ := hs.gone c hc (by omega)
        refine ⟨Bool.eq_false_iff.2 fun hv' => absurd (valid_move h hc hv') (Bool.eq_false_iff.1 hv), ?_⟩
        obtain h3 | h3 | ⟨m, -, hv', -⟩ := cuQueue_move h c
        · exact h3.trans hq
        · exact h3
        · exact absurd hv' (Bool.eq_false_iff.1 hv)
      · exact ⟨hv, hs.closing c (Multiset.mem_add.2 (.inl h2))⟩
    · rw [hgain, hloss] at h1
      simp [countP_sends, Sends, Multiset.countP_cons] at h1
  · by_cases hg : .closing c ∈ gain
    · exact closing_gain h hg
    · have h1 := congrArg (Multiset.count (.closing c)) (total hb h)
      rw [Multiset.count_add, Multiset.count_add _ _ gain, Multiset.count_eq_zero.2 hg] at h1
      have h2 := Multiset.count_pos.2 hc
      have h3 : .closing c ∈ H + tokens s := Multiset.count_pos.1 (by omega)
      obtain h4 | h4 | ⟨m, -, -, -, -, h4⟩ := cuQueue_move h c
      · exact h4.trans (hs.closing c h3)
      · exact h4
      · exact absurd h3 (by simp [h4, closing_not_mem])

end StNvs.Server.Sessions
