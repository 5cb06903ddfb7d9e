import StNvs.Server.Moves

/-! # Reference counts -/

namespace StNvs.Server.Counts

open StNvs.Lib.Holders StNvs.Server.Model StNvs.Server.References StNvs.Server.Moves Function

/-- Whom a token is about has been constructed. -/
def Born (s : Sys) : Token → Prop
  | .pu p | .opening p | .puSender p => p < s.pus
  | .cu c | .cuSender c _ | .closing c | .woken c | .seat c | .entry c => c < s.cus
  | .msg m | .draft m | .right m | .waiter m => m ∈ s.log.news

/-- The counts are right: everybody who holds a reference has been counted. -/
structure Balanced (H : Hand) (s : Sys) : Prop where
  pu : ∀ p, (s.pu p).ref = (H + tokens s).count (.pu p)
  cu : ∀ c, (s.cu c).ref = (H + tokens s).count (.cu c)
  msg : ∀ m, (s.msg m).ref = (H + tokens s).count (.msg m) + (H + tokens s).count (.draft m)
  draft : ∀ m, (H + tokens s).count (.draft m) = 0 ∨
    (H + tokens s).count (.draft m) = 1 ∧ (H + tokens s).count (.msg m) = 0
  born : ∀ t ∈ H + tokens s, Born s t
  numbered : ∀ m ∈ s.log.news, m.number < s.log.news.length

variable {law : Law} {gain loss H H' : Hand} {s s' : Sys} {p : PuPtr} {c : CuPtr} {m : MsgPtr}

theorem Balanced.pu_lt (h : Balanced H s) (hp : (s.pu p).ref ≠ 0) : p < s.pus := by
  rw [h.pu, Multiset.count_ne_zero] at hp
  exact h.born _ hp

theorem Balanced.cu_lt (h : Balanced H s) (hc : (s.cu c).ref ≠ 0) : c < s.cus := by
  rw [h.cu, Multiset.count_ne_zero] at hc
  exact h.born _ hc

theorem Balanced.mem_news (h : Balanced H s) (hm : (s.msg m).ref ≠ 0) : m ∈ s.log.news := by
  rw [h.msg] at hm
  obtain h0 | h0 : (H + tokens s).count (.msg m) ≠ 0 ∨ (H + tokens s).count (.draft m) ≠ 0 := by omega
  · exact h.born (.msg m) (Multiset.count_ne_zero.1 h0)
  · exact h.born (.draft m) (Multiset.count_ne_zero.1 h0)

theorem Balanced.fresh_not_mem (h : Balanced H s) (k : Maker) : s.fresh k ∉ s.log.news := fun hm =>
  absurd (h.numbered _ hm) (lt_irrefl _)

theorem Balanced.fresh_ref (h : Balanced H s) (k : Maker) : (s.msg (s.fresh k)).ref = 0 := by
  by_contra h0
  exact h.fresh_not_mem k (h.mem_news h0)

/-! ### What is gained and lost -/

theorem tokens_closed_quiet (h : ∀ m, (s.cu c).videoMsgWrap = some m → .park c m ∉ s.conds) :
    tokens (closed s c) = tokens s := by
  unfold closed
  split
  · rw [tokens_notifyCu, tokens_cuValid]
  next m hm =>
    have hnot : .park c m ∉ (s.modCu c fun o => { o with valid := false }).conds := h m hm
    rw [tokens_notifyCu, tokens_cuWrap, Sys.signal, if_neg hnot, tokens_cuValid]

theorem tokens_closed_parked (hm : (s.cu c).videoMsgWrap = some m) (h : .park c m ∈ s.conds) :
    tokens (closed s c) + {.waiter m} = tokens s + {.woken c} := by
  have hs := tokens_signal (s := s.modCu c fun o => { o with valid := false }) (u := .parted c m) h
  rw [tokens_cuValid] at hs
  unfold closed
  simp only [hm]
  rw [tokens_notifyCu, tokens_cuWrap]
  simp only [grants] at hs
  refine add_right_cancel (b := {.cu c} + {.msg m} + {.seat c}) ?_
  calc _ = _ := by abel
    _ = _ := hs
    _ = _ := by abel

/-- An object holds other things than before, and the hand makes up for it. -/
theorem exchange {T T' A B X X' : Multiset Token} (h : T' + A = T + B) (hx : X' + loss + B = X + gain + A) :
    X' + T' + loss = X + T + gain := by
  refine add_right_cancel (b := A + B) ?_
  calc X' + T' + loss + (A + B) = (X' + loss + B) + (T' + A) := by abel
    _ = (X + gain + A) + (T + B) := by rw [h, hx]
    _ = X + T + gain + (A + B) := by abel

/-- **What is held changes by what is gained and lost.** -/
theorem total (hc : Balanced H s) (h : Move law gain loss H s H' s') :
    H' + tokens s' + loss = H + tokens s + gain := by
  cases h with
  | @shuffle _ _ r q i d hperm =>
    have h := held_perm (g := grants) hperm
    simp only [held_append] at h
    have htasks : held grants (Sys.tasks { s with running := r, runq := q, io := i, idle := d }) =
        held grants s.tasks := by
      rw [held_tasks, held_tasks, h]
    simp only [tokens, htasks]
  | @take _ _ t ht =>
    have h : tokens s = tokens { s with running := none } + grants t := by
      simp only [tokens, held_tasks, ht, Option.toList_some, Option.toList_none, held_cons, held_nil]
      abel
    rw [h]
    abel
  | place t k hrun _ _ _ _ =>
    rw [tokens_place hrun]
    abel
  | stop f => rfl
  | noteUse _ => rfl
  | newBuf => rfl
  | free b => rfl
  | newMsg k hdr body _ _ =>
    show _ + tokens s + 0 = _
    abel
  | newDraft c hdr body =>
    show _ + tokens s + 0 = _
    abel
  | share => abel
  | writeDraft f hf => rfl
  | writeDevice f p _ hf _ => rfl
  | addMsg _ =>
    show _ + tokens s + 0 = _
    abel
  | dropMsg _ _ =>
    show _ + tokens s + _ = _
    abel
  | deleteMsg _ _ =>
    show _ + tokens s + _ = _
    abel
  | lose _ =>
    rw [tokens_lose, msgs_cons, msgs_nil]
    abel
  | dropRight | dropSender => abel
  | noteCall method _ => rfl
  | newPu sn _ =>
    rw [tokens_newPu]
    abel
  | @addPu _ _ p hp =>
    rw [tokens_addPu hp]
    abel
  | @dropPu _ _ p h0 h1 =>
    rw [tokens_dropPu h0 h1]
    abel
  | @deletePu _ _ p v h1 hv =>
    have hp : p < s.pus := hc.pu_lt (by rw [h1]; exact Nat.one_ne_zero)
    have h := tokens_modPu (f := fun o => { o with ref := 0, queue := [] }) hp
    simp only [puGrants, videoGrants, hv, h1, msgs_nil, Option.elim_some, if_neg Nat.one_ne_zero, if_pos] at h
    rw [add_tokens_lose, tokens_unregister]
    exact exchange h (by abel)
  | runPu => rw [tokens_valid]
  | closePu => rw [tokens_notifyPu, tokens_valid]
  | @pushPu _ _ p m hvalid hmaker h0 =>
    have h := tokens_modPu (f := fun o => { o with queue := o.queue ++ [m] }) (hc.pu_lt h0)
    simp only [puGrants, videoGrants, msgs_append, msgs_cons, msgs_nil] at h
    rw [tokens_notifyPu]
    exact exchange h (by abel)
  | @backupPu _ _ p h0 =>
    have h := tokens_modPu (f := fun o => { o with queue := [] }) (hc.pu_lt h0)
    simp only [puGrants, videoGrants, msgs_nil] at h
    exact exchange h (by abel)
  | @setVideo _ _ p m hmaker h0 hv hviewers =>
    have h := tokens_modPu (f := fun o => { o with video := some m }) (hc.pu_lt h0)
    simp only [puGrants, videoGrants, hviewers, hv, held_nil, Option.elim_some, Option.elim_none, if_neg h0] at h
    exact exchange h (by abel)
  | serialPu n => rw [tokens_serial]
  | @enter _ _ p c v h0 hv hpu =>
    have h := tokens_modPu (f := fun o => { o with viewers := o.viewers ++ [c] }) (hc.pu_lt h0)
    simp only [puGrants, videoGrants, hv, held_append, held_cons, held_nil, Option.elim_some] at h
    exact exchange h (by abel)
  | @exit _ _ p c v hp hmem hv =>
    have h := tokens_modPu (f := fun o => { o with viewers := o.viewers.erase c }) hp
    simp only [puGrants, videoGrants, hv, Option.elim_some,
      ← held_erase (g := fun c => {Token.cu c} + {Token.entry c} + {Token.msg v}) hmem] at h
    exact exchange h (by abel)
  | @newCu _ _ p =>
    have h := slots_push (g := cuGrants) (f := s.cu) (n := s.cus) (v := ⟨1, true, [], some p, none, 0⟩)
    have hg : cuGrants ⟨1, true, [], some p, none, 0⟩ = {.pu p} := rfl
    rw [hg] at h
    simp only [tokens, Sys.tasks, h]
    abel
  | addCu h0 =>
    rw [tokens_addCu]
    abel
  | dropCu h0 h1 =>
    rw [tokens_dropCu]
    abel
  | @deleteCu _ _ c h1 hqueue =>
    rw [tokens_modCu_same (by simp only [cuGrants, hqueue])]
    abel
  | closeQuiet hvalid _ _ hnot =>
    rw [tokens_closed_quiet hnot]
  | closeParked hvalid _ hm hpark =>
    rw [add_assoc, tokens_closed_parked hm hpark, add_assoc]
  | @pushCu _ _ c m hvalid h0 hmaker _ _ =>
    have h := tokens_modCu (f := fun o => { o with queue := o.queue ++ [m] }) (hc.cu_lt h0)
    have hpush : tokens (s.cuPush c m) = tokens (s.modCu c fun o => { o with queue := o.queue ++ [m] }) := rfl
    simp only [cuGrants, msgs_append, msgs_cons, msgs_nil] at h
    rw [tokens_notifyCu, hpush]
    exact exchange h (by abel)
  | @backupCu _ _ c h0 =>
    have h := tokens_modCu (f := fun o => { o with queue := [] }) (hc.cu_lt h0)
    simp only [cuGrants, msgs_nil] at h
    exact exchange h (by abel)
  | giveUp => abel
  | @clearCu _ _ c h0 _ =>
    have h := tokens_modCu (f := fun o => { o with queue := [] }) (hc.cu_lt h0)
    simp only [cuGrants, msgs_nil] at h
    rw [add_tokens_lose]
    exact exchange h (by abel)
  | dropClosing _ => abel
  | noteWritten frame hframe _ =>
    show _ + tokens s + _ = _
    abel
  | serialCu n => rw [tokens_cuSerial]
  | ask hmaker _ _ =>
    rw [tokens_fork, tokens_cuWrap]
    simp only [grants]
    abel
  | @takeProxy _ _ c p hp =>
    have hlt : c < s.cus :=
      hc.born (.woken c) (Multiset.mem_add.2 (.inl (Multiset.mem_add.2 (.inr (Multiset.mem_singleton_self _)))))
    have h := tokens_modCu (s := s.noteUninit c) (f := fun o => { o with puProxy := none }) hlt
    have hnote : tokens (s.noteUninit c) = tokens s := rfl
    have hcu : (s.noteUninit c).cu c = s.cu c := rfl
    simp only [cuGrants, hnote, hcu, hp, Option.elim_some, Option.elim_none] at h
    exact exchange h (by abel)
  | noteUninit hp =>
    show _ + tokens s + _ = _
    abel

theorem mem_after (hc : Balanced H s) (h : Move law gain loss H s H' s') {t : Token} (ht : t ∈ H' + tokens s') :
    t ∈ gain ∨ t ∈ H + tokens s := by
  have : t ∈ H + tokens s + gain := total hc h ▸ Multiset.mem_add.2 (.inl ht)
  exact (Multiset.mem_add.1 this).symm

theorem mem_before (hc : Balanced H s) (h : Move law gain loss H s H' s') {t : Token} (ht : t ∈ H + tokens s) :
    t ∈ loss ∨ t ∈ H' + tokens s' := by
  have : t ∈ H' + tokens s' + loss := total hc h ▸ Multiset.mem_add.2 (.inl ht)
  exact (Multiset.mem_add.1 this).symm

/-! ### The counts change with what is held -/

/-- A field that the new entry of a table has from the old one. -/
theorem update_field {α β γ : Type} [DecidableEq α] {g : α → β} {i j : α} {v : β} (field : β → γ)
    (h : field v = field (g i)) : field (update g i v j) = field (g j) := by
  obtain rfl | hj := eq_or_ne j i
  · rw [update_self, h]
  · rw [update_of_ne hj]

theorem closed_pu : (closed s c).pu = s.pu := by
  unfold closed
  split <;> simp [Sys.notifyCu, Sys.modCu]

theorem closed_deviceMap : (closed s c).deviceMap = s.deviceMap := by
  unfold closed
  split <;> simp [Sys.notifyCu, Sys.modCu]

theorem closed_pus : (closed s c).pus = s.pus := by
  unfold closed
  split <;> simp [Sys.notifyCu, Sys.modCu]

theorem closed_cus : (closed s c).cus = s.cus := by
  unfold closed
  split <;> simp [Sys.notifyCu, Sys.modCu]

theorem closed_msg : (closed s c).msg = s.msg := by
  unfold closed
  split <;> simp [Sys.notifyCu, Sys.modCu]

theorem closed_log : (closed s c).log = s.log := by
  unfold closed
  split <;> simp [Sys.notifyCu, Sys.modCu]

theorem closed_cu :
    (closed s c).cu = update s.cu c { s.cu c with valid := false, videoMsgWrap := none } := by
  unfold closed
  split
  next h => simp [Sys.notifyCu, Sys.modCu, ← h]
  next => simp [Sys.notifyCu, Sys.modCu]

theorem pu_ref (hc : Balanced H s) (h : Move law gain loss H s H' s') (p : PuPtr) :
    (s'.pu p).ref + loss.count (.pu p) = (s.pu p).ref + gain.count (.pu p) := by
  cases h with
  | newPu sn hsn =>
    have h0 : (s.pu s.pus).ref = 0 := by
      by_contra h
      exact absurd (hc.pu_lt h) (lt_irrefl _)
    simp only [Sys.newPu, Multiset.count_zero, Multiset.count_add, Multiset.count_singleton, update_apply]
    split_ifs <;> simp_all
  | addPu h0 =>
    simp only [Sys.addPu, Sys.modPu, update_apply, Multiset.count_singleton, Multiset.count_zero]
    split_ifs <;> simp_all
  | dropPu h0 h1 =>
    simp only [Sys.modPu, update_apply, Multiset.count_singleton, Multiset.count_zero]
    split_ifs <;> simp_all
    omega
  | deletePu h1 hv =>
    simp only [Sys.lose, Sys.unregister, Sys.modPu, update_apply, Multiset.count_singleton, Multiset.count_zero]
    split_ifs <;> simp_all
  | _ => simp [Sys.notifyPu, Sys.notifyCu, Sys.fork, closed_pu, update_field PuProxy.ref]

theorem cu_ref (hc : Balanced H s) (h : Move law gain loss H s H' s') (c : CuPtr) :
    (s'.cu c).ref + loss.count (.cu c) = (s.cu c).ref + gain.count (.cu c) := by
  cases h with
  | newCu =>
    have h0 : (s.cu s.cus).ref = 0 := by
      by_contra h
      exact absurd (hc.cu_lt h) (lt_irrefl _)
    simp only [Multiset.count_zero, Multiset.count_add, Multiset.count_singleton, update_apply]
    split_ifs <;> simp_all
  | addCu h0 =>
    simp only [Sys.modCu, update_apply, Multiset.count_singleton, Multiset.count_zero]
    split_ifs <;> simp_all
  | dropCu h0 h1 =>
    simp only [Sys.modCu, update_apply, Multiset.count_singleton, Multiset.count_zero]
    split_ifs <;> simp_all
    omega
  | deleteCu h1 hqueue =>
    simp only [Sys.modCu, update_apply, Multiset.count_singleton, Multiset.count_zero]
    split_ifs <;> simp_all
  | _ => simp [Sys.notifyPu, Sys.notifyCu, Sys.fork, Sys.addPu, closed_cu, update_field CuProxy.ref]

theorem msg_ref (hc : Balanced H s) (h : Move law gain loss H s H' s') (m : MsgPtr) :
    (s'.msg m).ref + (loss.count (.msg m) + loss.count (.draft m)) =
      (s.msg m).ref + (gain.count (.msg m) + gain.count (.draft m)) := by
  cases h with
  | newMsg k hdr body hk hwhole =>
    have h0 := hc.fresh_ref k
    simp only [Sys.newMsg, update_apply, Multiset.count_singleton, Multiset.count_zero]
    split_ifs <;> simp_all
  | newDraft c hdr body =>
    have h0 := hc.fresh_ref (.client c)
    simp only [Sys.newMsg, update_apply, Multiset.count_singleton, Multiset.count_zero, Multiset.count_add]
    split_ifs <;> simp_all
  | writeDraft f hf => simp [Sys.modMsg, update_field Msg.ref, hf]
  | writeDevice f p hp hf _ => simp [Sys.modMsg, update_field Msg.ref, hf]
  | addMsg hm =>
    simp only [Sys.modMsg, update_apply, Multiset.count_singleton, Multiset.count_zero]
    split_ifs <;> simp_all
  | dropMsg h0 h1 =>
    simp only [Sys.modMsg, update_apply, Multiset.count_singleton, Multiset.count_zero]
    split_ifs <;> simp_all
    omega
  | deleteMsg h1 _ =>
    simp only [Sys.deleteMsg, Sys.free, Sys.modMsg, update_apply, Multiset.count_singleton, Multiset.count_zero]
    split_ifs <;> simp_all
  | _ => simp [Sys.notifyPu, Sys.notifyCu, Sys.fork, Sys.addPu, closed_msg, Multiset.count_singleton]

theorem cus_le (h : Move law gain loss H s H' s') : s.cus ≤ s'.cus := by
  cases h <;> simp [Sys.notifyPu, Sys.notifyCu, Sys.fork, Sys.addPu, closed_cus]

theorem born_mono (h : Move law gain loss H s H' s') {t : Token} (ht : Born s t) : Born s' t := by
  have hpus : s.pus ≤ s'.pus := by
    cases h <;> simp [Sys.notifyPu, Sys.notifyCu, Sys.fork, Sys.addPu, closed_pus]
  have hcus := cus_le h
  have hnews : s.log.news ⊆ s'.log.news := by
    cases h <;> simp [Sys.notifyPu, Sys.notifyCu, Sys.fork, Sys.addPu, closed_log]
  cases t with
  | pu | opening | puSender => exact lt_of_lt_of_le ht hpus
  | cu | cuSender | closing | woken | seat | entry => exact lt_of_lt_of_le ht hcus
  | msg | draft | right | waiter => exact hnews ht

theorem born_gain (hc : Balanced H s) (h : Move law gain loss H s H' s') {t : Token} (ht : t ∈ gain) :
    Born s' t := by
  -- what was in the hand, with something else, has been constructed
  have hand {X : Hand} {x : Token} (hX : H = X + {x}) : Born s x :=
    hc.born x (by simp [hX])
  cases h with
  | newMsg k hdr body hk hwhole =>
    obtain rfl := Multiset.mem_singleton.1 ht
    exact List.mem_cons_self
  | newDraft c hdr body =>
    rcases Multiset.mem_add.1 ht with ht | ht <;> obtain rfl := Multiset.mem_singleton.1 ht <;>
      exact List.mem_cons_self
  | share =>
    obtain rfl := Multiset.mem_singleton.1 ht
    exact hand (x := .draft _) rfl
  | addMsg hm =>
    obtain rfl := Multiset.mem_singleton.1 ht
    exact hc.born _ hm
  | newPu sn hsn =>
    simp only [Multiset.mem_add, Multiset.mem_singleton] at ht
    obtain (rfl | rfl) | rfl := ht <;> exact Nat.lt_succ_self _
  | addPu h0 =>
    obtain rfl := Multiset.mem_singleton.1 ht
    exact hc.pu_lt h0
  | @enter X _ p c v h0 hv hp =>
    have hlt : c < s.cus := hc.born (.cu c) (by simp)
    simp only [Multiset.mem_add, Multiset.mem_singleton] at ht
    obtain rfl | rfl := ht <;> exact hlt
  | newCu =>
    simp only [Multiset.mem_add, Multiset.mem_singleton] at ht
    obtain rfl | rfl := ht <;> exact Nat.lt_succ_self _
  | addCu h0 =>
    obtain rfl := Multiset.mem_singleton.1 ht
    exact hc.cu_lt h0
  | @closeParked _ _ c m hvalid _ hm hpark =>
    obtain rfl := Multiset.mem_singleton.1 ht
    have hcu : .cu c ∈ tokens s := mem_tokens.2 <| .inl
      ⟨.park c m, List.mem_append.2 (.inr hpark), by simp [grants]⟩
    show c < (closed s c).cus
    rw [closed_cus]
    exact hc.born (.cu c) (Multiset.mem_add.2 (.inr hcu))
  | backupCu h0 =>
    obtain rfl := Multiset.mem_singleton.1 ht
    exact hc.cu_lt h0
  | @giveUp _ _ c b =>
    obtain rfl := Multiset.mem_singleton.1 ht
    exact hand (x := .cuSender c b) rfl
  | @clearCu _ _ c h0 hlaw =>
    obtain rfl := Multiset.mem_singleton.1 ht
    exact hc.cu_lt h0
  | @noteWritten _ _ c m b frame hframe _ =>
    obtain rfl := Multiset.mem_singleton.1 ht
    exact hand (x := .cuSender c (some (m :: b))) rfl
  | @ask _ _ c m hmaker hlaw hlt =>
    obtain rfl := Multiset.mem_singleton.1 ht
    exact hand (x := .draft m) rfl
  | _ => exact absurd ht (Multiset.notMem_zero _)

theorem number_lt (hc : Balanced H s) (h : Move law gain loss H s H' s') {m : MsgPtr} (hm : m ∈ s'.log.news) :
    m.number < s'.log.news.length := by
  cases h with
  | newMsg k hdr body hk hwhole =>
    rcases List.mem_cons.1 hm with rfl | hm
    · exact Nat.lt_succ_self _
    · exact Nat.lt_succ_of_lt (hc.numbered m hm)
  | newDraft c hdr body =>
    rcases List.mem_cons.1 hm with rfl | hm
    · exact Nat.lt_succ_self _
    · exact Nat.lt_succ_of_lt (hc.numbered m hm)
  | place =>
    rw [place_log] at hm ⊢
    exact hc.numbered m hm
  | closePu | pushPu | pushCu =>
    simp only [Sys.notifyPu, Sys.notifyCu, signal_log] at hm ⊢
    exact hc.numbered m hm
  | closeQuiet | closeParked =>
    rw [closed_log] at hm ⊢
    exact hc.numbered m hm
  | _ => exact hc.numbered m hm

/-- The only reference to a message stays the only one. -/
theorem draft_alone (hc : Balanced H s) (h : Move law gain loss H s H' s') (m : MsgPtr) :
    (H' + tokens s').count (.draft m) = 0 ∨
      (H' + tokens s').count (.draft m) = 1 ∧ (H' + tokens s').count (.msg m) = 0 := by
  have hd := congrArg (Multiset.count (.draft m)) (total hc h)
  have hm := congrArg (Multiset.count (.msg m)) (total hc h)
  have hold := hc.draft m
  have hfresh (k : Maker) (h : s.fresh k = m) :
      (H + tokens s).count (.msg m) = 0 ∧ (H + tokens s).count (.draft m) = 0 := by
    have := hc.msg m
    rw [← h, hc.fresh_ref k] at this
    rw [← h]
    omega
  rw [Multiset.count_add, Multiset.count_add _ _ gain] at hd hm
  cases h with
  | newMsg k hdr body hk hwhole =>
    simp only [Multiset.count_singleton, Multiset.count_zero, Token.msg.injEq, reduceCtorEq, if_false] at hd hm
    split_ifs at hm with he
    · have := hfresh k he.symm
      omega
    · omega
  | newDraft c hdr body =>
    have hgain (x : Token) : Multiset.count x ({.right (s.fresh (.client c))} + {.draft (s.fresh (.client c))}) =
        (if x = .right (s.fresh (.client c)) then 1 else 0) + if x = .draft (s.fresh (.client c)) then 1 else 0 := by
      rw [Multiset.count_add, Multiset.count_singleton, Multiset.count_singleton]
    simp only [hgain, Multiset.count_zero, Token.draft.injEq, reduceCtorEq, if_false] at hd hm
    split_ifs at hd with he
    · have := hfresh (.client c) he.symm
      omega
    · omega
  | @share X _ m' =>
    simp only [Multiset.count_singleton, Token.msg.injEq, Token.draft.injEq, reduceCtorEq, if_false] at hd hm
    split_ifs at hd hm with he <;> omega
  | @addMsg _ _ m' hmem =>
    have hpos := Multiset.count_pos.2 hmem
    simp only [Multiset.count_singleton, Multiset.count_zero, Token.msg.injEq, reduceCtorEq, if_false] at hd hm
    split_ifs at hm with he
    · rw [← he] at hpos
      omega
    · omega
  | _ =>
    simp only [Multiset.count_singleton, Multiset.count_zero, Multiset.count_add, reduceCtorEq, if_false]
      at hd hm hold ⊢
    omega

/-- **The counts stay right.** -/
theorem Balanced.move (hc : Balanced H s) (h : Move law gain loss H s H' s') : Balanced H' s' := by
  have htotal := fun t => congrArg (Multiset.count t) (total hc h)
  simp only [Multiset.count_add] at htotal
  refine ⟨fun p => ?_, fun c => ?_, fun m => ?_, fun m => ?_, fun t ht => ?_, fun m hm => number_lt hc h hm⟩
  · have h1 := pu_ref hc h p
    have h2 := htotal (.pu p)
    have h3 := hc.pu p
    rw [Multiset.count_add] at h3 ⊢
    omega
  · have h1 := cu_ref hc h c
    have h2 := htotal (.cu c)
    have h3 := hc.cu c
    rw [Multiset.count_add] at h3 ⊢
    omega
  · have h1 := msg_ref hc h m
    have h2 := htotal (.msg m)
    have h3 := htotal (.draft m)
    have h4 := hc.msg m
    simp only [Multiset.count_add] at h4 ⊢
    omega
  · exact draft_alone hc h m
  · by_cases hg : t ∈ gain
    · exact born_gain hc h hg
    · exact born_mono h (hc.born t ((mem_after hc h ht).resolve_left hg))

end StNvs.Server.Counts
