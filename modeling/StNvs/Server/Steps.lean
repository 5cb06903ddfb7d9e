import StNvs.Server.Messages

/-! # The steps are made of moves -/

namespace StNvs.Server.Steps

open StNvs.Lib.Holders StNvs.Lib.Runs StNvs.Server.Proto StNvs.Server.Model StNvs.Server.References
open StNvs.Server.Moves StNvs.Server.Counts StNvs.Server.Rights StNvs.Server.Sessions StNvs.Server.Messages
open Function Token

variable {law : Law} {gain loss H H₁ H' : Hand} {s s₁ s' : Sys} {p : PuPtr} {c : CuPtr} {m : MsgPtr}
variable {t : Task} {o : Outcome} {f : Sys → Outcome} {Q R : Sys → Prop} {l : List MsgPtr}

/-! ### Parts of a step -/

/-- A part of a step that begins with `H` in the hand is made of moves; it ends with `H'` in the hand, in a
state of which `Q` holds, or it ends the run. -/
def Leads (law : Law) (H : Hand) (s : Sys) (H' : Hand) (Q : Sys → Prop) : Outcome → Prop
  | .ok s' => Path law H s H' s' ∧ Q s'
  | .error s' => s'.fault ≠ none ∧ ∃ H'', Path law H s H'' s'

theorem Path.trans {H'' : Hand} {s'' : Sys} (h : Path law H s H' s') (h' : Path law H' s' H'' s'') :
    Path law H s H'' s'' := by
  induction h' with
  | refl => exact h
  | tail _ hm ih => exact .tail ih hm

theorem Leads.path (h : Path law H s H₁ s₁) (ho : Leads law H₁ s₁ H' Q o) : Leads law H s H' Q o := by
  cases o with
  | ok s' => exact ⟨Path.trans h ho.1, ho.2⟩
  | error s' => exact ⟨ho.1, ho.2.imp fun _ h' => Path.trans h h'⟩

/-- A move first. -/
theorem Leads.move (hs : Sound H s) (h : Move law gain loss H s H₁ s₁)
    (ho : Sound H₁ s₁ → Leads law H₁ s₁ H' Q o) : Leads law H s H' Q o :=
  .path (.tail .refl h) (ho (hs.move h))

/-- One part after the other. -/
theorem Leads.bind {X : Hand} (hs : Sound H s) (ho : Leads law H s X Q o)
    (hf : ∀ s₁, Sound X s₁ → Q s₁ → Leads law X s₁ H' R (f s₁)) : Leads law H s H' R (o >>= f) := by
  cases o with
  | ok s₁ => exact .path ho.1 (hf s₁ (hs.path ho.1) ho.2)
  | error s₁ => exact ho

theorem Leads.mono (ho : Leads law H s H' Q o) (h : ∀ s', Q s' → R s') : Leads law H s H' R o := by
  cases o with
  | ok s' => exact ⟨ho.1, h s' ho.2⟩
  | error s' => exact ho

theorem leads_ok (h : Q s) : Leads law H s H Q (.ok s) := ⟨.refl, h⟩

theorem leads_stop (e : Fault) : Leads law H s H' Q (s.stop e) :=
  ⟨Option.some_ne_none e, H, .tail .refl (.stop e)⟩

/-- A coroutine goes on at a point, with what it has there. -/
theorem leads_place {k : Spot} (hs : Sound H s) (hrun : s.running = none) (hf : Fits s t)
    (hw : Waits t ↔ k = .conds) (hcalm : law = .prompt → Calm s t) (hsilent : law = .silent → ¬ Writes t)
    (hH : H = H' + grants t) (hQ : Q (s.place t k)) : Leads law H s H' Q (.ok (s.place t k)) := by
  subst hH
  exact .move hs (.place t k hrun hf hw hcalm hsilent) fun _ => leads_ok hQ

/-- The rest of a step: nothing is left in the hand. -/
abbrev Ends (law : Law) (H : Hand) (s : Sys) (o : Outcome) : Prop := Leads law H s 0 (fun _ => True) o

/-- The points that laws ask about where a coroutine comes to them. -/
def Marked : Task → Prop
  | .puWait _ | .cuWait _ | .park _ _ | .cuWrite _ _ _ _ => True
  | _ => False

theorem not_waits (ht : ¬ Marked t) : ¬ Waits t := by
  cases t <;> first | exact id | exact absurd trivial ht

theorem not_writes (ht : ¬ Marked t) : ¬ Writes t := by
  cases t <;> first | exact id | exact absurd trivial ht

theorem calm_of_not_waits (hw : ¬ Waits t) : Calm s t := by
  cases t <;> first | trivial | exact absurd trivial hw

/-- A coroutine goes on at a point about which no law asks. -/
theorem ends_place {k : Spot} (hs : Sound H s) (hrun : s.running = none) (hf : Fits s t) (ht : ¬ Marked t)
    (hk : k ≠ .conds) (hH : H = grants t) : Ends law H s (.ok (s.place t k)) :=
  leads_place hs hrun hf ⟨fun h => absurd h (not_waits ht), fun h => absurd h hk⟩
    (fun _ => calm_of_not_waits (not_waits ht)) (fun _ => not_writes ht) (by rw [hH, zero_add]) trivial

theorem ends_go (hs : Sound H s) (hrun : s.running = none) (hf : Fits s t) (ht : ¬ Marked t)
    (hH : H = grants t) : Ends law H s (s.go t) :=
  ends_place hs hrun hf ht nofun hH

theorem ends_block (hs : Sound H s) (hrun : s.running = none) (hf : Fits s t) (ht : ¬ Marked t)
    (hH : H = grants t) : Ends law H s (s.block t) :=
  ends_place hs hrun hf ht nofun hH

theorem ends_wait (hs : Sound H s) (hrun : s.running = none) (hf : Fits s t) (hw : Waits t)
    (hcalm : law = .prompt → Calm s t) (hH : H = grants t) : Ends law H s (s.wait t) :=
  leads_place hs hrun hf ⟨fun _ => rfl, fun _ => hw⟩ hcalm (fun _ h => by cases t <;> trivial)
    (by rw [hH, zero_add]) trivial

/-- Another coroutine is created first. -/
theorem leads_fork {X : Hand} (hs : Sound H s) (hrun : s.running = none) (hf : Fits s t) (ht : ¬ Marked t)
    (hH : H = X + grants t) (ho : Sound X (s.fork t) → Leads law X (s.fork t) H' Q o) :
    Leads law H s H' Q o := by
  subst hH
  exact .move hs (.place t .runq hrun hf ⟨fun h => absurd h (not_waits ht), nofun⟩
    (fun _ => calm_of_not_waits (not_waits ht)) fun _ => not_writes ht) ho

/-! ### Messages -/

/-- Only messages and the log have changed. -/
structure Same (s s' : Sys) : Prop where
  pu : s'.pu = s.pu
  cu : s'.cu = s.cu
  running : s'.running = s.running

theorem Same.trans {s'' : Sys} (h : Same s s') (h' : Same s' s'') : Same s s'' :=
  ⟨h'.pu.trans h.pu, h'.cu.trans h.cu, h'.running.trans h.running⟩

theorem msg_ref_ne (hs : Sound H s) (h : msg m ∈ H + tokens s ∨ draft m ∈ H + tokens s) :
    (s.msg m).ref ≠ 0 := by
  rw [hs.balanced.msg]
  obtain h | h := h <;> have := Multiset.count_pos.2 h <;> omega

theorem pu_ref_ne (hs : Sound H s) (h : pu p ∈ H + tokens s) : (s.pu p).ref ≠ 0 := by
  rw [hs.balanced.pu]
  exact Multiset.count_ne_zero.2 h

theorem mem_pu (hs : Sound H s) (h : (s.pu p).ref ≠ 0) : pu p ∈ H + tokens s := by
  rw [hs.balanced.pu] at h
  exact Multiset.count_ne_zero.1 h

theorem touch_leads (hs : Sound H s) (h : msg m ∈ H + tokens s ∨ draft m ∈ H + tokens s) :
    Leads law H s H (fun s' => s' = s.noteUse m) (s.touch m) := by
  unfold Sys.touch
  rw [if_neg (msg_ref_ne hs h)]
  exact .move hs (.noteUse h) fun _ => leads_ok rfl

theorem addMsg_leads (hs : Sound H s) (h : msg m ∈ H + tokens s) :
    Leads law H s (H + {msg m})
      (fun s' => s' = (s.noteUse m).modMsg m fun o => { o with ref := o.ref + 1 }) (s.addMsg m) := by
  refine .bind hs (touch_leads hs (.inl h)) ?_
  rintro _ hs rfl
  exact .move hs (.addMsg h) fun _ => leads_ok rfl

/-- Who gives a reference back has references to the batch that it is to write. -/
def Covers (H : Hand) (m : MsgPtr) : Prop := ∀ c b, cuSender c (some b) ∈ H → m ∈ b → msg m ∈ H

theorem releaseMsg_leads (X : Hand) (hs : Sound H s) (hH : H = X + {msg m}) (hX : Covers X m) :
    Leads law H s X (Same s) (s.releaseMsg m) := by
  subst hH
  refine .bind hs (touch_leads hs (.inl (by simp))) ?_
  rintro _ hs rfl
  split
  next h1 =>
    refine .move hs (.deleteMsg h1 fun c b hb hm => ?_) fun _ => leads_ok ⟨rfl, rfl, rfl⟩
    have h2 := hs.balanced.msg m
    have h3 := Multiset.count_pos.2 (hX c b hb hm)
    rw [h1, Multiset.count_add, Multiset.count_add, Multiset.count_singleton_self] at h2
    omega
  next h1 =>
    exact .move hs (.dropMsg (msg_ref_ne hs (.inl (by simp))) h1) fun _ => leads_ok ⟨rfl, rfl, rfl⟩

theorem Covers.add_msgs (hX : Covers H m) : Covers (H + msgs l) m := fun c b hb hm => by
  have hb : cuSender c (some b) ∈ H := by simpa [mem_msgs] using hb
  exact Multiset.mem_add.2 (.inl (hX c b hb hm))

theorem releaseAll_leads (X : Hand) (hs : Sound H s) (hH : H = X + msgs l) (hX : ∀ m ∈ l, Covers X m) :
    Leads law H s X (Same s) (s.releaseAll l) := by
  induction l generalizing H s with
  | nil =>
    rw [msgs_nil, add_zero] at hH
    subst hH
    exact leads_ok ⟨rfl, rfl, rfl⟩
  | cons m l ih =>
    rw [Sys.releaseAll, List.foldlM_cons]
    refine .bind hs (releaseMsg_leads (X + msgs l) hs (by rw [hH, msgs_cons]; abel)
      (hX m List.mem_cons_self).add_msgs) fun s₁ hs₁ h₁ => ?_
    exact (ih hs₁ rfl fun x hx => hX x (List.mem_cons_of_mem m hx)).mono fun s₂ h₂ => h₁.trans h₂

/-! ### Devices -/

theorem callPu_leads (method : Method) (hs : Sound H s)
    (h : pu p ∈ H + tokens s ∨ (law = .kept → (s.pu p).ref ≠ 0)) :
    Leads law H s H (fun s' => s' = s.noteCall p method ∧ (s.pu p).ref ≠ 0) (s.callPu p method) := by
  unfold Sys.callPu
  split
  next => exact .move hs (.noteCall method h) fun _ => leads_stop .dead
  next h0 => exact .move hs (.noteCall method h) fun _ => leads_ok ⟨rfl, h0⟩

/-- Nobody has a batch. -/
def Free (H : Hand) : Prop := ∀ c b, cuSender c (some b) ∉ H

theorem Free.covers (h : Free H) : Covers H m := fun c b hb _ => absurd hb (h c b)

theorem releasePu_leads (X : Hand) (hs : Sound H s) (hH : H = X + {pu p}) (hX : Free X) :
    Leads law H s X (fun s' => s'.running = s.running) (s.releasePu p) := by
  subst hH
  unfold Sys.releasePu
  split
  next => exact leads_stop .assertion
  next h0 =>
    split
    next h1 =>
      unfold Sys.deletePu
      cases hv : (s.pu p).video with
      | none => exact leads_stop .null
      | some v =>
        refine .move hs (.deletePu h1 hv) fun hs => ?_
        refine .bind hs (releaseMsg_leads (X + msgs (s.pu p).queue) hs rfl hX.covers.add_msgs) fun s₁ hs₁ h₁ => ?_
        refine (releaseAll_leads X hs₁ rfl fun _ _ => hX.covers).mono fun s₂ h₂ => ?_
        exact h₂.running.trans h₁.running
    next h1 => exact .move hs (.dropPu h0 h1) fun _ => leads_ok rfl

theorem puSendMsg_leads (X : Hand) (hs : Sound H s) (hH : H = X + {msg m}) (hm : m.maker = .device p)
    (hp : (s.pu p).ref ≠ 0) : Leads law H s X (fun s' => s'.running = s.running) (s.puSendMsg p m) := by
  subst hH
  unfold Sys.puSendMsg
  split
  next hvalid =>
    refine .bind hs (addMsg_leads hs (by simp)) ?_
    rintro _ hs rfl
    exact .move hs (.pushPu hvalid hm hp) fun _ => leads_ok signal_running
  next =>
    refine .move hs (.lose fun _ hframe => ?_) fun _ => leads_ok rfl
    obtain ⟨q, hq⟩ := hframe
    exact Maker.noConfusion (hm.symm.trans hq)

theorem puClose_ends (hs : Sound H s) (hH : H = {pu p}) :
    Ends law H s (s.puClose p) := by
  have hX : Free 0 := fun c b h => Multiset.notMem_zero _ h
  unfold Sys.puClose
  split
  next =>
    exact .move hs .closePu fun hs => (releasePu_leads 0 hs (by rw [hH, zero_add]) hX).mono fun _ _ => trivial
  next => exact (releasePu_leads 0 hs (by rw [hH, zero_add]) hX).mono fun _ _ => trivial

/-! ### Clients -/

theorem cu_ref_ne (hs : Sound H s) (h : cu c ∈ H + tokens s) : (s.cu c).ref ≠ 0 := by
  rw [hs.balanced.cu]
  exact Multiset.count_ne_zero.2 h

/-- The coroutine of a sender has a reference to its object. -/
theorem cu_of_sender {x : Token} (hx : x ∈ tokens s) (hsends : Sends c x) : cu c ∈ tokens s := by
  cases x with
  | cuSender d b =>
    obtain rfl : d = c := hsends
    obtain ⟨t, ht, hg⟩ | ⟨p, -, hg⟩ | ⟨e, -, hg⟩ | hg := mem_tokens.1 hx
    · refine mem_tokens.2 (.inl ⟨t, ht, ?_⟩)
      cases t <;> simp [grants, mem_msgs] at hg ⊢ <;> exact hg.1
    · simp only [puGrants, videoGrants, Multiset.mem_add, mem_msgs, mem_held] at hg
      cases hv : (s.pu p).video <;> simp [hv] at hg
      split at hg <;> simp at hg
    · cases hp : (s.cu e).puProxy <;> simp [cuGrants, mem_msgs, hp] at hg
    · simp [mem_msgs] at hg
  | closing d => exact absurd hx closing_not_mem
  | _ => exact absurd hsends id

/-- Who has the last reference to a client, and is not its sender, finds its queue empty. -/
theorem queue_nil (hs : Sound (H + {cu c}) s) (h1 : (s.cu c).ref = 1) (hH : ∀ x ∈ H, ¬ Sends c x) :
    (s.cu c).queue = [] := by
  have h2 := hs.balanced.cu c
  rw [h1, Multiset.count_add, Multiset.count_add, Multiset.count_singleton_self] at h2
  refine (hs.senders.gone c (hs.balanced.cu_lt (by omega)) (Multiset.countP_eq_zero.2 fun x hx hsends => ?_)).2
  obtain (hx | hx) | hx : (x ∈ H ∨ x = cu c) ∨ x ∈ tokens s := by simpa using hx
  · exact hH x hx hsends
  · exact (hx ▸ hsends : Sends c (cu c))
  · have h3 := Multiset.count_pos.2 (cu_of_sender hx hsends)
    omega

theorem releaseCu_leads (X : Hand) (hs : Sound H s) (hH : H = X + {cu c}) (hX : ∀ x ∈ X, ¬ Sends c x) :
    Leads law H s X (fun s' => s'.pu = s.pu ∧ s'.pus = s.pus ∧ s'.running = s.running) (s.releaseCu c) := by
  subst hH
  unfold Sys.releaseCu
  split
  next => exact leads_stop .assertion
  next h0 =>
    split
    next h1 =>
      have hq := queue_nil hs h1 hX
      unfold Sys.deleteCu
      rw [hq]
      exact .move hs (.deleteCu h1 hq) fun _ => leads_ok ⟨rfl, rfl, rfl⟩
    next h1 => exact .move hs (.dropCu h0 h1) fun _ => leads_ok ⟨rfl, rfl, rfl⟩

theorem addCu_leads (hs : Sound H s) :
    Leads law H s (H + {cu c})
      (fun s' => s' = (s.modCu c fun o => { o with ref := o.ref + 1 }) ∧ (s.cu c).ref ≠ 0) (s.addCu c) := by
  unfold Sys.addCu
  split
  next => exact leads_stop .dead
  next h0 => exact .move hs (.addCu h0) fun _ => leads_ok ⟨rfl, h0⟩

/-- A message is queued for a client, or lost; there is still a reference to it. -/
theorem cuSendMsg_leads (X : Hand) (hs : Sound H s) (hH : H = X + {msg m}) (hm : ∀ p, m.maker ≠ .device p)
    (hwhole : Whole (s.msg m)) (hX : closing c ∉ X) (hlaw : law = .lossless → IsFrame m → (s.cu c).valid) :
    Leads law H s X (fun s' => s'.running = s.running ∧ msg m ∈ tokens s') (s.cuSendMsg c m) := by
  subst hH
  unfold Sys.cuSendMsg
  split
  next => exact leads_stop .dead
  next h0 =>
    have hc := hs.balanced.cu_lt h0
    split
    next hvalid =>
      refine .bind hs (addMsg_leads hs (by simp)) ?_
      rintro _ hs rfl
      refine .move hs (.pushCu hvalid h0 hm ?_ hX) fun _ => leads_ok ⟨signal_running, ?_⟩
      · simpa [Whole] using hwhole
      · refine mem_tokens.2 (.inr (.inr (.inl ⟨c, by simpa [Sys.notifyCu] using hc, ?_⟩)))
        simp [Sys.notifyCu, cuGrants]
    next hvalid =>
      refine .move hs (.lose fun hl hframe => hvalid (hlaw hl hframe)) fun _ => leads_ok ⟨rfl, ?_⟩
      exact mem_tokens.2 (.inr (.inr (.inr (by simp))))

/-- `check_net` says whether the device of the client is there, and its socket valid. -/
theorem checkNet_leads {k : Bool → Sys → Outcome} (hs : Sound H s) (hc : cu c ∈ H + tokens s)
    (hk : ∀ b s', Sound H s' → Same s s' → s'.msg = s.msg →
      (b = true → ∃ p, (s.cu c).puProxy = some p ∧ (s.pu p).valid) → Leads law H s' H' Q (k b s')) :
    Leads law H s H' Q (s.checkNet c k) := by
  unfold Sys.checkNet
  cases hp : (s.cu c).puProxy with
  | none => exact hk false s hs ⟨rfl, rfl, rfl⟩ rfl nofun
  | some p =>
    have hmem : pu p ∈ H + tokens s := Multiset.mem_add.2 (.inr (mem_tokens.2 (.inr (.inr (.inl
      ⟨c, hs.balanced.born _ hc, by simp [cuGrants, hp]⟩)))))
    refine .bind hs (callPu_leads .isValid hs (.inl hmem)) ?_
    rintro _ hs ⟨rfl, -⟩
    exact hk _ _ hs ⟨rfl, rfl, rfl⟩ rfl fun hv => ⟨p, hp, hv⟩

/-- Who waits for the condition of a message is a coroutine of the client that has sent it. -/
theorem waiter_tokens (hs : Sound H s) (h : waiter m ∈ tokens s) :
    ∃ c, m.maker = .client c ∧ (.openReal c m ∈ s.tasks ∨ .park c m ∈ s.conds) := by
  obtain ⟨t, ht, hg⟩ | ⟨p, -, hg⟩ | ⟨e, -, hg⟩ | hg := mem_tokens.1 h
  · have hf := hs.fit.fits t ht
    cases t with
    | openReal c x =>
      obtain rfl : m = x := by simpa [grants] using hg
      exact ⟨c, hf, .inl ht⟩
    | park c x =>
      obtain rfl : m = x := by simpa [grants] using hg
      exact ⟨c, hf, .inr ((mem_tasks.1 ht).resolve_left fun h => hs.fit.awake _ h trivial)⟩
    | _ => simp [grants, mem_msgs] at hg
  · simp only [puGrants, videoGrants, Multiset.mem_add, mem_msgs, mem_held] at hg
    cases hv : (s.pu p).video <;> simp [hv] at hg
    split at hg <;> simp at hg
  · cases hp : (s.cu e).puProxy <;> simp [cuGrants, mem_msgs, hp] at hg
  · simp [mem_msgs] at hg

/-- The end of `close`; a sender gives up what is left of its right. -/
theorem release_closed {Y : Hand} (hs : Sound H s) (hH : H = {cu c} + Y) (hY : Y = 0 ∨ Y = {closing c})
    (hv : (s.cu c).valid = false) : Ends law H s (s.releaseCu c) := by
  have hX : ∀ x ∈ (0 : Hand), ¬ Sends c x := fun x hx => absurd hx (Multiset.notMem_zero x)
  obtain rfl | rfl := hY
  · exact (releaseCu_leads 0 hs (by rw [hH, add_comm]) hX).mono fun _ _ => trivial
  · subst hH
    exact .move hs (.dropClosing hv) fun hs => (releaseCu_leads 0 hs (zero_add _).symm hX).mono fun _ _ => trivial

theorem cuClose_ends {Y : Hand} (hs : Sound H s) (hH : H = {cu c} + Y) (hY : Y = 0 ∨ Y = {closing c})
    (hparked : law = .parked → (s.cu c).valid → LastParked s c)
    (hearlier : law = .undone → (s.cu c).valid → NoneEarlier s c) :
    Ends law H s (s.cuClose c) := by
  unfold Sys.cuClose
  split
  next hvalid =>
    -- a coroutine that waits or is yet to begin is that of the last request
    have hwait (hlaw : law = .undone) (x : MsgPtr) (hx : x.maker = .client c) (hw : waiter x ∈ H + tokens s) :
        (s.cu c).videoMsgWrap = some x ∧ .park c x ∈ s.conds := by
      have hw : waiter x ∈ tokens s := by
        obtain rfl | rfl := hY <;> simpa [hH] using hw
      obtain ⟨d, hd, ht⟩ := waiter_tokens hs hw
      obtain rfl : c = d := Maker.client.inj (hx.symm.trans hd)
      obtain ht | ht := ht
      · exact absurd rfl (hearlier hlaw hvalid _ ht x).1
      · exact ⟨(hearlier hlaw hvalid _ (mem_tasks.2 (.inr ht)) x).2 rfl, ht⟩
    have hclosed {s' : Sys} : ((closed s' c).cu c).valid = false := by simp [closed_cu]
    cases hwrap : (s.cu c).videoMsgWrap with
    | none =>
      have hstate : closed s c = (s.modCu c fun o => { o with valid := false }).notifyCu c := by
        unfold closed
        simp only [hwrap]
      have hquiet : Ends law H s ((closed s c).releaseCu c) := by
        refine .move hs (.closeQuiet hvalid ?_ (fun hlaw x hx hw => ?_) fun m hm => ?_)
          fun hs => release_closed hs hH hY hclosed
        · rintro rfl
          obtain ⟨m, hm, -⟩ := hparked rfl hvalid
          exact Option.some_ne_none m (hm.symm.trans hwrap)
        · exact Option.some_ne_none x ((hwait hlaw x hx hw).1.symm.trans hwrap)
        · exact absurd (hm.symm.trans hwrap) (Option.some_ne_none m)
      simp only [Sys.modCu_cu, update_self, hwrap]
      rw [hstate] at hquiet
      exact hquiet
    | some m =>
      have hmem : msg m ∈ H + tokens s ∨ draft m ∈ H + tokens s := by
        have hw : waiter m ∈ tokens s := by
          have := (hs.clients.wrap c m hwrap).1
          obtain rfl | rfl := hY <;> simpa [hH] using this
        obtain ⟨d, -, ht⟩ := waiter_tokens hs hw
        obtain ht | ht := ht
        · exact .inr (task_tokens ht (by simp [grants]))
        · exact .inl (task_tokens (mem_tasks.2 (.inr ht)) (by simp [grants]))
      have hstate : closed (s.noteUse m) c = (((((s.modCu c fun o => { o with valid := false }).noteUse m).signal
          (.park c m) (.parted c m)).modCu c fun o => { o with videoMsgWrap := none }).notifyCu c) := by
        unfold closed
        simp only [Sys.noteUse_cu, hwrap]
        rfl
      have hlost : Ends law H s ((closed (s.noteUse m) c).releaseCu c) := by
        refine .move hs (.noteUse hmem) fun hs => ?_
        by_cases hpark : .park c m ∈ s.conds
        · exact .move hs (.closeParked hvalid (fun hlaw x hx hw =>
            Option.some.inj ((hwait hlaw x hx hw).1.symm.trans hwrap)) hwrap hpark)
            fun hs => release_closed hs hH hY hclosed
        · refine .move hs (.closeQuiet hvalid ?_ (fun hlaw x hx hw => ?_) fun x hx => ?_)
            fun hs => release_closed hs hH hY hclosed
          · rintro rfl
            obtain ⟨x, hx, hx'⟩ := hparked rfl hvalid
            exact hpark (Option.some.inj (hx.symm.trans hwrap) ▸ hx')
          · obtain ⟨h1, h2⟩ := hwait hlaw x hx hw
            exact hpark (Option.some.inj (h1.symm.trans hwrap) ▸ h2)
          · exact Option.some.inj (hx.symm.trans hwrap) ▸ hpark
      simp only [Sys.modCu_cu, update_self, hwrap]
      rw [hstate] at hlost
      have htouch : (s.modCu c fun o => { o with valid := false }).touch m =
          .ok ((s.modCu c fun o => { o with valid := false }).noteUse m) := if_neg (msg_ref_ne hs hmem)
      simp only [htouch]
      exact hlost
  next hvalid => exact release_closed hs hH hY (Bool.eq_false_iff.2 hvalid)

/-! ### The coroutines of a device -/

section

variable {r : Result} {hdr : Header} {buf : ℕ} {bytes : List UInt8}

/-- The message that a live device has sent for `open_video` is there. -/
theorem video_mem (hs : Sound H s) (hp : pu p ∈ H + tokens s) (hv : (s.pu p).video = some m) :
    msg m ∈ H + tokens s := by
  refine Multiset.mem_add.2 (.inr (mem_tokens.2 (.inr (.inl ⟨p, hs.balanced.born _ hp, ?_⟩))))
  simp [puGrants, videoGrants, hv, pu_ref_ne hs hp]

theorem puRead_ends (hs : Sound {pu p} s) (hrun : s.running = none) : Ends law {pu p} s (s.puRead p r) := by
  unfold Sys.puRead
  split
  · exact ends_block hs hrun trivial id rfl
  · exact ends_go hs hrun trivial id rfl

theorem puOnHeader_ends (hs : Sound {pu p} s) (hrun : s.running = none) :
    Ends law {pu p} s (s.puOnHeader p hdr) := by
  unfold Sys.puOnHeader
  split
  · exact ends_go hs hrun trivial id rfl
  · split
    · exact ends_go hs hrun trivial id rfl
    next hlen => exact .move hs .newBuf fun hs => ends_go hs hrun (UInt32.not_lt.1 hlen) id rfl

theorem whole_filled {serial : UInt32} (hlen : hdr.bodylen ≤ 1024 * 1024) {cmdno errcode : UInt32} {n : ℕ} :
    Whole ⟨n, ⟨cmdno, hdr.bodylen, errcode, serial⟩, .held buf (Sys.filled hdr.bodylen bytes)⟩ := by
  refine ⟨hlen, ?_⟩
  simp only [Sys.filled, Body.bytes, List.length_take, List.length_append, List.length_replicate]
  omega

theorem puOnBody_ends (hs : Sound {pu p} s) (hrun : s.running = none) (hlen : hdr.bodylen ≤ 1024 * 1024) :
    Ends law {pu p} s (s.puOnBody p hdr buf bytes) := by
  unfold Sys.puOnBody
  dsimp only
  split
  · exact .move hs (.newMsg (.frame p) _ _ nofun (whole_filled hlen)) fun hs => ends_go hs hrun rfl id rfl
  · split
    · cases hv : (s.pu p).video with
      | none => exact leads_stop .null
      | some v =>
        have hmem : msg v ∈ {pu p} + tokens s := video_mem hs (by simp) hv
        refine .bind hs (touch_leads hs (.inl hmem)) ?_
        rintro _ hs rfl
        refine .move hs (.free ((s.noteUse v).msg v).body) fun hs => ?_
        refine .move hs (.writeDevice _ p (hs.made.video p v hv) ?_ ?_) fun hs => ends_go hs hrun ?_ id ?_
        · exact fun _ => rfl
        · exact fun o _ => whole_filled hlen
        · trivial
        · rfl
    · exact ends_go hs hrun trivial id rfl

theorem fanOut_ends {viewers : List CuPtr} (hs : Sound ({pu p} + {msg m}) s) (hrun : s.running = none)
    (hm : m.maker = .frame p) (hlaw : ∀ c cs, viewers = c :: cs → law = .lossless → (s.cu c).valid) :
    Ends law ({pu p} + {msg m}) s (s.fanOut p m viewers) := by
  cases viewers with
  | nil =>
    refine .bind hs (releaseMsg_leads {pu p} hs rfl fun c b hb => ?_) fun s₁ hs₁ h₁ => ?_
    · simp at hb
    · exact ends_go hs₁ (h₁.running.trans hrun) trivial id rfl
  | cons c cs =>
    have hmem : msg m ∈ {pu p} + {msg m} + tokens s := by simp
    have hmaker (k : Maker) (hk : k ≠ .frame p) : m.maker ≠ k := fun h => hk (h.symm.trans hm)
    have hwhole : Whole (s.msg m) := hs.contents.whole m hmem fun d => hmaker _ nofun
    refine .bind hs (addMsg_leads hs hmem) ?_
    rintro _ hs rfl
    refine .bind hs (cuSendMsg_leads ({pu p} + {msg m}) hs rfl (fun q => hmaker _ nofun) ?_ (by simp)
      fun hl _ => hlaw c cs rfl hl) fun s₁ hs₁ h₁ => ?_
    · simpa [Whole] using hwhole
    · exact ends_go hs₁ (h₁.1.trans hrun) hm id rfl

theorem free_msgs (h : Free H) : Free (H + msgs l) := fun c b hb => by
  obtain hb | hb := Multiset.mem_add.1 hb
  · exact h c b hb
  · simp [mem_msgs] at hb

theorem puSend_ends (hs : Sound (grants (.puSend p)) s) (hrun : s.running = none)
    (hcalm : law = .prompt → (s.pu p).queue = [] ∧ (s.pu p).valid) :
    Ends law (grants (.puSend p)) s ((s.fork (.heart p)).wait (.puWait p)) :=
  leads_fork (t := .heart p) hs hrun trivial id
    (show {pu p} + {opening p} + {puSender p} = {pu p} + {puSender p} + {opening p} by abel)
    fun hs => ends_wait hs hrun trivial trivial hcalm rfl

theorem puNotified_ends (hs : Sound ({pu p} + {puSender p}) s) (hrun : s.running = none) :
    Ends law ({pu p} + {puSender p}) s (s.puNotified p) := by
  unfold Sys.puNotified
  split
  · have hmade := hs.made.pu p
    refine .move hs (.backupPu (p := p) (pu_ref_ne hs (by simp))) fun hs => ?_
    refine .bind hs (releaseAll_leads ({pu p} + {puSender p} + msgs (s.pu p).queue) hs rfl fun m _ => ?_)
      fun s₁ hs₁ h₁ => ends_go hs₁ (h₁.running.trans hrun) hmade id rfl
    exact Free.covers (free_msgs fun c b hb => by simp at hb)
  · exact .move hs .dropSender fun hs => ends_go hs hrun trivial id rfl

theorem puBatch_ends {batch : List MsgPtr} (hs : Sound (grants (.puBatch p batch)) s) (hrun : s.running = none)
    (hbatch : ∀ m ∈ batch, m.maker = .device p)
    (hcalm : batch = [] → law = .prompt → (s.pu p).queue = [] ∧ (s.pu p).valid) :
    Ends law (grants (.puBatch p batch)) s (s.puBatch p r batch) := by
  cases batch with
  | nil => exact ends_wait hs hrun trivial trivial (hcalm rfl) (by simp [grants])
  | cons m batch =>
    have hmem : msg m ∈ grants (.puBatch p (m :: batch)) + tokens s := by simp [grants]
    refine .bind hs (touch_leads hs (.inl hmem)) ?_
    rintro _ hs rfl
    refine .move hs (.writeDevice (fun o => { o with hdr := { o.hdr with serialid := (s.pu p).serial } }) p
      (hbatch m List.mem_cons_self) (fun _ => rfl) fun o ho => ho) fun hs => ?_
    refine .move hs (.serialPu (p := p) ((s.pu p).serial + 1)) fun hs => ?_
    dsimp only
    split
    · exact leads_stop .assertion
    · split
      · refine ends_block hs hrun hbatch id ?_
        simp only [grants, msgs_cons]
        abel
      · refine .bind hs (releaseAll_leads ({pu p} + {puSender p}) hs rfl fun m _ => ?_) fun s₁ hs₁ h₁ => ?_
        · exact Free.covers fun c b hb => by simp at hb
        · exact .move hs₁ .dropSender fun hs => ends_go hs (h₁.running.trans hrun) trivial id rfl

theorem puWrite_ends {batch : List MsgPtr} (hs : Sound (grants (.puWrite p m batch)) s)
    (hrun : s.running = none) (hbatch : ∀ x ∈ m :: batch, x.maker = .device p) :
    Ends law (grants (.puWrite p m batch)) s (s.releaseMsg m >>= fun s => s.go (.puBatch p batch)) := by
  refine .bind hs (releaseMsg_leads ({pu p} + {puSender p} + msgs batch) hs rfl ?_) fun s₁ hs₁ h₁ =>
    ends_go hs₁ (h₁.running.trans hrun) (fun x hx => hbatch x (List.mem_cons_of_mem m hx)) id rfl
  exact Free.covers (free_msgs fun c b hb => by simp at hb)

theorem heart_ends (hs : Sound {opening p} s) (hrun : s.running = none) (hp : (s.pu p).ref ≠ 0) :
    Ends law {opening p} s (((s.fork (.openVideo p)).addPu p).block (.beat p 1)) :=
  leads_fork (t := .openVideo p) hs hrun trivial id (zero_add _).symm fun hs =>
    .move hs (.addPu hp) fun hs => ends_block hs hrun trivial id (zero_add _)

theorem whole_empty {n : ℕ} {cmdno errcode serial : UInt32} {b : Body} :
    Whole ⟨n, ⟨cmdno, 0, errcode, serial⟩, b⟩ :=
  ⟨show (0 : UInt32) ≤ 1024 * 1024 by decide, Nat.zero_le _⟩

theorem puBeat_ends {count : ℕ} (hs : Sound {pu p} s) (hrun : s.running = none) :
    Ends law {pu p} s (s.puBeat p count) := by
  unfold Sys.puBeat
  split
  · exact (releasePu_leads 0 hs (zero_add _).symm fun c b h => Multiset.notMem_zero _ h).mono fun _ _ => trivial
  · split
    · exact ends_block hs hrun trivial id rfl
    · refine .move hs (.newMsg (.device p) ⟨hmcmdHeartbeat, 0, 0, 0⟩ .null nofun whole_empty) fun hs => ?_
      refine .bind hs (puSendMsg_leads {pu p} hs rfl rfl (pu_ref_ne hs (by simp))) fun s₁ hs₁ h₁ => ?_
      exact ends_block hs₁ (h₁.trans hrun) trivial id rfl

theorem whole_openVideoBody {n : ℕ} :
    Whole ⟨1, ⟨hmcmdOpenVideo, Sys.openVideoBody.length.toUInt32, 0, 0⟩, .held n Sys.openVideoBody⟩ := by
  have hlen : Sys.openVideoBody.length.toUInt32 ≤ 1024 * 1024 ∧
      Sys.openVideoBody.length.toUInt32.toNat ≤ Sys.openVideoBody.length := by decide +kernel
  exact hlen

/-- While somebody has the right to set `_real_video_cmd`, it is null. -/
theorem video_none (hs : Sound H s) (h : opening p ∈ H + tokens s) : (s.pu p).video = none := by
  have h1 := hs.exclusive.opening p
  have h2 := Multiset.count_pos.2 h
  cases hv : (s.pu p).video with
  | none => rfl
  | some v =>
    simp only [opened, hv, Option.elim_some] at h1
    omega

theorem handleOpenVideo_ends (hs : Sound {opening p} s) (hp : (s.pu p).ref ≠ 0) :
    Ends law {opening p} s (s.handleOpenVideo p) := by
  unfold Sys.handleOpenVideo
  refine .move hs (.addPu hp) fun hs => .move hs .newBuf fun hs => ?_
  refine .move hs (.newMsg (.device p) ⟨hmcmdOpenVideo, Sys.openVideoBody.length.toUInt32, 0, 0⟩
    (.held (s.addPu p).bufs Sys.openVideoBody) nofun whole_openVideoBody) fun hs => ?_
  dsimp only
  rw [show (s.addPu p).newBuf.fresh (.device p) = (s.addPu p).fresh (.device p) from rfl] at hs ⊢
  generalize hm : (s.addPu p).fresh (.device p) = m at hs ⊢
  have hmaker : m.maker = .device p := hm ▸ rfl
  rw [show {opening p} + {pu p} + {msg m} = {pu p} + {opening p} + {msg m} by abel] at hs ⊢
  have hv := video_none (p := p) hs (by simp)
  refine .move hs (.setVideo (p := p) hmaker (pu_ref_ne hs (by simp)) hv (hs.exclusive.unopened p hv)) fun hs => ?_
  refine .bind hs (addMsg_leads hs (video_mem (p := p) (m := m) hs (by simp) (by simp))) ?_
  rintro _ hs rfl
  refine .bind hs (puSendMsg_leads {pu p} hs rfl hmaker (pu_ref_ne hs (by simp))) fun s₁ hs₁ h₁ => ?_
  exact (releasePu_leads 0 hs₁ (zero_add _).symm fun c b h => Multiset.notMem_zero _ h).mono fun _ _ => trivial

end

/-! ### The receiver of a client -/

section

variable {r : Result} {hdr : Header}

theorem cuRead_ends (hs : Sound {cu c} s) (hrun : s.running = none) : Ends law {cu c} s (s.cuRead c r) := by
  unfold Sys.cuRead
  split
  · exact ends_block hs hrun trivial id rfl
  · exact ends_go hs hrun trivial id rfl

theorem cuOnHeader_ends (hs : Sound {cu c} s) (hrun : s.running = none) :
    Ends law {cu c} s (s.cuOnHeader c hdr) := by
  refine checkNet_leads hs (by simp) fun b s' hs' hsame _ _ => ?_
  have hrun' : s'.running = none := hsame.running.trans hrun
  split
  · exact ends_go hs' hrun' trivial id rfl
  · split
    · exact .move hs' .newBuf fun hs => .move hs (.newDraft c hdr (.held s'.bufs [])) fun hs =>
        ends_go hs hrun' rfl id rfl
    · exact .move hs' (.newDraft c hdr .null) fun hs => ends_go hs hrun' rfl id rfl

theorem cuGiveUp_ends (hs : Sound ({cu c} + {right m} + {draft m}) s) (hrun : s.running = none) :
    Ends law ({cu c} + {right m} + {draft m}) s (s.cuGiveUp c m) := by
  refine .move hs .share fun hs => ?_
  refine .bind hs (releaseMsg_leads ({cu c} + {right m}) hs rfl fun d b hb => ?_) fun s₁ hs₁ h₁ => ?_
  · simp at hb
  · exact .move hs₁ .dropRight fun hs => ends_go hs (h₁.running.trans hrun) trivial id rfl

theorem cuOnBody_ends (hs : Sound ({cu c} + {right m} + {draft m}) s) (hrun : s.running = none)
    (hm : m.maker = .client c) : Ends law ({cu c} + {right m} + {draft m}) s (s.cuOnBody c m hdr) := by
  refine .bind hs (touch_leads hs (.inr (by simp))) ?_
  rintro _ hs rfl
  refine .move hs (.free ((s.noteUse m).msg m).body) fun hs => ?_
  refine .move hs (.writeDraft (fun o => { o with body := o.body.buf.elim .null .freed }) fun _ => rfl) fun hs => ?_
  exact ends_go hs hrun hm id rfl

theorem cuOnMessage_ends (hs : Sound ({cu c} + {right m} + {draft m}) s) (hrun : s.running = none)
    (hm : m.maker = .client c) (hlaw : law = .undone → hdr.cmdno = hmcmdOpenVideo →
      (∃ p, (s.cu c).puProxy = some p ∧ (s.pu p).valid) → (s.cu c).valid) :
    Ends law ({cu c} + {right m} + {draft m}) s (s.cuOnMessage c m hdr) := by
  have hc : c < s.cus := hs.balanced.born (cu c) (by simp)
  refine checkNet_leads hs (by simp) fun b s' hs' hsame _ hnet => ?_
  have hrun' : s'.running = none := hsame.running.trans hrun
  split
  · exact cuGiveUp_ends hs' hrun'
  next hb =>
    have hmaker (k : Maker) (hk : k ≠ .client c) : m.maker ≠ k := fun h => hk (h.symm.trans hm)
    split
    · refine .bind hs' (touch_leads hs' (.inr (by simp))) ?_
      rintro _ hs rfl
      refine .move hs (.writeDraft (fun o =>
        { o with hdr := { o.hdr with cmdno := 0x80000000 ||| hmcmdHeartbeat, bodylen := 0 } }) fun _ => rfl)
        fun hs => .move hs .share fun hs => ?_
      refine .bind hs (cuSendMsg_leads ({cu c} + {right m}) hs rfl (fun q => hmaker _ nofun) ?_ (by simp)
        fun _ hf => ?_) fun s₁ hs₁ h₁ => ?_
      · simpa using whole_empty
      · obtain ⟨q, hq⟩ := hf
        exact absurd hq (hmaker _ nofun)
      · exact .move hs₁ .dropRight fun hs => ends_go hs (h₁.1.trans hrun') trivial id rfl
    · split
      next hopen =>
        refine .move hs' (.ask hm (fun hl => ?_) (hs'.balanced.born (cu c) (by simp))) fun hs => ?_
        · rw [hsame.cu]
          exact hlaw hl hopen (hnet (by simpa using hb))
        · exact ends_go hs hrun' trivial id rfl
      · exact cuGiveUp_ends hs' hrun'

/-! ### The sender of a client -/

theorem cuNotified_ends (hs : Sound ({cu c} + {cuSender c (some [])}) s) (hrun : s.running = none) :
    Ends law ({cu c} + {cuSender c (some [])}) s (s.cuNotified c) := by
  unfold Sys.cuNotified
  split
  · have hmade := hs.made.cu c
    refine .move hs (.backupCu (c := c) (cu_ref_ne hs (by simp))) fun hs => ?_
    refine .bind hs (releaseAll_leads ({cu c} + {cuSender c (some (s.cu c).queue)} + msgs (s.cu c).queue) hs rfl
      fun m hm d b hb _ => ?_) fun s₁ hs₁ h₁ => ends_go hs₁ (h₁.running.trans hrun) hmade id rfl
    simp [mem_msgs, hm]
  · exact .move hs .giveUp fun hs => ends_go hs hrun trivial id rfl

theorem cuBatch_ends {batch : List MsgPtr} (hs : Sound (grants (.cuBatch c batch)) s) (hrun : s.running = none)
    (hbatch : ∀ m ∈ batch, ∀ p, m.maker ≠ .device p)
    (hcalm : batch = [] → law = .prompt → (s.cu c).queue = [] ∧ (s.cu c).valid)
    (hsilent : batch ≠ [] → law ≠ .silent) : Ends law (grants (.cuBatch c batch)) s (s.cuBatch c r batch) := by
  cases batch with
  | nil => exact ends_wait hs hrun trivial trivial (hcalm rfl) (by simp [grants])
  | cons m batch =>
    have hmem : msg m ∈ grants (.cuBatch c (m :: batch)) + tokens s := by simp [grants]
    refine .bind hs (touch_leads hs (.inl hmem)) ?_
    rintro _ hs rfl
    split
    · exact leads_stop .assertion
    · split
      · refine leads_place hs hrun ⟨rfl, hbatch⟩ ⟨by rintro ⟨⟩, by rintro ⟨⟩⟩ (fun _ => trivial)
          (fun h => absurd h (hsilent (List.cons_ne_nil _ _))) ?_ trivial
        simp only [grants, msgs_cons]
        abel
      · have hH : grants (.cuBatch c (m :: batch)) =
            {cu c} + msgs (m :: batch) + {cuSender c (some (m :: batch))} := by
          simp only [grants]
          abel
        rw [hH] at hs ⊢
        refine .move hs .giveUp fun hs => ?_
        refine .bind hs (releaseAll_leads ({cu c} + {cuSender c none}) hs (by abel) fun x _ => ?_) fun s₁ hs₁ h₁ => ?_
        · exact Free.covers fun d b hb => by simp at hb
        · exact ends_go hs₁ (h₁.running.trans hrun) trivial id rfl

theorem cuWritten_ends {x : Write} {batch : List MsgPtr} (hs : Sound (grants (.cuWrite c x.frame m batch)) s)
    (hrun : s.running = none) (hfit : Fits s (.cuWrite c x.frame m batch)) (hsilent : law ≠ .silent) :
    Ends law (grants (.cuWrite c x.frame m batch)) s (s.cuWritten c m x batch) := by
  refine .move hs (.noteWritten x hfit.1 hsilent) fun hs => ?_
  refine .bind hs (releaseMsg_leads ({cu c} + {cuSender c (some batch)} + msgs batch) hs (by abel)
    fun d b hb hm => ?_) fun s₁ hs₁ h₁ => ?_
  · obtain ⟨-, rfl⟩ : d = c ∧ b = batch := by simpa [mem_msgs] using hb
    simp [mem_msgs, hm]
  · exact ends_go hs₁ (h₁.running.trans hrun) (fun x hx => hfit.2 x (List.mem_cons_of_mem m hx)) id rfl

/-- The sender comes to `close` with what is left of its right. -/
theorem cuExit_leads (hs : Sound ({cu c} + {cuSender c none}) s) (hrun : s.running = none)
    (hlaw : law = .lossless → ∀ m ∈ (s.cu c).queue, ¬ IsFrame m) :
    Leads law ({cu c} + {cuSender c none}) s {closing c} (fun s' => s'.running = some (.cuClose c))
      (s.cuExit c) := by
  refine .move hs (.clearCu (cu_ref_ne hs (by simp)) hlaw) fun hs => ?_
  refine .bind hs (releaseAll_leads ({cu c} + {closing c}) hs rfl fun x _ => ?_) fun s₁ hs₁ h₁ => ?_
  · exact Free.covers fun d b hb => by simp at hb
  · exact leads_place hs₁ (h₁.running.trans hrun) trivial ⟨False.elim, nofun⟩ (fun _ => trivial) (fun _ => id)
      (add_comm _ _) rfl

end

/-! ### `open_real_video` of a client -/

/-- The device that a client holds on to is there. -/
theorem proxy_mem (hc : c < s.cus) (hp : (s.cu c).puProxy = some p) : pu p ∈ H + tokens s :=
  Multiset.mem_add.2 (.inr (mem_tokens.2 (.inr (.inr (.inl ⟨c, hc, by simp [cuGrants, hp]⟩)))))

/-- The message becomes a copy of a whole one. -/
theorem copyMsg_leads {v : MsgPtr} {serial : UInt32} (X : Hand) (hs : Sound H s) (hH : H = X + {draft m})
    (hv : Whole (s.msg v)) :
    Leads law H s (X + {draft m}) (fun s' => Whole (s'.msg m) ∧ s'.running = s.running)
      (.ok (s.copyMsg m v serial)) := by
  subst hH
  unfold Sys.copyMsg
  dsimp only
  split
  next hlen =>
    refine .move hs .newBuf fun hs => .move hs (.writeDraft (fun o =>
      { o with
        hdr := { (s.msg v).hdr with serialid := serial }
        body := .held s.bufs ((s.msg v).body.bytes.take (s.msg v).hdr.bodylen.toNat) }) fun _ => rfl)
      fun _ => leads_ok ⟨?_, rfl⟩
    simpa [Whole, Body.bytes] using hv
  next hlen =>
    refine .move hs (.writeDraft (fun o => { o with hdr := { (s.msg v).hdr with serialid := serial } })
      fun _ => rfl) fun _ => leads_ok ⟨?_, rfl⟩
    have h0 : (s.msg v).hdr.bodylen = 0 := by
      have := UInt32.not_lt.1 hlen
      exact UInt32.le_antisymm this UInt32.zero_le
    simpa [h0] using whole_empty

/-- A client is entered, with a reference to the message that it gets a copy of. -/
theorem openRealVideo_leads {k : MsgPtr → Sys → Outcome} (hs : Sound H s) (hp : pu p ∈ H + tokens s)
    (hc : (s.cu c).puProxy = some p)
    (hk : ∀ v s', Sound (H + {seat c}) s' → s'.running = s.running → v.maker = .device p →
      msg v ∈ H + {seat c} + tokens s' → Leads law (H + {seat c}) s' H' Q (k v s')) :
    Leads law H s H' Q (s.openRealVideo p c k) := by
  refine .bind hs (callPu_leads .openRealVideo hs (.inl hp)) ?_
  rintro _ hs ⟨rfl, h0⟩
  refine .bind hs (addCu_leads hs) ?_
  rintro _ hs ⟨rfl, -⟩
  split
  · exact leads_stop .assertion
  next v hv =>
    have hmem : msg v ∈ H + {cu c} + tokens ((s.noteCall p .openRealVideo).modCu c fun o =>
        { o with ref := o.ref + 1 }) := video_mem (p := p) hs (mem_pu hs h0) hv
    refine .bind hs (addMsg_leads hs hmem) ?_
    rintro _ hs rfl
    refine .move hs (.enter (p := p) (c := c) (v := v) h0 hv (by simpa using hc)) fun hs => ?_
    refine hk v _ hs rfl (hs.made.video p v (by simpa using hv)) (video_mem (p := p) hs (mem_pu hs ?_) ?_)
    · simpa using h0
    · simpa using hv

/-- The answer to `open_video` is sent, and the coroutine waits. -/
theorem answer_ends {v : MsgPtr} {serial : UInt32} (hs : Sound ({waiter m} + {cu c} + {seat c} + {draft m}) s)
    (hrun : s.running = none) (hm : m.maker = .client c) (hv : v.maker = .device p)
    (hmem : msg v ∈ {waiter m} + {cu c} + {seat c} + {draft m} + tokens s) :
    Ends law ({waiter m} + {cu c} + {seat c} + {draft m}) s (do
      let s ← s.touch v
      let s := s.copyMsg m v serial
      let s ← s.cuSendMsg c m
      let s ← s.addMsg m
      s.wait (.park c m)) := by
  have hmaker (k : Maker) (hk : k ≠ .client c) : m.maker ≠ k := fun h => hk (h.symm.trans hm)
  refine .bind hs (touch_leads hs (.inl hmem)) ?_
  rintro _ hs rfl
  have hwhole := hs.contents.whole v hmem fun d h => Maker.noConfusion (hv.symm.trans h)
  refine .bind (f := fun s => s.cuSendMsg c m >>= fun s => s.addMsg m >>= fun s => s.wait (.park c m)) hs
    (copyMsg_leads ({waiter m} + {cu c} + {seat c}) hs rfl hwhole) fun s₁ hs ⟨h₁, hrun₁⟩ => ?_
  refine .move hs .share fun hs => ?_
  refine .bind hs (cuSendMsg_leads ({waiter m} + {cu c} + {seat c}) hs rfl (fun q => hmaker _ nofun) h₁ (by simp)
    fun _ hf => ?_) fun s₂ hs ⟨hrun₂, hmem₂⟩ => ?_
  · obtain ⟨q, hq⟩ := hf
    exact absurd hq (hmaker _ nofun)
  · refine .bind hs (addMsg_leads hs (Multiset.mem_add.2 (.inr hmem₂))) ?_
    rintro _ hs rfl
    refine ends_wait hs (hrun₂.trans (hrun₁.trans hrun)) hm trivial (fun _ => trivial) ?_
    simp only [grants]
    abel

theorem openReal_ends (hs : Sound ({draft m} + {waiter m}) s) (hrun : s.running = none)
    (hm : m.maker = .client c) : Ends law ({draft m} + {waiter m}) s (s.openReal c m) := by
  refine .bind hs (addCu_leads hs) ?_
  rintro _ hs ⟨rfl, -⟩
  refine .bind hs (touch_leads hs (.inr (by simp))) ?_
  rintro _ hs rfl
  dsimp only
  refine .move hs (.serialCu (c := c) (((s.modCu c fun o => { o with ref := o.ref + 1 }).noteUse m).msg m).hdr.serialid)
    fun hs => ?_
  split
  · exact leads_stop .null
  next p hp =>
    have hH : ({draft m} + {waiter m} + {cu c} + {seat c} : Hand) =
        {waiter m} + {cu c} + {seat c} + {draft m} := by abel
    refine openRealVideo_leads hs (proxy_mem (hs.balanced.born (cu c) (by simp)) hp) hp
      fun v s' hs' hrun' hv hmem => ?_
    rw [hH] at hs' hmem ⊢
    exact answer_ends hs' (hrun'.trans hrun) hm hv hmem

/-- Who has entered a client finds its entry. -/
theorem seat_viewers (hs : Sound H s) (hp : (s.cu c).puProxy = some p) (h : seat c ∈ H) (he : entry c ∉ H) :
    c ∈ (s.pu p).viewers := by
  have h1 := hs.clients.seats c
  have h2 := Multiset.count_pos.2 (Multiset.mem_add.2 (.inl h : seat c ∈ H ∨ seat c ∈ tokens s))
  have h3 : entry c ∈ tokens s :=
    (Multiset.mem_add.1 (Multiset.count_pos.1 (show 0 < (H + tokens s).count (entry c) by omega))).resolve_left he
  obtain ⟨t, -, hg⟩ | ⟨q, -, hg⟩ | ⟨e, -, hg⟩ | hg := mem_tokens.1 h3
  · cases t <;> simp [grants, mem_msgs] at hg
  · have hq : c ∈ (s.pu q).viewers := by
      simp only [puGrants, videoGrants, Multiset.mem_add, mem_msgs, mem_held] at hg
      cases hv : (s.pu q).video <;> simp [hv] at hg
      · exact hg
      · split at hg <;> simpa using hg
    obtain h4 | h4 := (hs.clients.viewers q c hq).2
    · obtain rfl : p = q := Option.some.inj (hp.symm.trans h4)
      exact hq
    · exact absurd (hp.symm.trans h4) (Option.some_ne_none p)
  · cases hp' : (s.cu e).puProxy <;> simp [cuGrants, mem_msgs, hp'] at hg
  · simp [mem_msgs] at hg

/-- Who has the right to call `uninit` finds the device. -/
theorem woken_proxy (hs : Sound H s) (h : woken c ∈ H + tokens s) : ∃ p, (s.cu c).puProxy = some p := by
  have h1 := hs.clients.woken c (hs.balanced.born _ h)
  have h2 := Multiset.count_pos.2 h
  cases hp : (s.cu c).puProxy with
  | none =>
    simp only [spare, hp, Option.elim_none] at h1
    omega
  | some p => exact ⟨p, rfl⟩

/-- The client is removed from where it has been entered. -/
theorem closeRealVideo_leads (hs : Sound ({cu c} + {msg m} + {woken c} + {seat c}) s)
    (hp : (s.cu c).puProxy = some p) :
    Leads law ({cu c} + {msg m} + {woken c} + {seat c}) s ({cu c} + {woken c} + {msg m})
      (fun s' => s'.running = s.running) (s.closeRealVideo p c) := by
  have hlt : p < s.pus := hs.balanced.born _ (proxy_mem (hs.balanced.born (cu c) (by simp)) hp)
  have hviewers : c ∈ (s.pu p).viewers := seat_viewers hs hp (by simp) (by simp)
  unfold Sys.closeRealVideo
  rw [if_pos hviewers]
  refine .bind hs (releaseCu_leads ({msg m} + {woken c} + {seat c}) hs (by abel) fun x hx => ?_)
    fun s₁ hs₁ ⟨hpu, hpus, hrun₁⟩ => ?_
  · obtain rfl | rfl | rfl : x = msg m ∨ x = woken c ∨ x = seat c := by simpa using hx
    all_goals exact id
  · have hviewers₁ : c ∈ (s₁.pu p).viewers := hpu ▸ hviewers
    cases hv : (s₁.pu p).video with
    | none => simp [hs₁.exclusive.unopened p hv] at hviewers₁
    | some v =>
      refine .move hs₁ (.exit (hpus.symm ▸ hlt) hviewers₁ hv) fun hs => ?_
      simp only [Sys.modPu_pu, update_self, hv]
      refine (releaseMsg_leads ({cu c} + {woken c} + {msg m}) hs (by abel) fun d b hb => ?_).mono
        fun s₂ h₂ => h₂.running.trans hrun₁
      simp at hb

theorem parted_ends (hs : Sound ({cu c} + {msg m} + {woken c} + {seat c}) s) (hrun : s.running = none)
    (hm : m.maker = .client c) :
    Ends law ({cu c} + {msg m} + {woken c} + {seat c}) s (s.parted c m) := by
  obtain ⟨p, hp⟩ := woken_proxy (c := c) hs (by simp)
  unfold Sys.parted
  simp only [hp]
  refine .bind hs (callPu_leads .closeRealVideo hs
    (.inl (proxy_mem (hs.balanced.born (cu c) (by simp)) hp))) ?_
  rintro _ hs ⟨rfl, -⟩
  exact .bind hs (closeRealVideo_leads hs hp) fun s₁ hs₁ h₁ => ends_go hs₁ (h₁.trans hrun) hm id rfl

theorem leave_ends (hs : Sound ({cu c} + {woken c} + {msg m}) s) :
    Ends law ({cu c} + {woken c} + {msg m}) s (s.leave c m) := by
  refine .bind hs (releaseMsg_leads ({cu c} + {woken c}) hs rfl fun d b hb => ?_) fun s₁ hs₁ h₁ => ?_
  · simp at hb
  · refine .bind (X := {cu c}) (Q := fun _ => True) hs₁ ?_ fun s₂ hs₂ _ => ?_
    · obtain ⟨p, hp⟩ := woken_proxy (c := c) hs₁ (by simp)
      unfold Sys.uninit
      simp only [hp]
      refine .move hs₁ (.takeProxy hp) fun hs => ?_
      refine .bind hs (callPu_leads .release hs (.inl (by simp))) ?_
      rintro _ hs ⟨rfl, -⟩
      exact (releasePu_leads {cu c} hs rfl fun d b hb => by simp at hb).mono fun _ _ => trivial
    · exact (releaseCu_leads 0 hs₂ (zero_add _).symm fun x hx => absurd hx (Multiset.notMem_zero x)).mono
        fun _ _ => trivial

/-! ### The session -/

section

variable {r : Result} {sn : String}

theorem free_zero : Free 0 := fun _ _ h => Multiset.notMem_zero _ h

theorem loginDevice_ends (hs : Sound 0 s) (hrun : s.running = none) : Ends law 0 s (s.loginDevice r sn) := by
  unfold Sys.loginDevice
  split
  · exact leads_ok trivial
  next hsn =>
    have hfit : Fits (s.newPu sn) (.login sn s.pus) := by simp [Fits]
    split
    · exact .move hs (.newPu sn hsn) fun hs => ends_go hs hrun hfit id (zero_add _)
    · exact .move hs (.newPu sn hsn) fun hs => ends_block hs hrun hfit id (zero_add _)

theorem findDevice_ends (hs : Sound 0 s) (hrun : s.running = none) : Ends law 0 s (s.findDevice r sn) := by
  unfold Sys.findDevice
  split
  · exact leads_ok trivial
  next p hp =>
    refine .bind hs (callPu_leads .isVideoOpen hs (.inl (mem_pu hs ((hs.registered sn p).1 hp).1))) ?_
    rintro _ hs ⟨rfl, -⟩
    split
    · exact leads_ok trivial
    · exact ends_block hs hrun trivial id rfl

theorem handleSession_ends {type sn : Option String} (hs : Sound 0 s) (hrun : s.running = none) :
    Ends law 0 s (s.handleSession r type sn) := by
  unfold Sys.handleSession
  split
  · exact leads_ok trivial
  · split
    · split
      · exact leads_stop .null
      · exact loginDevice_ends hs hrun
    · split
      · exact leads_stop .overrun
      · split
        · exact loginDevice_ends hs hrun
        · exact findDevice_ends hs hrun

/-- The session of a device finds the object that it has constructed. -/
theorem runDevice_ends (hs : Sound (grants (.login sn p)) s) (hrun : s.running = none) (hsn : (s.pu p).sn = sn) :
    Ends law (grants (.login sn p)) s (s.runDevice sn) := by
  have hmem {X : Hand} : pu p ∈ grants (.login sn p) + X := by simp [grants]
  have hp : s.deviceMap sn = some p := (hs.registered sn p).2 ⟨pu_ref_ne hs hmem, hsn⟩
  unfold Sys.runDevice
  simp only [hp]
  refine .bind hs (callPu_leads .init hs (.inl hmem)) ?_
  rintro _ hs ⟨rfl, -⟩
  refine .bind hs (callPu_leads .run hs (.inl hmem)) ?_
  rintro _ hs ⟨rfl, h0⟩
  refine .bind (X := {pu p}) (Q := fun _ => True) hs ?_ fun s₁ hs₁ _ =>
    (releasePu_leads 0 hs₁ (zero_add _).symm free_zero).mono fun _ _ => trivial
  refine .move hs (.runPu (p := p)) fun hs => .move hs (.addPu (p := p) (pu_ref_ne hs hmem)) fun hs => ?_
  refine .move hs (.addPu (p := p) (pu_ref_ne hs (by simp))) fun hs => ?_
  refine leads_fork (t := .puRecv p) hs hrun trivial id rfl fun hs => ?_
  refine leads_fork (t := .puSend p) hs hrun trivial id (X := {pu p}) (by simp only [grants]; abel) fun hs => ?_
  exact (callPu_leads .release hs (.inl (by simp))).mono fun _ _ => trivial

theorem runClient_ends (hs : Sound 0 s) (hrun : s.running = none)
    (hlaw : law = .kept → (s.pu p).ref ≠ 0) : Ends law 0 s (s.runClient p) := by
  refine .bind hs (callPu_leads .add hs (.inr hlaw)) ?_
  rintro _ hs ⟨rfl, h0⟩
  refine .move hs (.addPu (p := p) h0) fun hs => ?_
  rw [zero_add] at hs ⊢
  rw [show ({pu p} : Hand) = 0 + {pu p} from (zero_add _).symm] at hs ⊢
  refine .move hs .newCu fun hs => ?_
  rw [zero_add] at hs ⊢
  refine .bind hs (addCu_leads (c := s.cus) hs) ?_
  rintro _ hs ⟨rfl, -⟩
  refine .bind hs (addCu_leads (c := s.cus) hs) ?_
  rintro _ hs ⟨rfl, -⟩
  refine leads_fork (t := .cuRecv s.cus) hs hrun trivial id rfl fun hs => ?_
  refine leads_fork (t := .cuSend s.cus) hs hrun trivial id (X := {cu s.cus}) ?_ fun hs => ?_
  · show {cu s.cus} + {cuSender s.cus (some [])} + {cu s.cus} = {cu s.cus} + ({cu s.cus} + {cuSender s.cus (some [])})
    abel
  · exact (releaseCu_leads 0 hs (zero_add _).symm fun x hx => absurd hx (Multiset.notMem_zero x)).mono
      fun _ _ => trivial

end

/-! ### Steps -/

/-- What a law asks of the state in which a coroutine goes on. -/
def Meets (law : Law) (s : Sys) : Task → Prop
  | .client p => law = .kept → (s.pu p).ref ≠ 0
  | .puFan _ _ (c :: _) => law = .lossless → (s.cu c).valid
  | .puSend p | .puBatch p [] => law = .prompt → (s.pu p).queue = [] ∧ (s.pu p).valid
  | .cuSend c | .cuBatch c [] => law = .prompt → (s.cu c).queue = [] ∧ (s.cu c).valid
  | .cuBatch _ (_ :: _) | .cuWrite _ _ _ _ => law ≠ .silent
  | .cuMessage c hdr _ => law = .undone → hdr.cmdno = hmcmdOpenVideo →
    (∃ p, (s.cu c).puProxy = some p ∧ (s.pu p).valid) → (s.cu c).valid
  | .cuClose c => (s.cu c).valid → (law = .parked → LastParked s c) ∧ (law = .undone → NoneEarlier s c)
  | .cuExit c => law = .lossless → ∀ m ∈ (s.cu c).queue, ¬ IsFrame m
  | _ => True

/-- The points where a law asks something. -/
inductive Asks : Law → Task → Prop
  | client {p : PuPtr} : Asks .kept (.client p)
  | puSend {p : PuPtr} : Asks .prompt (.puSend p)
  | puBatch {p : PuPtr} : Asks .prompt (.puBatch p [])
  | cuSend {c : CuPtr} : Asks .prompt (.cuSend c)
  | cuBatch {c : CuPtr} : Asks .prompt (.cuBatch c [])
  | parks {c : CuPtr} : Asks .parked (.cuClose c)
  | closes {c : CuPtr} : Asks .undone (.cuClose c)
  | message {c : CuPtr} {hdr : Header} {m : MsgPtr} : Asks .undone (.cuMessage c hdr m)
  | fan {p : PuPtr} {m : MsgPtr} {c : CuPtr} {viewers : List CuPtr} : Asks .lossless (.puFan p m (c :: viewers))
  | exits {c : CuPtr} : Asks .lossless (.cuExit c)
  | hands {c : CuPtr} {m : MsgPtr} {batch : List MsgPtr} : Asks .silent (.cuBatch c (m :: batch))
  | writes {c : CuPtr} {frame : Frame} {m : MsgPtr} {batch : List MsgPtr} :
      Asks .silent (.cuWrite c frame m batch)

/-- At any other point it is met. -/
theorem meets_of (h : Asks law t → Meets law s t) : Meets law s t := by
  cases t with
  | client p => exact fun hlaw => by subst hlaw; exact h .client rfl
  | puSend p => exact fun hlaw => by subst hlaw; exact h .puSend rfl
  | cuSend c => exact fun hlaw => by subst hlaw; exact h .cuSend rfl
  | puBatch p batch =>
    cases batch with
    | nil => exact fun hlaw => by subst hlaw; exact h .puBatch rfl
    | cons m batch => trivial
  | cuBatch c batch =>
    cases batch with
    | nil => exact fun hlaw => by subst hlaw; exact h .cuBatch rfl
    | cons m batch => exact fun hlaw => by subst hlaw; exact h .hands rfl
  | cuWrite c frame m batch => exact fun hlaw => by subst hlaw; exact h .writes rfl
  | cuMessage c hdr m => exact fun hlaw => by subst hlaw; exact h .message rfl
  | cuClose c =>
    refine fun hv => ⟨fun hlaw => ?_, fun hlaw => ?_⟩ <;> subst hlaw
    · exact (h .parks hv).1 rfl
    · exact (h .closes hv).2 rfl
  | cuExit c => exact fun hlaw => by subst hlaw; exact h .exits rfl
  | puFan p m viewers =>
    cases viewers with
    | nil => trivial
    | cons c viewers => exact fun hlaw => by subst hlaw; exact h .fan rfl
  | _ => trivial

/-- **A coroutine goes on to its next point by moves.** The sender of a client is last, and `close` is called
by it too. -/
theorem resume_ends {r : Result} (hs : Sound (grants t) s) (hrun : s.running = none) (hfit : Fits s t)
    (hw : ¬ Waits t) (halive : s.orphaned t = false) (hmeets : Meets law s t) (hexit : ∀ c, t ≠ .cuExit c)
    (hclose : ∀ c, t ≠ .cuClose c) : Ends law (grants t) s (s.resume r t) := by
  cases t with
  | connections =>
    simp only [Sys.resume]
    split
    · exact leads_fork (t := .connections) hs hrun trivial id rfl fun hs => leads_ok trivial
    · exact ends_block hs hrun trivial id rfl
  | accept =>
    exact leads_fork (t := .connections) hs hrun trivial id rfl fun hs =>
      leads_fork (t := .session) hs hrun trivial id rfl fun hs => leads_ok trivial
  | session =>
    simp only [Sys.resume]
    split
    · exact leads_ok trivial
    · exact ends_block hs hrun trivial id rfl
  | auth =>
    simp only [Sys.resume]
    split
    · exact ends_block hs hrun trivial id rfl
    · exact ends_go hs hrun trivial id rfl
    · exact leads_ok trivial
  | handshake type sn => exact handleSession_ends hs hrun
  | login sn p => exact runDevice_ends hs hrun hfit
  | client p => exact runClient_ends hs hrun hmeets
  | puRecv p => exact puRead_ends hs hrun
  | puHeader p =>
    simp only [Sys.resume]
    split
    · exact puOnHeader_ends hs hrun
    · exact ends_go hs hrun trivial id rfl
  | puLoad p hdr buf =>
    simp only [Sys.resume]
    split
    · exact ends_block hs hrun hfit id rfl
    · exact ends_go hs hrun trivial id rfl
  | puBody p hdr buf =>
    simp only [Sys.resume]
    split
    · exact ends_block hs hrun hfit id rfl
    · exact puOnBody_ends hs hrun hfit
    · exact ends_go hs hrun trivial id rfl
  | puFan p m viewers => exact fanOut_ends hs hrun hfit fun c cs h => by subst h; exact hmeets
  | puClose p => exact puClose_ends hs rfl
  | puSend p => exact puSend_ends hs hrun hmeets
  | puWait p | cuWait c | park c m => exact absurd trivial hw
  | puNotified p => exact puNotified_ends hs hrun
  | puBatch p batch => exact puBatch_ends hs hrun hfit fun h => by subst h; exact hmeets
  | puWrite p m batch => exact puWrite_ends hs hrun hfit
  | heart p => exact heart_ends hs hrun (by simpa [Sys.orphaned] using halive)
  | beat p count => exact puBeat_ends hs hrun
  | openVideo p => exact handleOpenVideo_ends hs (by simpa [Sys.orphaned] using halive)
  | cuRecv c => exact cuRead_ends hs hrun
  | cuHeader c =>
    simp only [Sys.resume]
    split
    · exact cuOnHeader_ends hs hrun
    · exact ends_go hs hrun trivial id rfl
  | cuLoad c hdr m =>
    simp only [Sys.resume]
    split
    · exact ends_block hs hrun hfit id rfl
    · exact cuGiveUp_ends hs hrun
  | cuBody c hdr m =>
    simp only [Sys.resume]
    split
    · exact ends_block hs hrun hfit id rfl
    · exact cuOnBody_ends hs hrun hfit
    · exact cuGiveUp_ends hs hrun
  | cuMessage c hdr m => exact cuOnMessage_ends hs hrun hfit hmeets
  | cuClose c => exact absurd rfl (hclose c)
  | cuSend c => exact ends_wait hs hrun trivial trivial hmeets rfl
  | cuNotified c => exact cuNotified_ends hs hrun
  | cuBatch c batch =>
    refine cuBatch_ends hs hrun hfit (fun h => by subst h; exact hmeets) fun h => ?_
    obtain ⟨m, batch, rfl⟩ := List.exists_cons_of_ne_nil h
    exact hmeets
  | cuWrite c frame m batch => exact cuWritten_ends hs hrun hfit hmeets
  | cuExit c => exact absurd rfl (hexit c)
  | openReal c m => exact openReal_ends hs hrun hfit
  | parted c m => exact parted_ends hs hrun hfit
  | leave c m => exact leave_ends hs

/-- What is left in the hand between two steps: nothing, unless a sender is about to call `close`. -/
def Rest (H : Hand) (s : Sys) : Prop := H = 0 ∨ ∃ c, s.running = some (.cuClose c) ∧ H = {closing c}

theorem Leads.ended (ho : Leads law H s H' Q o) (hQ : ∀ s', Q s' → Rest H' s') :
    ∃ H'', Path law H s H'' (Sys.ended o) ∧ ((Sys.ended o).fault = none → Rest H'' (Sys.ended o)) := by
  cases o with
  | ok s' => exact ⟨H', ho.1, fun _ => hQ s' ho.2⟩
  | error s' => exact ho.2.imp fun _ h => ⟨h, fun h' => absurd h' ho.1⟩

theorem go_path {r : Result} (hs : Sound H s) (hrest : Rest H s) (hrun : s.running = some t)
    (hmeets : Meets law s t) (he : s.step (.go r) = some s') :
    ∃ H', Path law H s H' s' ∧ (s'.fault = none → Rest H' s') := by
  simp only [Sys.step, hrun] at he
  have htake : Move law 0 0 H s (H + grants t) { s with running := none } := .take hrun
  have hs' := hs.move htake
  have hrun' : Sys.running { s with running := none } = none := rfl
  have hmem : t ∈ s.tasks := mem_tasks.2 (.inl (by simp [awake, hrun]))
  have hfit : Fits { s with running := none } t := (fits_congr rfl rfl).2 (hs.fit.fits t hmem)
  have hw : ¬ Waits t := hs.fit.awake t (by simp [awake, hrun])
  have hstart {o : Outcome} {Y : Hand} {Q : Sys → Prop} (ho : Leads law (H + grants t) { s with running := none } Y Q o)
      (hQ : ∀ s', Q s' → Rest Y s') :
      ∃ H', Path law H s H' (Sys.ended o) ∧ ((Sys.ended o).fault = none → Rest H' (Sys.ended o)) :=
    Leads.ended (.path (.tail .refl htake) ho) hQ
  split at he
  · obtain rfl := Option.some.inj he
    exact hstart (Y := 0) (Q := fun _ => True) (leads_stop .dead) fun _ _ => .inl rfl
  next halive =>
    obtain rfl := Option.some.inj he
    by_cases hclose : ∃ c, t = .cuClose c
    · obtain ⟨c, rfl⟩ := hclose
      have hY : H = 0 ∨ H = {closing c} := by
        obtain h | ⟨d, hd, h⟩ := hrest
        · exact .inl h
        · obtain rfl : c = d := Task.cuClose.inj (Option.some.inj (hrun.symm.trans hd))
          exact .inr h
      refine hstart (cuClose_ends hs' (add_comm _ _) hY (fun hl hv => (hmeets hv).1 hl) fun hl hv u hu => ?_)
        fun _ _ => .inl rfl
      exact (hmeets hv).2 hl u (mem_tasks.2 ((mem_tasks.1 hu).imp_left fun h => by simp [awake] at h ⊢; tauto))
    · have hzero : H = 0 := by
        obtain h | ⟨c, hc, -⟩ := hrest
        · exact h
        · exact absurd ⟨c, Option.some.inj (hrun.symm.trans hc)⟩ hclose
      subst hzero
      rw [zero_add] at hs'
      rw [zero_add] at hstart
      by_cases hexit : ∃ c, t = .cuExit c
      · obtain ⟨c, rfl⟩ := hexit
        exact hstart (cuExit_leads hs' hrun' hmeets) fun s' h => .inr ⟨c, h, rfl⟩
      · refine hstart (resume_ends hs' hrun' hfit hw (by simpa using halive) ?_ (fun c h => hexit ⟨c, h⟩)
          fun c h => hclose ⟨c, h⟩) fun _ _ => .inl rfl
        unfold Meets
        split <;> first | exact hmeets | exact absurd ⟨_, rfl⟩ hclose | trivial

/-- **A step is made of moves.** -/
theorem step_path {e : Event} (hs : Sound H s) (hrest : Rest H s)
    (hmeets : ∀ t, s.running = some t → Meets law s t) (he : s.step e = some s') :
    ∃ H', Path law H s H' s' ∧ (s'.fault = none → Rest H' s') := by
  -- nobody has anything in the hand while no coroutine runs
  have hzero (hrun : s.running = none) : H = 0 := by
    obtain h | ⟨c, hc, -⟩ := hrest
    · exact h
    · exact absurd (hrun.symm.trans hc) (Option.some_ne_none _).symm
  cases e with
  | deliver t =>
    simp only [Sys.step] at he
    split at he
    next h =>
      obtain rfl := Option.some.inj he
      refine ⟨H, .tail .refl (.shuffle ?_), fun _ => .inl (hzero h.2.1)⟩
      rw [List.append_assoc, List.append_assoc, List.append_assoc]
      exact ((List.perm_cons_erase h.1).symm.append_left _).append_left _
    next => exact absurd he (Option.some_ne_none _).symm
  | schedule =>
    simp only [Sys.step] at he
    split at he
    next t runq hrun hq =>
      obtain rfl := Option.some.inj he
      refine ⟨H, .tail .refl (.shuffle ?_), fun _ => .inl (hzero hrun)⟩
      simp [hrun, hq]
    next => exact absurd he (Option.some_ne_none _).symm
  | go r =>
    cases hrun : s.running with
    | none => simp [Sys.step, hrun] at he
    | some t => exact go_path hs hrest hrun (hmeets t hrun) he

/-! ### Runs -/

/-- The law is kept in a step. -/
def Obeys (law : Law) (s : Sys) (_ : Event) : Prop := ∀ t, s.running = some t → Meets law s t

theorem obeys_of {e : Event} (h : ∀ t, s.running = some t → Asks law t → Meets law s t) : Obeys law s e :=
  fun t ht => meets_of (h t ht)

theorem obeys_any {e : Event} : Obeys .any s e := obeys_of fun t _ hasks => by cases hasks

theorem sound_start : Sound 0 Sys.start := by
  have hmem (x : Token) : x ∉ (0 : Hand) + tokens Sys.start := Multiset.notMem_zero x
  have hcount (x : Token) : ((0 : Hand) + tokens Sys.start).count x = 0 := Multiset.count_zero x
  refine ⟨⟨fun p => ?_, fun c => ?_, fun m => ?_, fun m => .inl (hcount _), fun x hx => absurd hx (hmem x), nofun⟩,
    ⟨fun p => ?_, fun p _ => rfl, fun p => ?_, fun c => ?_, fun m => ?_⟩, fun sn p => ?_,
    ⟨fun c => rfl, nofun, nofun, nofun⟩, ⟨nofun, fun c hc => absurd hc (hmem _)⟩, ⟨nofun, nofun, nofun⟩,
    ⟨fun m hm => absurd hm (hmem _), fun m hm => absurd hm (hmem _), fun c b hc => absurd hc (hmem _)⟩,
    ⟨fun t ht => ?_, fun t ht => ?_, nofun⟩⟩
  · exact (hcount _).symm
  · exact (hcount _).symm
  · rw [hcount, hcount]
    rfl
  · rw [hcount]
    exact Nat.zero_le 1
  · rw [hcount]
    exact Nat.zero_le 1
  · exact le_of_eq_of_le (Multiset.countP_zero _) (Nat.zero_le 1)
  · rw [hcount, hcount]
    exact Nat.zero_le 1
  · simp [Sys.start]
  · obtain rfl := List.mem_singleton.1 ht
    trivial
  · obtain rfl := List.mem_singleton.1 ht
    exact id

/-- **Runs are made of moves**: what each move keeps holds in every state that is reached. -/
theorem run_moves (law : Law) {J : Hand → Sys → Prop} (hstart : J 0 Sys.start)
    (hmove : ∀ {gain loss H s H' s'}, Sound H s → J H s → Move law gain loss H s H' s' → J H' s')
    (h : ReachVia machine (Obeys law) s) :
    ∃ H, Sound H s ∧ J H s ∧ (s.fault = none → Rest H s) := by
  have hpath {H s H' s'} (h : Path law H s H' s') (hs : Sound H s) (hj : J H s) : J H' s' := by
    induction h with
    | refl => exact hj
    | tail hp hm ih => exact hmove (hs.path hp) ih hm
  refine h.invariant (I := fun s => ∃ H, Sound H s ∧ J H s ∧ (s.fault = none → Rest H s)) ?_ fun s e hI he hok => ?_
  · rintro s rfl
    exact ⟨0, sound_start, hstart, fun _ => .inl rfl⟩
  · obtain ⟨H, hs, hj, hrest⟩ := hI
    obtain ⟨hf, hstep⟩ := he
    obtain ⟨s', hs'⟩ := Option.isSome_iff_exists.1 hstep
    obtain ⟨H', hp, hrest'⟩ := step_path hs (hrest hf) hok hs'
    have happly : machine.apply s e = s' := by simp [machine, hs']
    exact happly ▸ ⟨H', hs.path hp, hpath hp hs hj, hrest'⟩

end StNvs.Server.Steps
