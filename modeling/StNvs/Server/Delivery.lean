import StNvs.Server.Viewers

/-! # What clients are sent

The messages that are queued for a client while its socket is valid are handed to `st_write` in order, each
once, until the sender ends (`handed_order`): the log of what was queued is what has been handed over, then
the batch of the sender, then the queue. What is handed over is the message as it was when it was queued,
since messages that are shared do not change.

The sender does not learn how a write went, and goes on after one that has failed. What has been sent in
full is in order (`delivery_order`) as long as no write succeeds after such a one (`delivery_skips`). -/

namespace StNvs.Server.Delivery

open StNvs.Lib.Holders StNvs.Lib.Runs StNvs.Server.Proto StNvs.Server.Model StNvs.Server.References
open StNvs.Server.Moves StNvs.Server.Counts StNvs.Server.Rights StNvs.Server.Sessions StNvs.Server.Messages
open StNvs.Server.Steps StNvs.Server.Registry StNvs.Server.Notify StNvs.Server.Parting Function Token

variable {law : Law} {gain loss H H' : Hand} {s s' : Sys} {c : CuPtr} {m : MsgPtr} {t u : Task}
variable {b b' : Option (List MsgPtr)}

/-- What is written for a message: the header in network byte order, with the serial number of the request
of the client in a frame, and as many bytes of the body as it says; the body has them. -/
def Carries (x : Sent) (f : Frame) : Prop :=
  f.msg = x.msg ∧ x.hdr.bodylen.toNat ≤ x.body.length ∧
    f.bytes = bigEndian x.hdr.cmdno ++ bigEndian x.hdr.bodylen ++ bigEndian x.hdr.errcode ++
      bigEndian (if x.hdr.cmdno = hmcmdRecvVideo then f.serial else x.hdr.serialid) ++
      x.body.take x.hdr.bodylen.toNat

theorem carries_msgs {l : List Sent} {frames : List Frame} (h : List.Forall₂ Carries l frames) :
    l.map Sent.msg = frames.map Frame.msg := by
  rw [← List.forall₂_eq_eq_eq, List.forall₂_map_left_iff, List.forall₂_map_right_iff]
  exact h.imp fun _ _ hx => hx.1.symm

/-- The frames that have been sent in full. -/
def sentInFull (l : List Write) : List Frame := (l.filter Write.full).map Write.frame

/-- What has been handed to `st_write` for a client is a prefix of what has been queued for it. -/
def HandedInOrder (s : Sys) : Prop :=
  ∀ c, ∃ l, l <+: s.log.sent c ∧ List.Forall₂ Carries l ((s.log.written c).map Write.frame)

/-- So is what has been sent in full. -/
def InOrder (s : Sys) : Prop :=
  ∀ c, ∃ l, l <+: s.log.sent c ∧ List.Forall₂ Carries l (sentInFull (s.log.written c))

/-- The writes before one that returns. -/
def earlier (s : Sys) : Task → List Write
  | .cuWrite c _ _ _ => s.log.written c
  | _ => []

/-- A write to a client succeeds only if none to it has failed before, or has been cut short. -/
def Steady (s : Sys) (e : Event) : Prop := ∀ t ∈ s.running, e = .go .done → ∀ x ∈ earlier s t, x.full

/-- The body has the length that the header says, as `Whole` for a message. -/
def Sized (x : Sent) : Prop := x.hdr.bodylen ≤ 1024 * 1024 ∧ x.hdr.bodylen.toNat ≤ x.body.length

theorem carries_encode {x : Sent} (serial : UInt32) (hx : Sized x) : Carries x (x.encode serial) := by
  refine ⟨rfl, hx.2, ?_⟩
  have hlen : (x.hdr.bodylen + 16).toNat = 16 + x.hdr.bodylen.toNat := by
    have h1 : x.hdr.bodylen.toNat ≤ 1048576 := UInt32.le_iff_toNat_le.1 hx.1
    rw [UInt32.toNat_add]
    show (x.hdr.bodylen.toNat + 16) % 2 ^ 32 = _
    omega
  have hfull (hdr : Header) : (memory (transferOut hdr) ++ x.body.take x.hdr.bodylen.toNat).length =
      16 + x.hdr.bodylen.toNat := by
    rw [List.length_append, memory_length, List.length_take, min_eq_left hx.2, headerSize]
  simp only [Sent.encode, hlen]
  rw [List.take_of_length_le (hfull _).le, memory_transferOut]
  split <;> rfl

/-! ### The sender -/

/-- There is one sender, and one batch. -/
theorem sender_unique (hs : Sound H s) (hb : cuSender c b ∈ H + tokens s) (hb' : cuSender c b' ∈ H + tokens s) :
    b = b' := by
  by_contra hne
  obtain ⟨X, hX⟩ := Multiset.exists_cons_of_mem hb
  have hmem : cuSender c b' ∈ X :=
    (Multiset.mem_cons.1 (hX ▸ hb')).resolve_left fun h => hne (cuSender.inj h).2.symm
  have h1 : 0 < X.countP (Sends c) := Multiset.countP_pos.2 ⟨_, hmem, rfl⟩
  have h2 := hs.exclusive.cuSender c
  rw [hX, Multiset.countP_cons_of_pos X (show Sends c (cuSender c b) from rfl)] at h2
  omega

/-- A sender that has given up has no batch. -/
theorem no_batch (hs : Sound H s) (hb : cuSender c none ∈ H + tokens s) {batch : List MsgPtr} :
    cuSender c (some batch) ∉ H + tokens s := fun h =>
  Option.some_ne_none batch (sender_unique hs h hb)

theorem sent_move (hs : Sound H s) (h : Move law gain loss H s H' s') (c : CuPtr) :
    s'.log.sent c = s.log.sent c ∨
      ∃ m, s'.log.sent c = s.log.sent c ++ [s.content m] ∧ c < s.cus ∧ Whole (s.msg m) := by
  cases h with
  | @pushCu _ _ d m hvalid h0 hmaker hwhole hclosing =>
    obtain rfl | hd := eq_or_ne c d
    · exact .inr ⟨m, by simp [Sys.notifyCu], hs.balanced.cu_lt h0, hwhole⟩
    · exact .inl (by simp [Sys.notifyCu, hd])
  | _ => exact .inl (by simp [Sys.notifyPu, Sys.fork, Sys.addPu, closed_log])

theorem written_move (hs : Sound H s) (h : Move law gain loss H s H' s') (c : CuPtr) :
    s'.log.written c = s.log.written c ∨ c < s.cus ∧ law ≠ .silent := by
  cases h with
  | @noteWritten _ _ d m b x hframe hlaw =>
    obtain rfl | hd := eq_or_ne c d
    · exact .inr ⟨hs.balanced.born (cuSender c (some (m :: b))) (by simp), hlaw⟩
    · exact .inl (by simp [hd])
  | _ => exact .inl (by simp [Sys.notifyPu, Sys.notifyCu, Sys.fork, Sys.addPu, closed_log])

/-! ### What is queued is written -/

/-- What has been handed over, and what the sender has yet to hand over. -/
def Split (H : Hand) (s : Sys) (c : CuPtr) : Prop :=
  ∃ l rest, s.log.sent c = l ++ rest ∧ List.Forall₂ Carries l ((s.log.written c).map Write.frame) ∧
    ∀ batch, cuSender c (some batch) ∈ H + tokens s → rest = (batch ++ (s.cu c).queue).map s.content

/-- What is queued for a client is what has been handed over, the batch of the sender and the queue. -/
structure Delivered (H : Hand) (s : Sys) : Prop where
  fresh : ∀ c, s.cus ≤ c → s.log.sent c = [] ∧ s.log.written c = []
  sized : ∀ c, ∀ x ∈ s.log.sent c, Sized x
  split : ∀ c, Split H s c

theorem queue_mem (hc : c < s.cus) (hm : m ∈ (s.cu c).queue) : msg m ∈ H + tokens s :=
  Multiset.mem_add.2 (.inr (mem_tokens.2 (.inr (.inr (.inl ⟨c, hc, by simp [cuGrants, mem_msgs, hm]⟩)))))

/-- What a sender has yet to write does not change. -/
theorem contents_stay (hs : Sound H s) (h : Move law gain loss H s H' s') {batch : List MsgPtr}
    (hb : cuSender c (some batch) ∈ H + tokens s) (hb' : cuSender c (some batch) ∈ H' + tokens s')
    (hq : (s'.cu c).queue = (s.cu c).queue) :
    (batch ++ (s'.cu c).queue).map s'.content = (batch ++ (s.cu c).queue).map s.content := by
  have hs' := hs.move h
  rw [hq]
  refine List.map_congr_left fun m hm => ?_
  obtain hm | hm := List.mem_append.1 hm
  · obtain ⟨hmem, hmaker⟩ := hs.contents.backed c batch hb m hm
    exact content_stays hs.balanced h hmem (hs'.contents.backed c batch hb' m hm).1 hmaker
  · refine content_stays hs.balanced h (queue_mem (hs.balanced.born _ hb) hm) ?_ (hs.made.cu c m hm)
    exact queue_mem (hs'.balanced.born _ hb') (hq.symm ▸ hm)

/-- Nothing happens to what has been sent to a client and to what its sender has. -/
theorem split_keep (hs : Sound H s) (h : Move law gain loss H s H' s') (hsplit : Split H s c)
    (hsent : s'.log.sent c = s.log.sent c) (hwritten : s'.log.written c = s.log.written c)
    (hq : (s'.cu c).queue = (s.cu c).queue) (hgain : ∀ batch, cuSender c (some batch) ∉ gain) : Split H' s' c := by
  obtain ⟨l, rest, h1, h2, h3⟩ := hsplit
  refine ⟨l, rest, hsent.trans h1, hwritten ▸ h2, fun batch hbatch => ?_⟩
  have hbefore := (mem_after hs.balanced h hbatch).resolve_left (hgain batch)
  rw [contents_stay hs h hbefore hbatch hq]
  exact h3 batch hbefore

/-- A message is queued. -/
theorem split_push (hsplit : Split H s c) (hafter : ∀ batch,
      cuSender c (some batch) ∈ H' + tokens ((s.cuPush c m).notifyCu c) → cuSender c (some batch) ∈ H + tokens s) :
    Split H' ((s.cuPush c m).notifyCu c) c := by
  obtain ⟨l, rest, h1, h2, h3⟩ := hsplit
  refine ⟨l, rest ++ [s.content m], ?_, ?_, fun batch hbatch => ?_⟩
  · simp [Sys.notifyCu, h1]
  · simpa [Sys.notifyCu] using h2
  · have hcontent : ((s.cuPush c m).notifyCu c).content = s.content := by
      funext x
      simp [Sys.content, Sys.notifyCu]
    rw [hcontent, h3 batch (hafter batch hbatch)]
    simp [Sys.notifyCu]

/-- The sender takes what is queued. -/
theorem split_backup {X : Hand} (hs' : Sound H' (s.modCu c fun o => { o with queue := [] }))
    (hsplit : Split (X + {cuSender c (some [])}) s c)
    (hmem : cuSender c (some (s.cu c).queue) ∈ H' + tokens (s.modCu c fun o => { o with queue := [] })) :
    Split H' (s.modCu c fun o => { o with queue := [] }) c := by
  obtain ⟨l, rest, h1, h2, h3⟩ := hsplit
  refine ⟨l, rest, h1, h2, fun batch hbatch => ?_⟩
  obtain rfl : batch = (s.cu c).queue := Option.some.inj (sender_unique hs' hbatch hmem)
  rw [h3 [] (by simp)]
  simp [Sys.content]

/-- The first message of the batch has been handed over. -/
theorem split_written {X : Hand} {batch : List MsgPtr} {x : Write}
    (hframe : x.frame = (s.content m).encode x.frame.serial) (hsized : ∀ x ∈ s.log.sent c, Sized x)
    (hs' : Sound (X + {cuSender c (some batch)}) (s.noteWritten c x))
    (hsplit : Split (X + {cuSender c (some (m :: batch))}) s c) :
    Split (X + {cuSender c (some batch)}) (s.noteWritten c x) c := by
  obtain ⟨l, rest, h1, h2, h3⟩ := hsplit
  have hrest : rest = s.content m :: (batch ++ (s.cu c).queue).map s.content := h3 (m :: batch) (by simp)
  have hcarries : Carries (s.content m) x.frame := by
    have := carries_encode x.frame.serial (hsized (s.content m) (by rw [h1, hrest]; simp))
    rwa [← hframe] at this
  refine ⟨l ++ [s.content m], (batch ++ (s.cu c).queue).map s.content, ?_, ?_, fun b hb => ?_⟩
  · simp [h1, hrest]
  · simpa using List.rel_append h2 (.cons hcarries .nil)
  · obtain rfl : b = batch := Option.some.inj (sender_unique hs' hb (by simp))
    rfl

/-- The sender has nothing more to write. -/
theorem split_end (hsplit : Split H s c) (hsent : s'.log.sent c = s.log.sent c)
    (hwritten : s'.log.written c = s.log.written c) (hb : ∀ batch, cuSender c (some batch) ∉ H' + tokens s') :
    Split H' s' c := by
  obtain ⟨l, rest, h1, h2, -⟩ := hsplit
  exact ⟨l, rest, hsent.trans h1, hwritten ▸ h2, fun batch hbatch => absurd hbatch (hb batch)⟩

theorem split_move (hs : Sound H s) (hj : Delivered H s) (h : Move law gain loss H s H' s') (c : CuPtr) :
    Split H' s' c := by
  have hs' := hs.move h
  have hold := hj.split c
  have hkeep := split_keep hs h hold
  have hafter {t : Token} (ht : t ∈ H' + tokens s') (hgain : t ∉ gain) : t ∈ H + tokens s :=
    (mem_after hs.balanced h ht).resolve_left hgain
  cases h with
  | newCu =>
    obtain rfl | hc := eq_or_ne c s.cus
    · obtain ⟨h1, h2⟩ := hj.fresh s.cus le_rfl
      refine ⟨[], [], h1, by simp [h2], fun batch hb => ?_⟩
      obtain rfl : batch = [] := Option.some.inj (sender_unique hs' hb (by simp))
      simp
    · exact hkeep rfl rfl (by simp [hc]) (by simp [hc])
  | @pushCu _ _ d m hvalid h0 hmaker hwhole hclosing =>
    obtain rfl | hd := eq_or_ne c d
    · exact split_push hold fun batch hb => hafter hb (Multiset.notMem_zero _)
    · exact hkeep (by simp [Sys.notifyCu, hd]) (by simp [Sys.notifyCu]) (by simp [Sys.notifyCu, hd]) (by simp)
  | @backupCu _ _ d h0 =>
    obtain rfl | hd := eq_or_ne c d
    · exact split_backup hs' hold (by simp)
    · exact hkeep rfl rfl (by simp [hd]) (by simp [hd])
  | @noteWritten _ _ d m batch x hframe _ =>
    obtain rfl | hd := eq_or_ne c d
    · exact split_written hframe (hj.sized c) hs' hold
    · exact hkeep rfl (by simp [hd]) rfl (by simp [hd])
  | @giveUp _ _ d b =>
    obtain rfl | hd := eq_or_ne c d
    · exact split_end hold rfl rfl fun batch => no_batch hs' (by simp)
    · exact hkeep rfl rfl rfl (by simp)
  | @clearCu X _ d h0 hlaw =>
    obtain rfl | hd := eq_or_ne c d
    · exact split_end hold rfl rfl fun batch hb => no_batch hs (by simp) (hafter hb (by simp))
    · exact hkeep rfl rfl (by simp [hd]) (by simp)
  | @deleteCu _ _ d h1 hq =>
    obtain rfl | hd := eq_or_ne c d
    · exact hkeep rfl rfl (by simp [hq]) (by simp)
    · exact hkeep rfl rfl (by simp [hd]) (by simp)
  | _ =>
    exact hkeep (by simp [Sys.notifyPu, Sys.fork, Sys.addPu, closed_log])
      (by simp [Sys.notifyPu, Sys.fork, Sys.addPu, closed_log])
      (by simp [Sys.notifyPu, Sys.fork, Sys.addPu, closed_cu, update_field CuProxy.queue]) (by simp)

theorem Delivered.move (hs : Sound H s) (hj : Delivered H s) (h : Move law gain loss H s H' s') :
    Delivered H' s' := by
  refine ⟨fun c hc => ?_, fun c x hx => ?_, split_move hs hj h⟩
  · have hc := le_trans (cus_le h) hc
    obtain ⟨h1, h2⟩ := hj.fresh c hc
    refine ⟨?_, ?_⟩
    · obtain h3 | ⟨m, -, hlt, -⟩ := sent_move hs h c
      · exact h3.trans h1
      · exact absurd hlt (not_lt.2 hc)
    · obtain h3 | ⟨hlt, -⟩ := written_move hs h c
      · exact h3.trans h2
      · exact absurd hlt (not_lt.2 hc)
  · obtain h3 | ⟨m, h3, -, hwhole⟩ := sent_move hs h c
    · exact hj.sized c x (h3 ▸ hx)
    · rw [h3, List.mem_append, List.mem_singleton] at hx
      obtain hx | rfl := hx
      · exact hj.sized c x hx
      · exact hwhole

/-! ### What is handed to `st_write` -/

/-- In a step: what is handed to `st_write` for a client is made from the message and the `_video_serial` of
then, and a write that has returned was handed over before and went as the event says. -/
structure HandsOver (s : Sys) (e : Event) (s' : Sys) : Prop where
  handed : ∀ c frame m batch, .cuWrite c frame m batch ∈ s'.tasks →
    .cuWrite c frame m batch ∈ s.tasks ∨ frame = (s.content m).encode (s.cu c).videoSerial
  written : ∀ c, s'.log.written c = s.log.written c ∨ ∃ frame m batch,
    s.running = some (.cuWrite c frame m batch) ∧
    s'.log.written c = s.log.written c ++ [⟨frame, decide (e = .go .done)⟩]

variable {e : Event}

/-- No client's sender comes to `st_write`, or from it. -/
def Quiet (s s' : Sys) : Prop := (∀ t ∈ s'.tasks, Writes t → t ∈ s.tasks) ∧ s'.log.written = s.log.written

theorem Quiet.trans {s'' : Sys} (h : Quiet s s') (h' : Quiet s' s'') : Quiet s s'' :=
  ⟨fun t ht hw => h.1 t (h'.1 t ht hw) hw, h'.2.trans h.2⟩

theorem Quiet.hands (h : Quiet s s') : HandsOver s e s' :=
  ⟨fun _ _ _ _ ht => .inl (h.1 _ ht trivial), fun _ => .inl (by rw [h.2])⟩

theorem quiet_path (hs : Sound H s) (h : Path .silent H s H' s') : Quiet s s' := by
  induction h with
  | refl => exact ⟨fun t ht _ => ht, rfl⟩
  | tail hp hm ih =>
    have hs₁ := hs.path hp
    refine ih.trans ⟨fun t ht hw => ?_, ?_⟩
    · obtain ht | ht := mem_tasks.1 ht
      · obtain h | ⟨-, -, h⟩ := awake_move hs₁.fit.fits hm ht
        · exact mem_tasks.2 (.inl h)
        · exact absurd hw (h rfl)
      · obtain h | ⟨h, -, -⟩ := conds_move hm ht
        · exact mem_tasks.2 (.inr h)
        · cases t <;> first | exact absurd h id | exact absurd hw id
    · funext c
      exact (written_move hs₁ hm c).resolve_right fun h => h.2 rfl

theorem quiet_bind {o : Outcome} {f : Sys → Outcome} (ho : Quiet s (Sys.ended o))
    (hf : ∀ s', Quiet s' (Sys.ended (f s'))) : Quiet s (Sys.ended (o >>= f)) := by
  cases o with
  | ok s' => exact ho.trans (hf s')
  | error s' => exact ho

theorem quiet_go (ht : ¬ Writes t) : Quiet s (Sys.ended (s.go t)) := by
  refine ⟨fun u hu hw => ?_, rfl⟩
  obtain rfl | hu := Sys.mem_place (k := .running) hu
  · exact absurd hw ht
  · exact hu

theorem quiet_touch : Quiet s (Sys.ended (s.touch m)) := by
  unfold Sys.touch
  split <;> exact ⟨fun t ht _ => ht, rfl⟩

theorem quiet_releaseMsg : Quiet s (Sys.ended (s.releaseMsg m)) :=
  quiet_bind quiet_touch fun s' => by split <;> exact ⟨fun t ht _ => ht, rfl⟩

theorem quiet_releaseAll (l : List MsgPtr) : Quiet s (Sys.ended (s.releaseAll l)) := by
  induction l generalizing s with
  | nil => exact ⟨fun t ht _ => ht, rfl⟩
  | cons m l ih => exact quiet_bind quiet_releaseMsg fun s' => ih

theorem hands_bind {o : Outcome} {f : Sys → Outcome} (ho : Quiet s (Sys.ended o))
    (hf : ∀ s', o = .ok s' → HandsOver s e (Sys.ended (f s'))) : HandsOver s e (Sys.ended (o >>= f)) := by
  cases o with
  | ok s' => exact hf s' rfl
  | error s' => exact ho.hands

/-- The loop of a sender hands over a message as it is. -/
theorem cuBatch_hands {r : Result} {batch : List MsgPtr} :
    HandsOver s e (Sys.ended (s.cuBatch c r (m :: batch))) := by
  refine hands_bind quiet_touch fun s₁ h => ?_
  obtain ⟨rfl, -⟩ := Sys.touch_ok h
  have hquiet : Quiet s (s.noteUse m) := ⟨fun t ht _ => ht, rfl⟩
  split
  · exact Quiet.hands (hquiet.trans ⟨fun t ht _ => ht, rfl⟩)
  · split
    · refine ⟨fun d frame x b ht => ?_, fun _ => .inl rfl⟩
      obtain ht | ht := Sys.mem_place (k := .io) ht
      · obtain ⟨rfl, rfl, rfl, rfl⟩ := Task.cuWrite.inj ht
        exact .inr rfl
      · exact .inl ht
    · exact (hquiet.trans (quiet_bind (quiet_releaseAll _) fun _ => quiet_go id)).hands

/-- A write has returned. -/
theorem cuWritten_hands {x : Write} {batch : List MsgPtr} :
    Quiet (s.noteWritten c x) (Sys.ended (s.cuWritten c m x batch)) :=
  quiet_bind quiet_releaseMsg fun _ => quiet_go id

theorem hands_over (hs : Sound H s) (hrest : Rest H s) (he : s.step e = some s') : HandsOver s e s' := by
  by_cases hsilent : ∀ t, s.running = some t → Meets .silent s t
  · obtain ⟨H', hp, -⟩ := step_path hs hrest hsilent he
    exact (quiet_path hs hp).hands
  · obtain ⟨t, hrun, hnot⟩ : ∃ t, s.running = some t ∧ ¬ Meets .silent s t := by simpa using hsilent
    have hasks : Asks .silent t := by
      by_contra h
      exact hnot (meets_of fun h' => absurd h' h)
    have htake : Quiet s { s with running := none } := ⟨fun u hu _ => by simp [Sys.tasks] at hu ⊢; tauto, rfl⟩
    cases e with
    | deliver u => simp [Sys.step, hrun] at he
    | schedule => simp [Sys.step, hrun] at he
    | go r =>
      simp only [Sys.step, hrun] at he
      split at he <;> obtain rfl := Option.some.inj he
      · exact Quiet.hands (htake.trans ⟨fun u hu _ => hu, rfl⟩)
      · cases hasks with
        | @hands c m batch =>
          have h : HandsOver { s with running := none } (.go r)
            (Sys.ended (Sys.cuBatch { s with running := none } c r (m :: batch))) := cuBatch_hands
          exact ⟨fun d f x b ht => (h.handed d f x b ht).imp_left fun ht => htake.1 _ ht trivial,
            fun d => (h.written d).imp_right (by rintro ⟨f, m, b, ⟨⟩, -⟩)⟩
        | @writes c frame m batch =>
          have h : Quiet (Sys.noteWritten { s with running := none } c ⟨frame, r = .done⟩)
            (Sys.ended (Sys.cuWritten { s with running := none } c m ⟨frame, r = .done⟩ batch)) := cuWritten_hands
          refine ⟨fun d f x b ht => .inl (htake.1 _ (h.1 _ ht trivial) trivial), fun d => ?_⟩
          obtain rfl | hd := eq_or_ne d c
          · exact .inr ⟨frame, m, batch, hrun, (congrFun h.2 d).trans (by simp)⟩
          · exact .inl ((congrFun h.2 d).trans (by simp [hd]))

/-! ### Runs -/

theorem reach_delivered (h : Reach machine s) : ∃ H, Sound H s ∧ Delivered H s ∧ (s.fault = none → Rest H s) :=
  run_moves .any ⟨fun _ _ => ⟨rfl, rfl⟩, nofun, fun _ => ⟨[], [], rfl, .nil, nofun⟩⟩
    (fun hs hj h => hj.move hs h) (h.mono fun _ _ _ => obeys_any)

/-- **What is queued for a client is handed to `st_write` in order**, however the writes go. -/
theorem handed_order (h : Reach machine s) : HandedInOrder s := fun c => by
  obtain ⟨H, -, hj, -⟩ := reach_delivered h
  obtain ⟨l, rest, h1, h2, -⟩ := hj.split c
  exact ⟨l, h1 ▸ List.prefix_append l rest, h2⟩

theorem reach_hands (h : Reach machine s) (he : machine.enabled s e) : HandsOver s e (machine.apply s e) := by
  obtain ⟨H, hs, -, hrest⟩ := reach_delivered h
  obtain ⟨s', hs'⟩ := Option.isSome_iff_exists.1 he.2
  have happly : machine.apply s e = s' := by simp [machine, hs']
  exact happly ▸ hands_over hs (hrest he.1) hs'

/-- No write has succeeded after one that has not. -/
def Unbroken (s : Sys) : Prop := ∀ c, (s.log.written c).filter Write.full <+: s.log.written c

theorem unbroken_hands (hj : Unbroken s) (h : HandsOver s e s') (hok : Steady s e) : Unbroken s' := fun c => by
  obtain hsame | ⟨frame, m, batch, hrun, hnew⟩ := h.written c
  · rw [hsame]
    exact hj c
  · rw [hnew, List.filter_append]
    by_cases hfull : e = .go .done
    · have hall : (s.log.written c).filter Write.full = s.log.written c :=
        List.filter_eq_self.2 fun x hx => hok _ hrun hfull x hx
      simp [hall, hfull]
    · simpa [hfull] using (hj c).trans (List.prefix_append _ _)

theorem unbroken_reach (h : ReachVia machine Steady s) : Unbroken s := by
  refine h.invariant_of (I := Reach machine) (fun s hs => hs.reach) ?_ fun s e hreach hj he hok => ?_
  · rintro s rfl c
    exact List.prefix_rfl
  · exact unbroken_hands hj (reach_hands hreach he) hok

/-- **Clients are sent what has been queued for them, in order**, when no write succeeds after one that has
not; and each step hands over what the messages say. -/
theorem delivery_order (h : ReachVia machine Steady s) :
    InOrder s ∧ ∀ e, machine.enabled s e → HandsOver s e (machine.apply s e) := by
  refine ⟨fun c => ?_, fun e he => reach_hands h.reach he⟩
  obtain ⟨l, hl, hcarries⟩ := handed_order h.reach c
  have hpre : sentInFull (s.log.written c) <+: (s.log.written c).map Write.frame := (unbroken_reach h c).map _
  rw [List.prefix_iff_eq_take.1 hpre]
  exact ⟨l.take _, (List.take_prefix _ _).trans hl, List.forall₂_take _ hcarries⟩

instance decidableSteady (s : Sys) (e : Event) : Decidable (Steady s e) :=
  inferInstanceAs (Decidable (∀ t ∈ s.running, _))

/-- A frame of three bytes that has arrived. -/
def frame : MsgPtr := ⟨.frame 0, 2⟩

def frameWrite : Task := .cuWrite 0 (Sent.encode ⟨frame, frameHdr, Sys.filled 3 [1, 2, 3]⟩ 7) frame []

/-- The answer is sent, and then the frame. -/
def sentRun : List Event := answeredRun ++ frameRun 2 ++ next ++ [.go .done] ++ wake frameWrite .done

theorem sentRun_order : ∃ s, s = sentRun.foldl machine.apply Sys.start ∧
    (sentInFull (s.log.written 0)).length = 2 ∧ InOrder s ∧
    ∀ e, machine.enabled s e → HandsOver s e (machine.apply s e) :=
  ⟨_, rfl, by decide +kernel, delivery_order ((ReachVia.init rfl).foldl sentRun (by decide +kernel))⟩

/-- The write of the answer fails, and the frame is sent. -/
def skippedRun : List Event :=
  openRun ++ wake (.cuWrite 0 answer request []) .failed ++ [.go .done] ++ frameRun 2 ++ next ++ [.go .done] ++
    wake frameWrite .done

/-- The frame is the first that is sent in full, and not the first that was queued. -/
theorem delivery_skips : ¬ ∀ s, Reach machine s → InOrder s := by
  intro h
  have hreach : Reach machine (skippedRun.foldl machine.apply Sys.start) :=
    (ReachVia.init rfl).foldl skippedRun (by decide +kernel)
  have hsent : ((skippedRun.foldl machine.apply Sys.start).log.sent 0).map Sent.msg = [request, frame] := by
    decide +kernel
  have hwritten : (sentInFull ((skippedRun.foldl machine.apply Sys.start).log.written 0)).map Frame.msg = [frame] := by
    decide +kernel
  obtain ⟨l, hl, hcarries⟩ := h _ hreach 0
  have hmsgs : l.map Sent.msg = [frame] := (carries_msgs hcarries).trans hwritten
  have hpre := hl.map Sent.msg
  rw [hsent, hmsgs] at hpre
  exact absurd hpre (by decide)

end StNvs.Server.Delivery
