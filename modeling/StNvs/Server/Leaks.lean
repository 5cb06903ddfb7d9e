import StNvs.Server.Uses

/-! # Frames are deleted

A frame has two references for each client that it goes to, and one of the receiver that it comes from. They
are given back if it only goes to clients with a valid socket and no sender leaves its loop with a frame in
its queue (`frames_freed`). `send_msg` keeps the caller's reference when the socket is not valid, and `clear`
gives back one of the two, so that other frames stay (`frame_stays`). -/

namespace StNvs.Server.Leaks

open StNvs.Lib.Holders StNvs.Lib.Runs StNvs.Server.Proto StNvs.Server.Model StNvs.Server.References
open StNvs.Server.Moves StNvs.Server.Counts StNvs.Server.Messages StNvs.Server.Steps StNvs.Server.Registry
open StNvs.Server.Notify StNvs.Server.Viewers StNvs.Server.Uses Function Token
open StNvs.Server.Delivery (frame sentRun)

variable {law : Law} {gain loss H H' : Hand} {s s' : Sys} {c : CuPtr} {m : MsgPtr} {t : Task}

/-! ### Messages are deleted once -/

/-- A message that has been constructed is there or has been deleted once. -/
def Once (s : Sys) (m : MsgPtr) : Prop :=
  s.log.deletes.count m + (if (s.msg m).ref = 0 then 0 else 1) = if m ∈ s.log.news then 1 else 0

theorem Once.congr (h : Once s m) (hdeletes : s'.log.deletes = s.log.deletes) (hnews : s'.log.news = s.log.news)
    (href : (s'.msg m).ref = 0 ↔ (s.msg m).ref = 0) : Once s' m := by
  unfold Once at h ⊢
  rw [hdeletes, hnews]
  simpa only [href] using h

theorem once_new (hb : Balanced H s) (hj : ∀ m, Once s m) (k : Maker) (hdr : Header) (body : Body) (m : MsgPtr) :
    Once (s.newMsg (s.fresh k) hdr body) m := by
  have hold := hj m
  unfold Once at hold ⊢
  obtain rfl | hm := eq_or_ne m (s.fresh k)
  · have hnews := hb.fresh_not_mem k
    have href := hb.fresh_ref k
    simp [hnews, href] at hold
    simp [hold]
  · simpa [hm] using hold

theorem once_move (hs : Sound H s) (hj : ∀ m, Once s m) (h : Move law gain loss H s H' s') (m : MsgPtr) :
    Once s' m := by
  have hold := hj m
  cases h with
  | newMsg k hdr body _ _ => exact once_new hs.balanced hj k hdr body m
  | newDraft c hdr body => exact once_new hs.balanced hj _ hdr body m
  | writeDraft f hf => exact hold.congr rfl rfl (by simp [update_field Msg.ref, hf])
  | writeDevice f p hp hf _ => exact hold.congr rfl rfl (by simp [update_field Msg.ref, hf])
  | @addMsg _ _ d hd =>
    refine hold.congr rfl rfl ?_
    obtain rfl | hm := eq_or_ne m d
    · have := msg_ref_ne hs (.inl hd)
      simp [this]
    · simp [hm]
  | @dropMsg _ _ d h0 h1 =>
    refine hold.congr rfl rfl ?_
    obtain rfl | hm := eq_or_ne m d
    · simp only [Sys.modMsg_msg, update_self]
      omega
    · simp [hm]
  | @deleteMsg _ _ d h1 _ =>
    unfold Once at hold ⊢
    obtain rfl | hm := eq_or_ne m d
    · simpa [h1] using hold
    · simpa [hm, Ne.symm hm] using hold
  | _ =>
    exact hold.congr (by simp [Sys.notifyPu, Sys.notifyCu, Sys.fork, Sys.addPu, closed_log])
      (by simp [Sys.notifyPu, Sys.notifyCu, Sys.fork, Sys.addPu, closed_log])
      (by simp [Sys.notifyPu, Sys.notifyCu, Sys.fork, Sys.addPu, closed_msg])

/-! ### Frames -/

/-- The messages that a coroutine has yet to send or to hand on. -/
def pending : Task → List MsgPtr
  | .puFan _ m _ => [m]
  | t => batch t

/-- The receiver has handed the message to the clients, and their senders have sent or discarded it. -/
def Passed (s : Sys) (m : MsgPtr) : Prop := (∀ c < s.cus, m ∉ (s.cu c).queue) ∧ ∀ t ∈ s.tasks, m ∉ pending t

/-- A frame that is done with has no reference, and has been deleted once. -/
def FramesFreed (s : Sys) : Prop :=
  s.fault = none → ∀ m ∈ s.log.news, IsFrame m → Passed s m → (s.msg m).ref = 0 ∧ s.log.deletes.count m = 1

instance decidableIsFrame : DecidablePred IsFrame
  | ⟨.frame p, _⟩ => .isTrue ⟨p, rfl⟩
  | ⟨.device _, _⟩ | ⟨.client _, _⟩ => .isFalse fun ⟨_, h⟩ => nomatch h

/-- A frame goes to clients with a valid socket; a sender does not leave its loop with a frame in its
queue. -/
def spares (s : Sys) : Task → Bool
  | .puFan _ _ (c :: _) => (s.cu c).valid
  | .cuExit c => ∀ m ∈ (s.cu c).queue, ¬ IsFrame m
  | _ => true

def Lossless (s : Sys) (_ : Event) : Prop := ∀ t ∈ s.running, spares s t

theorem lossless_obeys {e : Event} (h : Lossless s e) : Obeys .lossless s e := obeys_of fun t ht hasks => by
  have hspares := h t ht
  cases hasks with
  | fan => exact fun _ => hspares
  | exits => exact fun _ => by simpa [spares] using hspares

/-- No reference to a frame is lost. -/
theorem lost_move (hs : Sound H s) (hj : ∀ m ∈ s.log.lost, ¬ IsFrame m) (h : Move .lossless gain loss H s H' s') :
    ∀ m ∈ s'.log.lost, ¬ IsFrame m := by
  have happend {l : List MsgPtr} (hl : ∀ m ∈ l, ¬ IsFrame m) : ∀ m ∈ l ++ s.log.lost, ¬ IsFrame m := fun m hm =>
    (List.mem_append.1 hm).elim (hl m) (hj m)
  cases h with
  | lose hlaw => exact happend (List.forall_mem_singleton.2 (hlaw rfl))
  | @deletePu _ _ p v h1 hv =>
    refine happend fun m hm => ?_
    rintro ⟨q, hq⟩
    exact Maker.noConfusion ((hs.made.pu p m hm).symm.trans hq)
  | clearCu h0 hlaw => exact happend (hlaw rfl)
  | _ => simpa [Sys.notifyPu, Sys.notifyCu, Sys.fork, Sys.addPu, closed_log] using hj

/-- Only the receiver and the senders have references to a frame. -/
theorem frame_tokens (hs : Sound H s) (hlost : ∀ m ∈ s.log.lost, ¬ IsFrame m) (hf : IsFrame m)
    (h : msg m ∈ tokens s) : ¬ Passed s m := by
  obtain ⟨p, hp⟩ := hf
  rintro ⟨hqueue, htasks⟩
  obtain ⟨t, ht, hg⟩ | ⟨q, -, hg⟩ | ⟨c, hc, hg⟩ | hg := mem_tokens.1 h
  · have hfit := hs.fit.fits t ht
    have hpending := htasks t ht
    cases t with
    | puFan p x viewers =>
      obtain rfl : m = x := by simpa [grants] using hg
      exact hpending (List.mem_singleton_self m)
    | puBatch p l | cuBatch c l => exact hpending (by simpa [grants, mem_msgs, pending, batch] using hg)
    | puWrite p x l | cuWrite c frame x l =>
      exact hpending (by simpa [grants, mem_msgs, pending, batch, or_comm] using hg)
    | park c x | parted c x | leave c x =>
      obtain rfl : m = x := by simpa [grants] using hg
      exact Maker.noConfusion (hp.symm.trans hfit)
    | _ => simp [grants] at hg
  · obtain ⟨x, hx, h⟩ | ⟨v, hv, h⟩ | ⟨c, -, h⟩ | ⟨c, -, h⟩ := mem_puGrants hg
    · obtain rfl := msg.inj h
      exact Maker.noConfusion (hp.symm.trans (hs.made.pu q m hx))
    · obtain rfl := msg.inj h
      exact Maker.noConfusion (hp.symm.trans (hs.made.video q m hv))
    · cases h
    · cases h
  · obtain ⟨x, hx, h⟩ | ⟨q, -, h⟩ := mem_cuGrants hg
    · obtain rfl := msg.inj h
      exact hqueue c hc hx
    · cases h
  · obtain ⟨x, hx, heq⟩ := mem_msgs.1 hg
    obtain rfl := msg.inj heq
    exact hlost m hx ⟨p, hp⟩

/-- **No frame is leaked**, if frames only go to clients with a valid socket and are not in the queue when a
sender leaves its loop. -/
theorem frames_freed (h : ReachVia machine Lossless s) : FramesFreed s := by
  have hstart : (∀ m, Once Sys.start m) ∧ ∀ m ∈ Sys.start.log.lost, ¬ IsFrame m := ⟨fun m => rfl, nofun⟩
  obtain ⟨H, hs, ⟨honce, hlost⟩, hrest⟩ := run_moves .lossless
    (J := fun _ s => (∀ m, Once s m) ∧ ∀ m ∈ s.log.lost, ¬ IsFrame m) hstart
    (fun hs hj h => ⟨once_move hs hj.1 h, lost_move hs hj.2 h⟩) (h.mono fun s e => lossless_obeys)
  intro hfault m hnews hframe hpassed
  have href : (s.msg m).ref = 0 := by
    rw [hs.balanced.msg, Nat.add_eq_zero_iff]
    refine ⟨Multiset.count_eq_zero.2 fun hm => ?_, Multiset.count_eq_zero.2 fun hm => ?_⟩
    · exact frame_tokens hs hlost hframe (Parting.rest_mem (hrest hfault) nofun hm) hpassed
    · obtain ⟨p, hp⟩ := hframe
      obtain ⟨c, hc⟩ := hs.contents.drafts m hm
      exact Maker.noConfusion (hp.symm.trans hc)
  have := honce m
  exact ⟨href, by simpa [Once, href, hnews] using this⟩

/-! ### Runs -/

/-- It arrives for a client that waits for it, and is written. -/
def writtenRun : List Event := sentRun ++ [.go .done]

/-- It arrives for a client that has left, and whose entry has stayed. -/
def lostRun : List Event := lateRun ++ frameRun 2

instance decidableLossless (s : Sys) (e : Event) : Decidable (Lossless s e) :=
  inferInstanceAs (Decidable (∀ t ∈ s.running, spares s t))

theorem writtenRun_freed : FramesFreed (writtenRun.foldl machine.apply Sys.start) :=
  frames_freed ((ReachVia.init rfl).foldl writtenRun (by decide +kernel))

theorem frame_stays : ¬ ∀ s, Reach machine s → FramesFreed s := by
  intro h
  have hreach : Reach machine (lostRun.foldl machine.apply Sys.start) :=
    (ReachVia.init rfl).foldl lostRun (by decide +kernel)
  have hfault : (lostRun.foldl machine.apply Sys.start).fault = none := by decide +kernel
  have hnews : (lostRun.foldl machine.apply Sys.start).log.news = [frame, request, videoCmd] := by decide +kernel
  have hpassed : Passed (lostRun.foldl machine.apply Sys.start) frame := by
    unfold Passed
    decide +kernel
  have href : ((lostRun.foldl machine.apply Sys.start).msg frame).ref = 1 := by decide +kernel
  have hfreed := h _ hreach hfault frame (by rw [hnews]; exact List.mem_cons_self) ⟨0, rfl⟩ hpassed
  exact absurd (href.symm.trans hfreed.1) Nat.one_ne_zero

end StNvs.Server.Leaks
