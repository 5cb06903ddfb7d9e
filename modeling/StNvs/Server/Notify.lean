import StNvs.Server.Registry

/-! # Senders that wait

`handle_send` waits without another look at its queue and its socket, and a signal is lost when nobody
waits. If it only comes to `wait` with nothing queued and a valid socket, then whatever is queued and
whoever closes the socket while it waits signals it (`senders_calm`). It may come there otherwise: a message
that is queued while it is in `st_write` stays in the queue (`message_missed`). -/

namespace StNvs.Server.Notify

open StNvs.Lib.Holders StNvs.Lib.Runs StNvs.Server.Proto StNvs.Server.Model StNvs.Server.References
open StNvs.Server.Moves StNvs.Server.Counts StNvs.Server.Rights StNvs.Server.Sessions StNvs.Server.Messages
open StNvs.Server.Steps StNvs.Server.Registry Function Token

variable {law : Law} {gain loss H H' : Hand} {s s' : Sys} {p : PuPtr} {c : CuPtr} {t u : Task}

/-! ### A signal reaches the sender -/

theorem signal_conds : (s.signal t u).conds = s.conds.erase t := by
  unfold Sys.signal
  split
  · rfl
  next h => exact (List.erase_of_not_mem h).symm

theorem notifyPu_conds : (s.notifyPu p).conds = s.conds.erase (.puWait p) := signal_conds

theorem notifyCu_conds : (s.notifyCu c).conds = s.conds.erase (.cuWait c) := signal_conds

theorem not_mem_erase {l : List Task} (h : l.count t ≤ 1) : t ∉ l.erase t := by
  rw [← List.count_eq_zero, List.count_erase_self]
  omega

theorem held_conds_le {P : Token → Prop} [DecidablePred P] :
    (held grants s.conds).countP P ≤ (H + tokens s).countP P := by
  refine Multiset.countP_le_of_le P ?_
  calc held grants s.conds ≤ held grants s.tasks := by
        rw [held_tasks]
        exact Multiset.le_add_left _ _
    _ ≤ tokens s := by
        rw [tokens, add_assoc, add_assoc]
        exact Multiset.le_add_right _ _
    _ ≤ H + tokens s := Multiset.le_add_left _ _

/-- One coroutine at most is in `wait` for a device. -/
theorem count_puWait (hs : Sound H s) : s.conds.count (.puWait p) ≤ 1 :=
  calc s.conds.count (.puWait p)
      ≤ (held grants s.conds).countP (puSender p = ·) := count_le_countP (b := puSender p) (by simp [grants]) rfl
    _ ≤ (H + tokens s).countP (puSender p = ·) := held_conds_le
    _ ≤ 1 := hs.exclusive.puSender p

theorem count_cuWait (hs : Sound H s) : s.conds.count (.cuWait c) ≤ 1 :=
  calc s.conds.count (.cuWait c)
      ≤ (held grants s.conds).countP (Sends c) := count_le_countP (b := cuSender c (some [])) (by simp [grants]) rfl
    _ ≤ (H + tokens s).countP (Sends c) := held_conds_le
    _ ≤ 1 := hs.exclusive.cuSender c

theorem closed_conds : ∃ l : List Task, l.count (.cuWait c) ≤ s.conds.count (.cuWait c) ∧
    (closed s c).conds = l.erase (.cuWait c) := by
  unfold closed
  split
  · exact ⟨s.conds, le_rfl, notifyCu_conds⟩
  next m _ =>
    refine ⟨s.conds.erase (.park c m), List.Sublist.count_le _ List.erase_sublist, ?_⟩
    rw [notifyCu_conds, Sys.modCu_conds, signal_conds, Sys.modCu_conds]

/-! ### The senders -/

/-- A sender that waits and has not been signalled has nothing to do. -/
def NothingMissed (s : Sys) : Prop :=
  (∀ p, .puWait p ∈ s.conds → (s.pu p).queue = [] ∧ (s.pu p).valid) ∧
    ∀ c, .cuWait c ∈ s.conds → (s.cu c).queue = [] ∧ (s.cu c).valid

/-- What holds of a sender when it comes to `wait`. -/
def ready (s : Sys) : Task → Bool
  | .puSend p | .puBatch p [] => (s.pu p).queue = [] ∧ (s.pu p).valid
  | .cuSend c | .cuBatch c [] => (s.cu c).queue = [] ∧ (s.cu c).valid
  | _ => true

/-- The senders do not come to `wait` with something to do. -/
def Prompt (s : Sys) (_ : Event) : Prop := ∀ t ∈ s.running, ready s t

theorem prompt_obeys {e : Event} (h : Prompt s e) : Obeys .prompt s e := obeys_of fun t ht hasks => by
  have hready := h t ht
  cases hasks with
  | puSend | puBatch | cuSend | cuBatch => exact fun _ => by simpa [ready] using hready

/-- A device with a sender that waits, before and after a move. -/
theorem puWait_move (hs : Sound H s) (h : Move law gain loss H s H' s') (hp : .puWait p ∈ s.conds)
    (hp' : .puWait p ∈ s'.conds) (hold : (s.pu p).queue = [] ∧ (s.pu p).valid) :
    (s'.pu p).queue = [] ∧ (s'.pu p).valid := by
  have hlt : p < s.pus := hs.balanced.born _ (task_tokens (mem_tasks.2 (.inr hp)) (x := pu p) (by simp [grants]))
  cases h with
  | newPu sn _ => simpa [ne_of_lt hlt] using hold
  | @closePu _ _ q =>
    obtain rfl | hq := eq_or_ne p q
    · rw [notifyPu_conds, Sys.modPu_conds] at hp'
      exact absurd hp' (not_mem_erase (count_puWait hs))
    · simpa [Sys.notifyPu, hq] using hold
  | @pushPu _ _ q m _ _ _ =>
    obtain rfl | hq := eq_or_ne p q
    · rw [notifyPu_conds, Sys.modPu_conds] at hp'
      exact absurd hp' (not_mem_erase (count_puWait hs))
    · simpa [Sys.notifyPu, hq] using hold
  | @runPu _ _ q =>
    obtain rfl | hq := eq_or_ne p q
    · simpa using hold.1
    · simpa [hq] using hold
  | @backupPu _ _ q _ | @deletePu _ _ q _ _ _ =>
    obtain rfl | hq := eq_or_ne p q
    · simpa using hold.2
    · simpa [hq] using hold
  | share | dropRight | dropSender | giveUp | dropClosing => exact hold
  | _ =>
    simpa [Sys.notifyPu, Sys.notifyCu, Sys.fork, Sys.addPu, closed_pu, update_field PuProxy.queue,
      update_field PuProxy.valid] using hold

theorem cuWait_move (hs : Sound H s) (h : Move law gain loss H s H' s') (hc : .cuWait c ∈ s.conds)
    (hc' : .cuWait c ∈ s'.conds) (hold : (s.cu c).queue = [] ∧ (s.cu c).valid) :
    (s'.cu c).queue = [] ∧ (s'.cu c).valid := by
  have hlt : c < s.cus := hs.balanced.born _ (task_tokens (mem_tasks.2 (.inr hc)) (x := cu c) (by simp [grants]))
  cases h with
  | newCu => simpa [ne_of_lt hlt] using hold
  | @closeQuiet _ _ d _ _ _ _ | @closeParked _ _ d _ _ _ _ _ =>
    obtain rfl | hd := eq_or_ne c d
    · obtain ⟨l, hl, heq⟩ := closed_conds (s := s) (c := c)
      rw [heq] at hc'
      exact absurd hc' (not_mem_erase (hl.trans (count_cuWait hs)))
    · simpa [closed_cu, hd] using hold
  | @pushCu _ _ d m _ _ _ _ _ =>
    obtain rfl | hd := eq_or_ne c d
    · rw [notifyCu_conds, Sys.cuPush_conds, Sys.modCu_conds] at hc'
      exact absurd hc' (not_mem_erase (count_cuWait hs))
    · simpa [Sys.notifyCu, hd] using hold
  | @backupCu _ _ d _ | @clearCu _ _ d _ _ | @deleteCu _ _ d _ _ =>
    obtain rfl | hd := eq_or_ne c d
    · simpa using hold.2
    · simpa [hd] using hold
  | share | dropRight | dropSender | giveUp | dropClosing => exact hold
  | _ =>
    simpa [Sys.notifyPu, Sys.notifyCu, Sys.fork, Sys.addPu, update_field CuProxy.queue,
      update_field CuProxy.valid] using hold

theorem nothingMissed_move (hs : Sound H s) (hj : NothingMissed s) (h : Move .prompt gain loss H s H' s') :
    NothingMissed s' := by
  refine ⟨fun p hp => ?_, fun c hc => ?_⟩
  · obtain hold | ⟨-, -, hcalm⟩ := conds_move h hp
    · exact puWait_move hs h hold hp (hj.1 p hold)
    · exact hcalm rfl
  · obtain hold | ⟨-, -, hcalm⟩ := conds_move h hc
    · exact cuWait_move hs h hold hc (hj.2 c hold)
    · exact hcalm rfl

/-- **No notification is missed** by senders that only wait when they have nothing to do. -/
theorem senders_calm (h : ReachVia machine Prompt s) : NothingMissed s := by
  obtain ⟨H, -, hj, -⟩ := run_moves .prompt (J := fun _ s => NothingMissed s) ⟨nofun, nofun⟩
    (fun hs hj h => nothingMissed_move hs hj h) (h.mono fun s e => prompt_obeys)
  exact hj

/-! ### Runs -/

/-- The first request of the first client. -/
def request : MsgPtr := ⟨.client 0, 1⟩

/-- What is written to the client: a copy of the message that the device has been sent. -/
def answer : Frame :=
  Sent.encode ⟨request, ⟨hmcmdOpenVideo, Sys.openVideoBody.length.toUInt32, 0, 7⟩, Sys.openVideoBody⟩ 7

/-- The client sends `open_video`; the answer is in `st_write`. -/
def openRun : List Event :=
  clientRun ++ wake (.cuHeader 0) (.header (transferIn ⟨hmcmdOpenVideo, 0, 0, 7⟩)) ++ [.go .done, .go .done] ++
    next ++ next ++ [.go .done]

def answeredRun : List Event := openRun ++ wake (.cuWrite 0 answer request []) .done ++ [.go .done]

instance decidablePrompt (s : Sys) (e : Event) : Decidable (Prompt s e) :=
  inferInstanceAs (Decidable (∀ t ∈ s.running, ready s t))

theorem answeredRun_calm : NothingMissed (answeredRun.foldl machine.apply Sys.start) :=
  senders_calm ((ReachVia.init rfl).foldl answeredRun (by decide +kernel))

def frameHdr : Header := ⟨hmcmdRecvVideo, 3, 0, 0⟩

/-- A frame arrives, and goes to one client. -/
def frameRun (buf : ℕ) : List Event :=
  wake (.puHeader 0) (.header (transferIn frameHdr)) ++ [.go .done] ++
    wake (.puBody 0 frameHdr buf) (.body [1, 2, 3]) ++ [.go .done, .go .done, .go .done]

/-- It arrives while the answer is in `st_write`. -/
def missedRun : List Event :=
  openRun ++ frameRun 2 ++ wake (.cuWrite 0 answer request []) .done ++ [.go .done]

theorem message_missed : ¬ ∀ s, Reach machine s → NothingMissed s := by
  intro h
  have hreach : Reach machine (missedRun.foldl machine.apply Sys.start) :=
    (ReachVia.init rfl).foldl missedRun (by decide +kernel)
  have hwaits : .cuWait 0 ∈ (missedRun.foldl machine.apply Sys.start).conds ∧
      ((missedRun.foldl machine.apply Sys.start).cu 0).queue = [⟨.frame 0, 2⟩] := by decide +kernel
  exact absurd (hwaits.2.symm.trans ((h _ hreach).2 0 hwaits.1).1) (List.cons_ne_nil _ _)

end StNvs.Server.Notify
