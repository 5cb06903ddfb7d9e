import StNvs.Server.Delivery

/-! # No message is used when its count is zero

`backup` copies the pointers of a queue and gives the references of the queue back. What is copied is still
there, since whoever has sent it left one more reference for each place: what is in a queue or in the batch
of a sender has a reference (`uses_counted`). -/

namespace StNvs.Server.Uses

open StNvs.Lib.Holders StNvs.Lib.Runs StNvs.Server.Proto StNvs.Server.Model StNvs.Server.References
open StNvs.Server.Moves StNvs.Server.Counts StNvs.Server.Messages StNvs.Server.Steps StNvs.Server.Notify
open StNvs.Server.Delivery Function Token

variable {law : Law} {gain loss H H' : Hand} {s s' : Sys} {p : PuPtr} {c : CuPtr} {m : MsgPtr} {t : Task}

/-- The batch of a sender, with what is in `st_write`. -/
def batch : Task → List MsgPtr
  | .puBatch _ batch | .cuBatch _ batch => batch
  | .puWrite _ m batch | .cuWrite _ _ m batch => m :: batch
  | _ => []

/-- Whoever reads a message or gives a reference back finds that there is one, and so do the queues and
batches. -/
structure Counted (s : Sys) : Prop where
  uses : ∀ x ∈ s.log.uses, 1 ≤ x.2
  puQueue : ∀ p < s.pus, ∀ m ∈ (s.pu p).queue, 1 ≤ (s.msg m).ref
  cuQueue : ∀ c < s.cus, ∀ m ∈ (s.cu c).queue, 1 ≤ (s.msg m).ref
  batch : ∀ t ∈ s.tasks, ∀ m ∈ batch t, 1 ≤ (s.msg m).ref

theorem one_le_ref (hs : Sound H s) (h : msg m ∈ H + tokens s ∨ draft m ∈ H + tokens s) : 1 ≤ (s.msg m).ref :=
  Nat.one_le_iff_ne_zero.2 (msg_ref_ne hs h)

theorem uses_move (hs : Sound H s) (hj : ∀ x ∈ s.log.uses, 1 ≤ x.2) (h : Move law gain loss H s H' s') :
    ∀ x ∈ s'.log.uses, 1 ≤ x.2 := by
  cases h with
  | noteUse hm =>
    intro x hx
    obtain rfl | hx := List.mem_cons.1 hx
    · exact one_le_ref hs hm
    · exact hj x hx
  | _ => simpa [Sys.notifyPu, Sys.notifyCu, Sys.fork, Sys.addPu, closed_log] using hj

theorem puQueue_mem (hp : p < s.pus) (hm : m ∈ (s.pu p).queue) : msg m ∈ H + tokens s :=
  Multiset.mem_add.2 (.inr (mem_tokens.2 (.inr (.inl ⟨p, hp, by simp [puGrants, mem_msgs, hm]⟩))))

/-- A sender has a reference to each message of its batch. -/
theorem batch_grants (hm : m ∈ batch t) : msg m ∈ grants t := by
  cases t with
  | puBatch p l | cuBatch c l => simpa [grants, batch, mem_msgs] using hm
  | puWrite p x l | cuWrite c frame x l =>
    obtain rfl | hm := List.mem_cons.1 hm
    · simp [grants]
    · simp [grants, mem_msgs, hm]
  | _ => exact absurd hm List.not_mem_nil

/-- **No message is used when its count is zero.** -/
theorem uses_counted (h : Reach machine s) : Counted s := by
  obtain ⟨H, hs, hj, -⟩ := run_moves .any (J := fun _ s => ∀ x ∈ s.log.uses, 1 ≤ x.2) nofun
    (fun hs hj h => uses_move hs hj h) (h.mono fun s e _ => obeys_any)
  refine ⟨hj, fun p hp m hm => ?_, fun c hc m hm => ?_, fun t ht m hm => ?_⟩
  · exact one_le_ref hs (.inl (puQueue_mem hp hm))
  · exact one_le_ref hs (.inl (queue_mem hc hm))
  · exact one_le_ref hs (.inl (task_tokens ht (batch_grants hm)))

/-- A frame arrives while the answer is in `st_write`, and it waits in the queue. -/
theorem missedRun_counted : Counted (missedRun.foldl machine.apply Sys.start) :=
  uses_counted ((ReachVia.init rfl).foldl missedRun (by decide +kernel))

end StNvs.Server.Uses
