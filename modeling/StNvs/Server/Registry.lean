import StNvs.Server.Steps

/-! # Devices that sessions have looked up

The session of a client keeps the pointer that it has from `_device_map` while it blocks in
`write_auth_wrap`, and has no reference to the object. As long as no device that has been looked up so is
deleted, no call goes to an object without references (`registry_live`); nothing prevents that
(`device_deleted`). The session of a device looks its object up again. -/

namespace StNvs.Server.Registry

open StNvs.Lib.Runs StNvs.Server.Proto StNvs.Server.Model StNvs.Server.References StNvs.Server.Moves
open StNvs.Server.Counts StNvs.Server.Sessions StNvs.Server.Messages StNvs.Server.Steps

variable {law : Law} {gain loss H H' : Hand} {s s' : Sys}

/-- Every call on a device has found it with references. -/
def CallsLive (s : Sys) : Prop := ∀ x ∈ s.log.calls, x.ref ≠ 0

/-- A serial number has an entry exactly if one device with it is alive. -/
def RegistryExact (s : Sys) : Prop :=
  ∀ sn, (s.deviceMap sn).isSome ↔ ∃! p, (s.pu p).ref ≠ 0 ∧ (s.pu p).sn = sn

/-- The device that the session of a client has looked up is alive. -/
def lives (s : Sys) : Task → Bool
  | .client p => (s.pu p).ref ≠ 0
  | _ => true

/-- No device is deleted while a client session is in `write_auth_wrap` with a pointer to it. -/
def Kept (s : Sys) (_ : Event) : Prop := ∀ t ∈ s.tasks, lives s t

theorem registryExact_of (h : Registered s) : RegistryExact s := fun sn => by
  rw [Option.isSome_iff_exists]
  refine ⟨fun ⟨p, hp⟩ => ⟨p, (h sn p).1 hp, fun q hq => ?_⟩, fun ⟨p, hp, _⟩ => ⟨p, (h sn p).2 hp⟩⟩
  exact Option.some.inj (((h sn q).2 hq).symm.trans hp)

theorem callsLive_move (hs : Sound H s) (hj : CallsLive s) (h : Move .kept gain loss H s H' s') :
    CallsLive s' := by
  cases h with
  | @noteCall _ _ p method hp =>
    refine List.forall_mem_cons.2 ⟨?_, hj⟩
    obtain hp | hp := hp
    · exact pu_ref_ne hs hp
    · exact hp rfl
  | share | dropRight | dropSender | giveUp | dropClosing => exact hj
  | _ => simpa [CallsLive, Sys.notifyPu, Sys.notifyCu, Sys.fork, Sys.addPu, closed_log] using hj

theorem kept_obeys {e : Event} (h : Kept s e) : Obeys .kept s e := obeys_of fun t ht hasks => by
  have hmem : t ∈ s.tasks := mem_tasks.2 (.inl (by simp [awake, ht]))
  cases hasks with
  | client => exact fun _ => by simpa [lives] using h _ hmem

/-- **Calls find their device alive**, as long as none that has been looked up is deleted. The registry has
the devices that are alive. -/
theorem registry_live (h : ReachVia machine Kept s) : CallsLive s ∧ RegistryExact s := by
  obtain ⟨H, hs, hj, -⟩ := run_moves .kept (J := fun _ s => CallsLive s) nofun
    (fun hs hj h => callsLive_move hs hj h) (h.strengthen (I := fun _ => True) (fun _ _ => trivial)
      fun s e _ _ => kept_obeys)
  exact ⟨hj, registryExact_of hs.registered⟩

/-! ### Runs -/

/-- The next coroutine runs to its next point. -/
def next : List Event := [.schedule, .go .done]

/-- A call completes, and its coroutine goes on. -/
def wake (t : Task) (r : Result) : List Event := [.deliver t, .schedule, .go r]

/-- A connection is accepted, and its handshake read. -/
def connect (type sn : String) : List Event :=
  wake .accept .done ++ next ++ next ++ wake .auth (.handshake (some type) (some sn)) ++ [.go .done]

/-- The message with which a device is asked for its video. -/
def videoCmd : MsgPtr := ⟨.device 0, 0⟩

/-- A device logs in; its four coroutines run, and `handle_send` writes the first message. -/
def deviceRun : List Event :=
  next ++ connect "10" "A" ++ wake (.login "\"A\"" 0) .done ++ next ++ next ++ next ++ next ++ next ++
    [.go .done] ++ wake (.puWrite 0 videoCmd []) .done ++ [.go .done]

/-- A client logs in to it. -/
def clientRun : List Event := deviceRun ++ connect "1" "A" ++ wake (.client 0) .done ++ next ++ next

instance decidableKept (s : Sys) (e : Event) : Decidable (Kept s e) :=
  inferInstanceAs (Decidable (∀ t ∈ s.tasks, lives s t))

theorem clientRun_live : CallsLive (clientRun.foldl machine.apply Sys.start) ∧
    RegistryExact (clientRun.foldl machine.apply Sys.start) :=
  registry_live ((ReachVia.init rfl).foldl clientRun (by decide +kernel))

/-- While the reply to the client is written, the connection of the device fails, and its three coroutines
end. -/
def deletedRun : List Event :=
  deviceRun ++ connect "1" "A" ++ wake (.puHeader 0) .failed ++ [.go .done] ++ next ++ [.go .done] ++
    wake (.beat 0 1) .done ++ wake (.client 0) .done

theorem device_deleted : ¬ ∀ s, Reach machine s → CallsLive s ∧ RegistryExact s := by
  intro h
  have hreach : Reach machine (deletedRun.foldl machine.apply Sys.start) :=
    (ReachVia.init rfl).foldl deletedRun (by decide +kernel)
  have hcall : (deletedRun.foldl machine.apply Sys.start).log.calls.head? = some ⟨.add, 0, 0⟩ := by
    decide +kernel
  exact (h _ hreach).1 _ (List.mem_of_head? hcall) rfl

end StNvs.Server.Registry
