import StNvs.Server.Notify

/-! # Clients that leave

The coroutine of a request releases the device when it is woken, and only `close` wakes it, once, and the
last one. When that is parked whenever a socket is invalidated, each client releases its device once, and
has done so when its coroutines are gone or wait for ever (`references_released`). A client that never asks
for the video never does (`never_released`). -/

namespace StNvs.Server.Parting

open StNvs.Lib.Holders StNvs.Lib.Runs StNvs.Server.Proto StNvs.Server.Model StNvs.Server.References
open StNvs.Server.Moves StNvs.Server.Counts StNvs.Server.Rights StNvs.Server.Sessions StNvs.Server.Messages
open StNvs.Server.Steps StNvs.Server.Registry StNvs.Server.Notify Function Token

variable {law : Law} {gain loss H H' : Hand} {s s' : Sys} {p : PuPtr} {c : CuPtr} {t u : Task}

/-! ### When a client has left -/

/-- The client that a coroutine belongs to. -/
def client : Task → Option CuPtr
  | .cuRecv c | .cuHeader c | .cuLoad c _ _ | .cuBody c _ _ | .cuMessage c _ _ | .cuClose c | .cuSend c
  | .cuWait c | .cuNotified c | .cuBatch c _ | .cuWrite c _ _ _ | .cuExit c | .openReal c _ | .park c _
  | .parted c _ | .leave c _ => some c
  | _ => none

/-- The device that a coroutine belongs to. -/
def device : Task → Option PuPtr
  | .login _ p | .puRecv p | .puHeader p | .puLoad p _ _ | .puBody p _ _ | .puFan p _ _ | .puClose p | .puSend p
  | .puWait p | .puNotified p | .puBatch p _ | .puWrite p _ _ | .heart p | .beat p _ | .openVideo p => some p
  | _ => none

/-- The socket of a client has been invalidated, and each of its coroutines has returned or waits for a
condition that has not been signalled. -/
def Settled (s : Sys) (c : CuPtr) : Prop :=
  s.fault = none ∧ c < s.cus ∧ (s.cu c).valid = false ∧ ∀ t ∈ awake s, client t ≠ some c

/-- How often a client has called `uninit`. -/
def uninits (s : Sys) (c : CuPtr) : ℕ := (s.log.uninits.map Prod.fst).count c

/-- A client has a device when it calls `uninit`; it calls it once, before it has left; and a device is freed
when its coroutines and its clients have left. -/
def Released (s : Sys) : Prop :=
  (∀ x ∈ s.log.uninits, x.2 ≠ none) ∧ (∀ c < s.cus, uninits s c ≤ 1) ∧ (∀ c, Settled s c → uninits s c = 1) ∧
    ∀ p, s.fault = none → (∀ t ∈ s.tasks, device t ≠ some p) →
      (∀ c < s.cus, (s.cu c).puProxy = some p → Settled s c) → (s.pu p).ref = 0 ∧ ∀ sn, s.deviceMap sn ≠ some p

/-- When `close` invalidates a socket, the coroutine of the last request is parked. -/
def parks (s : Sys) : Task → Bool
  | .cuClose c => !(s.cu c).valid || (s.cu c).videoMsgWrap.any fun m => .park c m ∈ s.conds
  | _ => true

def Parked (s : Sys) (_ : Event) : Prop := ∀ t ∈ s.running, parks s t

theorem parked_obeys {e : Event} (h : Parked s e) : Obeys .parked s e := obeys_of fun t ht hasks => by
  have hparks := h t ht
  cases hasks with
  | @parks c =>
    refine fun hv => ⟨fun _ => ?_, nofun⟩
    have hany : (s.cu c).videoMsgWrap.any fun m => .park c m ∈ s.conds := by simpa [parks, hv] using hparks
    obtain ⟨m, hm, hpark⟩ := (Option.any_eq_true ..).1 hany
    exact ⟨m, hm, by simpa using hpark⟩

/-! ### Who calls `uninit` -/

/-- The right to call `uninit` comes with the end of the socket, and goes with the call. -/
theorem uninits_move (hs : Sound H s) (h : Move .parked gain loss H s H' s') (hc : c < s.cus) :
    uninits s' c + (s'.cu c).valid.toNat + gain.count (woken c) =
      uninits s c + (s.cu c).valid.toNat + loss.count (woken c) := by
  cases h with
  | newCu => simp [uninits, ne_of_lt hc]
  | closeQuiet _ hlaw _ _ => exact absurd rfl hlaw
  | @closeParked _ _ d m hvalid _ _ _ =>
    obtain rfl | hd := eq_or_ne c d
    · simp [uninits, closed_log, closed_cu, hvalid]
    · simp [uninits, closed_log, closed_cu, hd]
  | @takeProxy _ _ d p _ =>
    obtain rfl | hd := eq_or_ne c d
    · simp [uninits]
      omega
    · simp [uninits, hd, Ne.symm hd]
  | @noteUninit _ _ d hp =>
    obtain ⟨p, hp'⟩ := woken_proxy (c := d) hs (by simp)
    exact absurd (hp.symm.trans hp') (Option.some_ne_none p).symm
  | _ =>
    simp [uninits, Sys.notifyPu, Sys.notifyCu, Sys.fork, Sys.addPu, update_field CuProxy.valid]

/-- What is known of `uninit`: who calls it, and how often it will have been called. -/
structure Uninits (H : Hand) (s : Sys) : Prop where
  calls : ∀ x ∈ s.log.uninits, x.1 < s.cus ∧ x.2 ≠ none
  proxy : ∀ x ∈ s.log.uninits, (s.cu x.1).puProxy = none
  once : ∀ c < s.cus, (H + tokens s).count (woken c) + uninits s c + (s.cu c).valid.toNat = 1

theorem Uninits.move (hs : Sound H s) (hj : Uninits H s) (h : Move .parked gain loss H s H' s') :
    Uninits H' s' := by
  -- the calls: there is one more, or none
  have hcalls : s'.log.uninits = s.log.uninits ∨ ∃ c p, c < s.cus ∧ (s'.cu c).puProxy = none ∧
      s'.log.uninits = (c, some p) :: s.log.uninits := by
    cases h with
    | @takeProxy _ _ d p hp =>
      exact .inr ⟨d, p, hs.balanced.born (woken d) (by simp), by simp, by simp [hp]⟩
    | @noteUninit _ _ d hp =>
      obtain ⟨p, hp'⟩ := woken_proxy (c := d) hs (by simp)
      exact absurd (hp.symm.trans hp') (Option.some_ne_none p).symm
    | _ => exact .inl (by simp [Sys.notifyPu, Sys.notifyCu, Sys.fork, Sys.addPu, closed_log])
  have hold {x : CuPtr × Option PuPtr} (hx : x ∈ s.log.uninits) :
      x.1 < s.cus ∧ x.2 ≠ none ∧ (s'.cu x.1).puProxy = none := by
    obtain ⟨h1, h2⟩ := hj.calls x hx
    obtain h3 | h3 := puProxy_move h h1
    · exact ⟨h1, h2, h3.trans (hj.proxy x hx)⟩
    · exact ⟨h1, h2, h3⟩
  have hall : ∀ x ∈ s'.log.uninits, x.1 < s.cus ∧ x.2 ≠ none ∧ (s'.cu x.1).puProxy = none := by
    obtain heq | ⟨c, p, hc, hp, heq⟩ := hcalls
    · exact fun x hx => hold (heq ▸ hx)
    · rw [heq]
      exact List.forall_mem_cons.2 ⟨⟨hc, Option.some_ne_none p, hp⟩, fun x => hold⟩
  refine ⟨fun x hx => ⟨born_mono h (t := cu x.1) (hall x hx).1, (hall x hx).2.1⟩, fun x hx => (hall x hx).2.2,
    fun c hc => ?_⟩
  have h1 := congrArg (Multiset.count (woken c)) (total hs.balanced h)
  rw [Multiset.count_add, Multiset.count_add _ _ gain] at h1
  obtain hc | ⟨rfl, hgain, hloss, p, hnew⟩ := new_client h hc
  · have h2 := uninits_move hs h hc
    have h3 := hj.once c hc
    omega
  · have h2 := not_born hs.balanced (t := woken s.cus) (lt_irrefl _)
    have h3 : uninits s' s.cus = 0 := List.count_eq_zero.2 fun hmem => by
      obtain ⟨x, hx, hx'⟩ := List.mem_map.1 hmem
      exact absurd (hall x hx).1 (by rw [hx']; exact lt_irrefl _)
    rw [hgain, hloss, h2] at h1
    simp only [Multiset.count_add, Multiset.count_singleton, Multiset.count_zero, reduceCtorEq, if_false] at h1
    rw [hnew, h3, Multiset.count_add, Bool.toNat_true]
    omega

/-! ### Clients that have left -/

/-- The hand does not count between two steps. -/
theorem rest_mem {x : Token} (hrest : Rest H s) (hx : ∀ c, x ≠ closing c) (h : x ∈ H + tokens s) :
    x ∈ tokens s := by
  obtain rfl | ⟨c, -, rfl⟩ := hrest
  · simpa using h
  · simpa [hx c] using h

/-- A client that has left has only coroutines that wait for a condition. -/
theorem settled_waits (hs : Sound H s) (h : Settled s c) (ht : t ∈ s.tasks) (hc : client t = some c) :
    t ∈ s.conds ∧ Waits t := by
  obtain ht | ht := mem_tasks.1 ht
  · exact absurd hc (h.2.2.2 t ht)
  · exact ⟨ht, hs.fit.conds t ht⟩

theorem settled_woken (hs : Sound H s) (hrest : Rest H s) (h : Settled s c) :
    (H + tokens s).count (woken c) = 0 := by
  refine Multiset.count_eq_zero.2 fun hw => ?_
  have hw : woken c ∈ tokens s := rest_mem hrest nofun hw
  obtain ⟨t, ht, hg⟩ := held_by_task hw nofun nofun nofun nofun
  cases t with
  | parted d m | leave d m =>
    obtain rfl : c = d := by simpa [grants] using hg
    exact (settled_waits hs h ht rfl).2
  | _ => simp [grants, mem_msgs] at hg

theorem pu_tokens (h : pu p ∈ tokens s) :
    (∃ t ∈ s.tasks, device t = some p) ∨ ∃ c < s.cus, (s.cu c).puProxy = some p := by
  obtain ⟨t, ht, hg⟩ | ⟨q, -, hg⟩ | ⟨e, he, hg⟩ | hg := mem_tokens.1 h
  · refine .inl ⟨t, ht, ?_⟩
    cases t <;> simp [grants, mem_msgs] at hg <;> rw [hg, device]
  · obtain ⟨m, -, h⟩ | ⟨v, -, h⟩ | ⟨c, -, h⟩ | ⟨c, -, h⟩ := mem_puGrants hg <;> cases h
  · obtain ⟨m, -, h⟩ | ⟨r, hr, h⟩ := mem_cuGrants hg
    · cases h
    · exact .inr ⟨e, he, hr.trans (congrArg some (pu.inj h).symm)⟩
  · simp [mem_msgs] at hg

/-- **Each client releases its device once**, if the coroutine of its last request is parked when its socket
is invalidated. -/
theorem references_released (h : ReachVia machine Parked s) : Released s := by
  have hstart : Uninits 0 Sys.start := ⟨nofun, nofun, nofun⟩
  obtain ⟨H, hs, hj, hrest⟩ := run_moves .parked hstart (fun hs hj h => hj.move hs h)
    (h.mono fun s e => parked_obeys)
  have hgone (c : CuPtr) (hc : Settled s c) : uninits s c = 1 := by
    have h1 := hj.once c hc.2.1
    rw [settled_woken hs (hrest hc.1) hc, hc.2.2.1] at h1
    simpa using h1
  refine ⟨fun x hx => (hj.calls x hx).2, fun c hc => ?_, hgone, fun p hf htasks hclients => ?_⟩
  · have := hj.once c hc
    omega
  · have h0 : (s.pu p).ref = 0 := by
      rw [hs.balanced.pu]
      refine Multiset.count_eq_zero.2 fun hp => ?_
      obtain ⟨t, ht, hd⟩ | ⟨c, hc, hp⟩ := pu_tokens (rest_mem (hrest hf) nofun hp)
      · exact htasks t ht hd
      · -- a client that has left has called `uninit`
        have hpos : 0 < uninits s c := by rw [hgone c (hclients c hc hp)]; exact Nat.one_pos
        obtain ⟨x, hx, rfl⟩ := List.mem_map.1 (List.count_pos_iff.1 hpos)
        exact Option.some_ne_none p (hp.symm.trans (hj.proxy x hx))
    exact ⟨h0, fun sn hsn => ((hs.registered sn p).1 hsn).1 h0⟩

/-! ### Runs -/

/-- The client leaves after it has asked for the video. -/
def leftRun : List Event :=
  answeredRun ++ wake (.cuHeader 0) .failed ++ [.go .done] ++ next ++ [.go .done] ++ next ++ [.go .done, .go .done]

/-- It leaves and has not asked. -/
def silentRun : List Event :=
  clientRun ++ wake (.cuHeader 0) .failed ++ [.go .done] ++ next ++ [.go .done, .go .done]

instance decidableParked (s : Sys) (e : Event) : Decidable (Parked s e) :=
  inferInstanceAs (Decidable (∀ t ∈ s.running, parks s t))

theorem leftRun_released : Released (leftRun.foldl machine.apply Sys.start) :=
  references_released ((ReachVia.init rfl).foldl leftRun (by decide +kernel))

theorem never_released : ¬ ∀ s, Reach machine s → Released s := by
  intro h
  have hreach : Reach machine (silentRun.foldl machine.apply Sys.start) :=
    (ReachVia.init rfl).foldl silentRun (by decide +kernel)
  have hleft : (silentRun.foldl machine.apply Sys.start).fault = none ∧
      0 < (silentRun.foldl machine.apply Sys.start).cus ∧
      ((silentRun.foldl machine.apply Sys.start).cu 0).valid = false ∧
      ∀ t ∈ awake (silentRun.foldl machine.apply Sys.start), client t ≠ some 0 := by decide +kernel
  have huninits : uninits (silentRun.foldl machine.apply Sys.start) 0 = 0 := by decide +kernel
  exact absurd (huninits.symm.trans ((h _ hreach).2.2.1 0 hleft)) Nat.zero_ne_one

end StNvs.Server.Parting
