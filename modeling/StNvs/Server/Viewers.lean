import StNvs.Server.Parting

/-! # The clients that get the video

A client is entered in `_pu_video_proxy_vec` by the coroutine of each request, and removed when that is
woken. When `close` finds no coroutine of an earlier request, none that is yet to begin, and no request is
taken up later, a client that has left is in no list (`viewers_undone`); otherwise its entry stays
(`entry_stays`). Each entry has a reference to `_real_video_cmd`. -/

namespace StNvs.Server.Viewers

open StNvs.Lib.Holders StNvs.Lib.Runs StNvs.Server.Proto StNvs.Server.Model StNvs.Server.References
open StNvs.Server.Moves StNvs.Server.Counts StNvs.Server.Rights StNvs.Server.Sessions StNvs.Server.Messages
open StNvs.Server.Steps StNvs.Server.Registry StNvs.Server.Notify StNvs.Server.Parting Function Token

variable {law : Law} {gain loss H H' : Hand} {s s' : Sys} {p : PuPtr} {c : CuPtr} {m v : MsgPtr} {t : Task}

/-! ### The references to `_real_video_cmd` -/

/-- What the sender of a device has yet to give back. -/
def carried : Task → List MsgPtr
  | .puBatch _ batch => batch
  | .puWrite _ m batch => m :: batch
  | _ => []

/-- The references to a message that a device sends, when no client has been entered: that of
`_real_video_cmd`, two for each place in the queue, one for each in the batch that is being sent, and those
that nobody gives back. -/
def base (s : Sys) (p : PuPtr) (v : MsgPtr) : ℕ :=
  1 + 2 * (s.pu p).queue.count v + (s.tasks.flatMap carried).count v + s.log.lost.count v

theorem count_msgs {l : List MsgPtr} : (msgs l).count (msg v) = l.count v := by
  induction l with
  | nil => rfl
  | cons m l ih =>
    rw [msgs_cons, Multiset.count_add, ih, Multiset.count_singleton, List.count_cons, add_comm]
    by_cases h : m = v
    · simp [h]
    · simp [h, Ne.symm h]

theorem count_msgs_zero {l : List MsgPtr} (h : ∀ m ∈ l, m ≠ v) : (msgs l).count (msg v) = 0 := by
  rw [count_msgs]
  exact List.count_eq_zero.2 fun hv => h v hv rfl

/-- Of the coroutines only the sender has references to a message of the device. -/
theorem count_grants (hf : Fits s t) (hv : v.maker = .device p) :
    (grants t).count (msg v) = (carried t).count v := by
  -- what is sent to clients has another maker
  have hone {m : MsgPtr} (hm : ∀ q, m.maker ≠ .device q) : v ≠ m := fun h => hm p (h ▸ hv)
  have hall {l : List MsgPtr} (hl : ∀ m ∈ l, ∀ q, m.maker ≠ .device q) : (msgs l).count (msg v) = 0 :=
    count_msgs_zero fun m hm h => hl m hm p (h ▸ hv)
  have hclient {m : MsgPtr} {c : CuPtr} (hm : m.maker = .client c) (q : PuPtr) : m.maker ≠ .device q :=
    fun h => Maker.noConfusion (hm.symm.trans h)
  cases t with
  | puFan q m viewers =>
    have hm (q' : PuPtr) : m.maker ≠ .device q' := fun h => Maker.noConfusion (Eq.trans (Eq.symm hf) h)
    simp [grants, carried, hone hm]
  | puBatch q batch => simp [grants, carried, count_msgs]
  | puWrite q m batch =>
    simp only [grants, carried, Multiset.count_add, count_msgs, Multiset.count_singleton, List.count_cons,
      reduceCtorEq, if_false, Token.msg.injEq, zero_add, beq_iff_eq, eq_comm (a := v)]
  | cuBatch c batch => simp [grants, carried, hall hf]
  | cuWrite c frame m batch =>
    simp [grants, carried, hone (hf.2 m List.mem_cons_self), hall fun x hx => hf.2 x (List.mem_cons_of_mem m hx)]
  | park c m | parted c m | leave c m => simp [grants, carried, hone (hclient hf)]
  | _ => simp [grants, carried]

theorem count_tasks (hs : Sound H s) (hv : v.maker = .device p) :
    (held grants s.tasks).count (msg v) = (s.tasks.flatMap carried).count v := by
  have hall : ∀ l : List Task, (∀ t ∈ l, Fits s t) →
      (held grants l).count (msg v) = (l.flatMap carried).count v := by
    intro l
    induction l with
    | nil => exact fun _ => rfl
    | cons t l ih =>
      intro hl
      rw [held_cons, Multiset.count_add, List.flatMap_cons, List.count_append,
        ih fun u hu => hl u (List.mem_cons_of_mem t hu), count_grants (hl t List.mem_cons_self) hv]
  exact hall s.tasks hs.fit.fits

theorem count_entries {n : MsgPtr} (l : List CuPtr) :
    (held (fun c => {cu c} + {entry c} + {msg n}) l).count (msg v) = if n = v then l.length else 0 := by
  induction l with
  | nil => simp
  | cons c l ih =>
    rw [held_cons, Multiset.count_add, ih]
    simp only [Multiset.count_add, Multiset.count_singleton, reduceCtorEq, if_false, Token.msg.injEq,
      List.length_cons, eq_comm (a := v)]
    split <;> omega

/-- **Each entry has a reference to `_real_video_cmd`.** -/
theorem video_ref (hs : Sound H s) (hrest : Rest H s) (hp : (s.pu p).ref ≠ 0) (hv : (s.pu p).video = some v) :
    (s.msg v).ref = base s p v + (s.pu p).viewers.length := by
  have hlt : p < s.pus := hs.balanced.pu_lt hp
  have hmaker := hs.made.video p v hv
  have hmem : msg v ∈ H + tokens s := video_mem hs (mem_pu hs hp) hv
  have hother {m : MsgPtr} {q : PuPtr} (hm : m.maker = .device q) (hq : q ≠ p) : m ≠ v := fun h =>
    hq (Maker.device.inj (hm.symm.trans (h ▸ hmaker)))
  have hhand : H.count (msg v) = 0 := Multiset.count_eq_zero.2 fun h => by
    obtain rfl | ⟨c, -, rfl⟩ := hrest
    · exact Multiset.notMem_zero _ h
    · simp at h
  have hdevices : (slots puGrants s.pu s.pus).count (msg v) =
      2 * (s.pu p).queue.count v + (s.pu p).viewers.length + 1 := by
    rw [count_slots hlt fun q hq => ?_]
    · simp only [puGrants, videoGrants, hv, if_neg hp, Option.elim_some, Multiset.count_add, count_msgs,
        count_entries, if_pos, Multiset.count_singleton_self]
      omega
    · have h1 := count_msgs_zero fun m hm => hother (hs.made.pu q m hm) hq
      cases hw : (s.pu q).video with
      | none =>
        rw [puGrants, hs.exclusive.unopened q hw]
        simp [videoGrants, hw, h1]
      | some w =>
        have hwv : w ≠ v := hother (hs.made.video q w hw) hq
        simp only [puGrants, videoGrants, hw, Option.elim_some, Multiset.count_add, h1, count_entries, if_neg hwv]
        split <;> simp [Ne.symm hwv]
  have hclients : (slots cuGrants s.cu s.cus).count (msg v) = 0 := by
    rw [slots, Multiset.count_sum', Finset.sum_eq_zero]
    intro c _
    have h1 : (msgs (s.cu c).queue).count (msg v) = 0 :=
      count_msgs_zero fun m hm h => hs.made.cu c m hm p (h ▸ hmaker)
    cases hpu : (s.cu c).puProxy <;> simp [cuGrants, hpu, h1]
  have hdraft : (H + tokens s).count (draft v) = 0 :=
    Multiset.count_eq_zero.2 fun h => draft_not_msg hs.balanced h hmem
  rw [hs.balanced.msg, hdraft, Multiset.count_add, hhand, tokens, Multiset.count_add, Multiset.count_add,
    Multiset.count_add, count_tasks hs hmaker, hdevices, hclients, count_msgs, base]
  omega

/-! ### Who is entered -/

/-- A coroutine that has yet to begin or waits belongs to a client with a valid socket. -/
def Asking (H : Hand) (s : Sys) : Prop :=
  ∀ m c, waiter m ∈ H + tokens s → m.maker = .client c → (s.cu c).valid

theorem asking_move (hs : Sound H s) (hj : Asking H s) (h : Move .undone gain loss H s H' s') :
    Asking H' s' := by
  intro m c hm hmaker
  have hcases := mem_after hs.balanced h hm
  cases h with
  | @closeQuiet _ _ d hvalid _ hlaw _ =>
    have hold := hcases.resolve_left (Multiset.notMem_zero _)
    have hd : c ≠ d := by
      rintro rfl
      exact hlaw rfl m hmaker hold
    simpa [closed_cu, hd] using hj m c hold hmaker
  | @closeParked _ _ d x hvalid hlaw hx hpark =>
    have hold : waiter m ∈ H + tokens s := hcases.resolve_left (by simp)
    have hd : c ≠ d := by
      rintro rfl
      obtain rfl := hlaw rfl m hmaker hold
      -- the only one that waits is woken
      have h1 := congrArg (Multiset.count (waiter m)) (tokens_closed_parked hx hpark)
      have h2 := hs.exclusive.right m
      have h3 := Multiset.count_pos.2 hm
      simp only [Multiset.count_add, Multiset.count_singleton, reduceCtorEq, if_false, if_true] at h1 h2 h3
      omega
    simpa [closed_cu, hd] using hj m c hold hmaker
  | @newCu X _ p =>
    have hold := hcases.resolve_left (by simp)
    obtain rfl | hc := eq_or_ne c s.cus
    · simp
    · simpa [hc] using hj m c hold hmaker
  | @ask X _ d x hx hlaw hlt =>
    obtain hg | hold := hcases
    · obtain rfl : m = x := by simpa using hg
      obtain rfl : c = d := Maker.client.inj (hmaker.symm.trans hx)
      simpa [Sys.fork] using hlaw rfl
    · simpa [Sys.fork, update_field CuProxy.valid] using hj m c hold hmaker
  | share | dropRight | dropSender | giveUp | dropClosing =>
    exact hj m c (hcases.resolve_left (by simp)) hmaker
  | _ =>
    have hold := hj m c (hcases.resolve_left (by simp)) hmaker
    simpa [Sys.notifyPu, Sys.notifyCu, Sys.fork, Sys.addPu, update_field CuProxy.valid] using hold

/-- No client that has left is entered anywhere, and `_real_video_cmd` has as many references more than its
base value as clients are entered. -/
def Undone (s : Sys) : Prop :=
  (∀ c, Settled s c → ∀ p < s.pus, c ∉ (s.pu p).viewers) ∧
    ∀ p v, s.fault = none → (s.pu p).ref ≠ 0 → (s.pu p).video = some v →
      (s.msg v).ref = base s p v + (s.pu p).viewers.length

/-- The coroutine is that of the last request of the client and waits, or belongs to another client. -/
def last (s : Sys) (c : CuPtr) : Task → Bool
  | .openReal d _ => d ≠ c
  | .park d m => d ≠ c ∨ (s.cu c).videoMsgWrap = some m
  | _ => true

/-- When `close` invalidates a socket, no coroutine of an earlier request waits and none is yet to begin; and
no request is taken up when the socket is not valid any more. -/
def undoes (s : Sys) : Task → Bool
  | .cuClose c => !(s.cu c).valid || s.tasks.all (last s c)
  | .cuMessage c hdr _ => hdr.cmdno ≠ hmcmdOpenVideo || !((s.cu c).puProxy.any fun p => (s.pu p).valid) ||
    (s.cu c).valid
  | _ => true

def Undoing (s : Sys) (_ : Event) : Prop := ∀ t ∈ s.running, undoes s t

theorem undoing_obeys {e : Event} (h : Undoing s e) : Obeys .undone s e := obeys_of fun t ht hasks => by
  have hundoes := h t ht
  cases hasks with
  | @closes c =>
    refine fun hv => ⟨nofun, fun _ u hu m => ?_⟩
    have hall : ∀ u ∈ s.tasks, last s c u := by simpa [undoes, hv] using hundoes
    refine ⟨?_, ?_⟩
    · rintro rfl
      simpa [last] using hall _ hu
    · rintro rfl
      simpa [last] using hall _ hu
  | message =>
    rintro - hopen ⟨p, hp, hv⟩
    simpa [undoes, hopen, hp, hv] using hundoes

theorem entry_mem (hp : p < s.pus) (hc : c ∈ (s.pu p).viewers) : entry c ∈ tokens s := by
  refine mem_tokens.2 (.inr (.inl ⟨p, hp, ?_⟩))
  simp only [puGrants, Multiset.mem_add, mem_held]
  exact .inl (.inr ⟨c, hc, by simp⟩)

theorem seat_tokens (h : seat c ∈ tokens s) : ∃ m, .park c m ∈ s.tasks ∨ .parted c m ∈ s.tasks := by
  obtain ⟨t, ht, hg⟩ := held_by_task h nofun nofun nofun nofun
  cases t with
  | park d m =>
    obtain rfl : c = d := by simpa [grants] using hg
    exact ⟨m, .inl ht⟩
  | parted d m =>
    obtain rfl : c = d := by simpa [grants] using hg
    exact ⟨m, .inr ht⟩
  | _ => simp [grants, mem_msgs] at hg

/-- **Clients that have left are entered nowhere**, under the condition on requests. -/
theorem viewers_undone (h : ReachVia machine Undoing s) : Undone s := by
  have hstart : Asking 0 Sys.start := fun m c hm => absurd hm (Multiset.notMem_zero _)
  obtain ⟨H, hs, hj, hrest⟩ := run_moves .undone hstart (fun hs hj h => asking_move hs hj h)
    (h.mono fun s e => undoing_obeys)
  refine ⟨fun c hc p hp hmem => ?_, fun p v hf hp hv => video_ref hs (hrest hf) hp hv⟩
  have hseat : seat c ∈ H + tokens s := Multiset.count_pos.1 <| by
    rw [hs.clients.seats c]
    exact Multiset.count_pos.2 (Multiset.mem_add.2 (.inr (entry_mem hp hmem)))
  obtain ⟨m, ht | ht⟩ := seat_tokens (rest_mem (hrest hc.1) nofun hseat)
  · have hvalid := hj m c (task_tokens ht (by simp [grants])) (hs.fit.fits _ ht)
    exact absurd (hvalid.symm.trans hc.2.2.1) Bool.noConfusion
  · exact (settled_waits hs hc ht rfl).2

/-! ### Runs -/

/-- The read after a request fails at once; the coroutine of the request begins when the socket has been
invalidated. -/
def lateRun : List Event :=
  clientRun ++ wake (.cuHeader 0) (.header (transferIn ⟨hmcmdOpenVideo, 0, 0, 7⟩)) ++
    [.go .done, .go .failed, .go .done] ++ next ++ next ++ [.go .done, .go .done]

instance decidableUndoing (s : Sys) (e : Event) : Decidable (Undoing s e) :=
  inferInstanceAs (Decidable (∀ t ∈ s.running, undoes s t))

theorem leftRun_undone : Undone (leftRun.foldl machine.apply Sys.start) :=
  viewers_undone ((ReachVia.init rfl).foldl leftRun (by decide +kernel))

theorem entry_stays : ¬ ∀ s, Reach machine s → Undone s := by
  intro h
  have hreach : Reach machine (lateRun.foldl machine.apply Sys.start) :=
    (ReachVia.init rfl).foldl lateRun (by decide +kernel)
  have hleft : (lateRun.foldl machine.apply Sys.start).fault = none ∧
      0 < (lateRun.foldl machine.apply Sys.start).cus ∧
      ((lateRun.foldl machine.apply Sys.start).cu 0).valid = false ∧
      ∀ t ∈ awake (lateRun.foldl machine.apply Sys.start), client t ≠ some 0 := by decide +kernel
  have hpus : (lateRun.foldl machine.apply Sys.start).pus = 1 := by decide +kernel
  have hentry : ((lateRun.foldl machine.apply Sys.start).pu 0).viewers = [0] := by decide +kernel
  exact (h _ hreach).1 0 hleft 0 (by omega) (by rw [hentry]; exact List.mem_singleton_self 0)

end StNvs.Server.Viewers
