import StNvs.Server.Parting

/-! # What the code of a step touches

The code between two points of a coroutine is a chain of small changes (`Touch`): to objects, the map and the
log; to the count of a message; a message is deleted; a coroutine comes to its next point, or is created; one
that waits for a condition is signalled. What is left is special about the point (`Special`): buffers and
messages begin, bodies and `_real_video_cmd` are written, objects are constructed.

Unlike the moves, the touches keep the order of the run queue, and they say which buffers are freed and who
gets them. `Null` says when the code may meet a null pointer. -/

namespace StNvs.Server.Touches

open StNvs.Lib.Runs StNvs.Server.Proto StNvs.Server.Model StNvs.Server.References StNvs.Server.Parting Function

variable {New : Sys → Task → Spot → Prop} {R : Sys → Sys → Prop} {B : Prop} {s s' s₁ : Sys}
variable {p : PuPtr} {c : CuPtr} {m : MsgPtr} {t u : Task} {k : Spot} {o : Outcome} {f : Sys → Outcome}

/-! ### Touches -/

/-- Objects, the map and the log have changed, but no `_real_video_cmd` has, no client has got a device,
and no buffer has been freed. -/
structure Aside (s s' : Sys) : Prop where
  fault : s'.fault = s.fault
  pus : s'.pus = s.pus
  running : s'.running = s.running
  runq : s'.runq = s.runq
  idle : s'.idle = s.idle
  io : s'.io = s.io
  conds : s'.conds = s.conds
  msg : s'.msg = s.msg
  bufs : s'.bufs = s.bufs
  frees : s'.log.frees = s.log.frees
  news : s'.log.news = s.log.news
  video : ∀ p, (s'.pu p).video = (s.pu p).video
  puProxy : ∀ c p, (s'.cu c).puProxy = some p → (s.cu c).puProxy = some p

/-- Who goes on when a condition is signalled. -/
inductive Signals : Task → Task → Prop
  | pu (p : PuPtr) : Signals (.puWait p) (.puNotified p)
  | cu (c : CuPtr) : Signals (.cuWait c) (.cuNotified c)
  | park (c : CuPtr) (m : MsgPtr) : Signals (.park c m) (.parted c m)

/-- One change; `New` says where coroutines may come to. -/
inductive Touch (New : Sys → Task → Spot → Prop) : Sys → Sys → Prop
  | objects {s s' : Sys} : Aside s s' → Touch New s s'
  | count {s : Sys} (m : MsgPtr) (f : Msg → Msg) : (f (s.msg m)).body = (s.msg m).body →
      ((f (s.msg m)).ref = 0 ↔ (s.msg m).ref = 0) → Touch New s (s.modMsg m f)
  | delete {s : Sys} (m : MsgPtr) : (s.msg m).ref = 1 → Touch New s (s.deleteMsg m)
  | place {s : Sys} (t : Task) (k : Spot) : New s t k → Touch New s (s.place t k)
  | signal {s : Sys} (t u : Task) : Signals t u → t ∈ s.conds →
      Touch New s { s with conds := s.conds.erase t, runq := s.runq ++ [u] }

abbrev Touched (New : Sys → Task → Spot → Prop) : Sys → Sys → Prop := Relation.ReflTransGen (Touch New)

/-- A part of a step is a chain of touches; it may end the run, and with a null pointer only if `B` holds. -/
inductive Via (New : Sys → Task → Spot → Prop) (B : Prop) (s : Sys) : Outcome → Prop
  | ok {s' : Sys} : Touched New s s' → Via New B s (.ok s')
  | stop {s' : Sys} {e : Fault} : Touched New s s' → (e = .null → B) → Via New B s (s'.stop e)

/-- A chain of touches, with at most one change `R` in between. -/
inductive Way (New : Sys → Task → Spot → Prop) (R : Sys → Sys → Prop) (B : Prop) (s : Sys) (o : Outcome) : Prop
  | plain : Via New B s o → Way New R B s o
  | once {s₁ s₂ : Sys} : Touched New s s₁ → R s₁ s₂ → Via New B s₂ o → Way New R B s o

/-- What is written down, apart from messages and buffers. -/
theorem touched_log {l : Log} (hf : l.frees = s.log.frees) (hn : l.news = s.log.news) :
    Touched New s { s with log := l } :=
  .single (.objects ⟨rfl, rfl, rfl, rfl, rfl, rfl, rfl, rfl, rfl, hf, hn, fun _ => rfl, fun _ _ h => h⟩)

theorem via_ok (h : Touched New s s') : Via New B s (.ok s') := .ok h

theorem via_stop {e : Fault} (h : e = .null → B) : Via New B s (s.stop e) := .stop .refl h

theorem Via.after (h : Touched New s s₁) (ho : Via New B s₁ o) : Via New B s o := by
  cases ho with
  | ok h' => exact .ok (h.trans h')
  | stop h' hB => exact .stop (h.trans h') hB

theorem Via.bind (ho : Via New B s o) (hf : ∀ s₁, o = .ok s₁ → Via New B s₁ (f s₁)) :
    Via New B s (o >>= f) := by
  cases ho with
  | ok h => exact (hf _ rfl).after h
  | stop h hB => exact .stop h hB

theorem Way.after (h : Touched New s s₁) (ho : Way New R B s₁ o) : Way New R B s o := by
  cases ho with
  | plain ho => exact .plain (ho.after h)
  | once h' hs ho => exact .once (h.trans h') hs ho

theorem Way.bind (ho : Via New B s o) (hf : ∀ s₁, o = .ok s₁ → Way New R B s₁ (f s₁)) :
    Way New R B s (o >>= f) := by
  cases ho with
  | ok h => exact (hf _ rfl).after h
  | stop h hB => exact .plain (.stop h hB)

theorem Way.special (h : R s s₁) (ho : Via New B s₁ o) : Way New R B s o := .once .refl h ho

/-- A change of the fields of a device. -/
theorem touched_modPu {g : PuProxy → PuProxy} (hg : ∀ o, (g o).video = o.video) :
    Touched New s (s.modPu p g) := by
  refine .single (.objects ⟨rfl, rfl, rfl, rfl, rfl, rfl, rfl, rfl, rfl, rfl, rfl, fun q => ?_, fun _ _ h => h⟩)
  obtain rfl | hq := eq_or_ne q p
  · simp [hg]
  · simp [hq]

/-- A change of the fields of a client. -/
theorem touched_modCu {g : CuProxy → CuProxy} (hg : ∀ o p, (g o).puProxy = some p → o.puProxy = some p) :
    Touched New s (s.modCu c g) := by
  refine .single (.objects ⟨rfl, rfl, rfl, rfl, rfl, rfl, rfl, rfl, rfl, rfl, rfl, fun _ => rfl, fun d q hq => ?_⟩)
  obtain rfl | hd := eq_or_ne d c
  · exact hg _ _ (by simpa using hq)
  · simpa [hd] using hq

theorem touched_addPu : Touched New s (s.addPu p) := touched_modPu fun _ => rfl

theorem touched_place (h : New s t k) : Touched New s (s.place t k) := .single (.place t k h)

theorem touched_signal (h : Signals t u) : Touched New s (s.signal t u) := by
  unfold Sys.signal
  split
  next ht => exact .single (.signal t u h ht)
  next => exact .refl

/-! ### Messages -/

theorem touched_noteUse : Touched New s (s.noteUse m) := touched_log rfl rfl

theorem via_touch : Via New B s (s.touch m) := by
  unfold Sys.touch
  split
  · exact (via_stop nofun).after touched_noteUse
  · exact via_ok touched_noteUse

theorem via_addMsg : Via New B s (s.addMsg m) := by
  refine via_touch.bind fun s₁ h => via_ok (.single (.count m _ rfl ?_))
  obtain ⟨rfl, h0⟩ := Sys.touch_ok h
  simp [h0]

theorem via_releaseMsg : Via New B s (s.releaseMsg m) := by
  refine via_touch.bind fun s₁ h => via_ok ?_
  obtain ⟨rfl, h0⟩ := Sys.touch_ok h
  split
  next h1 => exact .single (.delete m h1)
  next h1 => exact .single (.count m _ rfl (by simp at h1 ⊢; omega))

theorem via_releaseAll : ∀ (l : List MsgPtr) (s : Sys), Via New B s (s.releaseAll l)
  | [], _ => via_ok .refl
  | m :: l, s => by
    rw [Sys.releaseAll, List.foldlM_cons]
    exact via_releaseMsg.bind fun s₁ _ => via_releaseAll l s₁

theorem touched_lose {l : List MsgPtr} : Touched New s (s.lose l) := touched_log rfl rfl

/-! ### Devices -/

theorem via_callPu {method : Method} : Via New B s (s.callPu p method) := by
  have hnote : Touched New s (s.noteCall p method) := touched_log rfl rfl
  unfold Sys.callPu
  split
  · exact (via_stop nofun).after hnote
  · exact via_ok hnote

theorem touched_unregister {sn : String} : Touched New s (s.unregister sn) :=
  .single (.objects ⟨rfl, rfl, rfl, rfl, rfl, rfl, rfl, rfl, rfl, rfl, rfl, fun _ => rfl, fun _ _ h => h⟩)

theorem via_deletePu (hB : (s.pu p).video = none → B) : Via New B s (s.deletePu p) := by
  unfold Sys.deletePu
  split
  next hv => exact via_stop fun _ => hB hv
  next v hv =>
    refine (via_releaseMsg.bind fun s₁ _ => via_releaseAll _ s₁).after ?_
    have hclear : Touched New s (s.modPu p fun o => { o with ref := 0, queue := [] }) := touched_modPu fun _ => rfl
    exact (hclear.trans touched_unregister).trans touched_lose

theorem via_releasePu (hB : (s.pu p).ref = 1 → (s.pu p).video = none → B) :
    Via New B s (s.releasePu p) := by
  unfold Sys.releasePu
  split_ifs with h0 h1
  · exact via_stop nofun
  · exact via_deletePu (hB h1)
  · exact via_ok (touched_modPu fun _ => rfl)

theorem touched_notifyPu : Touched New s (s.notifyPu p) := touched_signal (.pu p)

theorem via_puSendMsg : Via New B s (s.puSendMsg p m) := by
  unfold Sys.puSendMsg
  split
  · refine via_addMsg.bind fun s₁ _ => via_ok (.trans ?_ touched_notifyPu)
    exact touched_modPu fun _ => rfl
  · exact via_ok touched_lose

/-! ### Clients -/

theorem via_addCu : Via New B s (s.addCu c) := by
  unfold Sys.addCu
  split
  · exact via_stop nofun
  · exact via_ok (touched_modCu fun _ _ => id)

theorem via_releaseCu : Via New B s (s.releaseCu c) := by
  unfold Sys.releaseCu
  split_ifs
  · exact via_stop nofun
  · refine .after (.trans ?_ touched_lose) (via_releaseAll _ _)
    exact touched_modCu fun _ _ => id
  · exact via_ok (touched_modCu fun _ _ => id)

theorem touched_notifyCu : Touched New s (s.notifyCu c) := touched_signal (.cu c)

theorem via_cuSendMsg : Via New B s (s.cuSendMsg c m) := by
  unfold Sys.cuSendMsg
  split_ifs
  · exact via_stop nofun
  · refine via_addMsg.bind fun s₁ _ => via_ok (.trans ?_ touched_notifyCu)
    have hqueue : Touched New s₁ (s₁.modCu c fun o => { o with queue := o.queue ++ [m] }) :=
      touched_modCu fun _ _ => id
    exact hqueue.trans (touched_log rfl rfl)
  · exact via_ok touched_lose

theorem via_cuClose : Via New B s (s.cuClose c) := by
  have hclosed : Touched New s (s.modCu c fun o => { o with valid := false }) := touched_modCu fun _ _ => id
  unfold Sys.cuClose
  split
  · cases hw : (s.cu c).videoMsgWrap with
    | none =>
      simp only [Sys.modCu_cu, update_self, hw]
      exact via_releaseCu.after (hclosed.trans touched_notifyCu)
    | some m =>
      simp only [Sys.modCu_cu, update_self, hw]
      refine .after hclosed (via_touch.bind fun s₁ _ => via_releaseCu.after (.trans ?_ touched_notifyCu))
      have hwoken : Touched New s₁ (s₁.signal (.park c m) (.parted c m)) := touched_signal (.park c m)
      exact hwoken.trans (touched_modCu fun _ _ => id)
  · exact via_releaseCu

/-- `check_net`, and what follows it. -/
theorem via_checkNet {g : Bool → Sys → Outcome} (hg : ∀ b s₁, Via New B s₁ (g b s₁)) :
    Via New B s (s.checkNet c g) := by
  unfold Sys.checkNet
  split
  · exact hg _ _
  · exact via_callPu.bind fun s₁ _ => hg _ _

/-! ### What is special about a point -/

/-- The device of a coroutine that is yet to send `open_video`, or to create who sends it. -/
def young : Task → Option PuPtr
  | .puSend p | .heart p | .openVideo p => some p
  | _ => none

/-- The device whose receiver is between its first `st_read` and the end of a message. -/
def reading : Task → Option PuPtr
  | .puHeader p | .puLoad p _ _ | .puBody p _ _ => some p
  | _ => none

/-- The device that the coroutines of `run`, and those they create, belong to. -/
def session : Task → Option PuPtr
  | .login _ _ => none
  | t => device t

/-- The message that the receiver of a client has read, or that a request is to answer. -/
def drafted : Task → Option MsgPtr
  | .cuMessage _ _ m | .openReal _ m => some m
  | _ => none

/-- The points that it matters how a coroutine comes to: that of a client about to be constructed, and those that
`young`, `reading` and `drafted` are about. -/
def Plain : Task → Prop
  | .client _ => False
  | t => young t = none ∧ reading t = none ∧ drafted t = none

/-- The points where the coroutines of a session are created. -/
def Begins : Task → Prop
  | .login _ _ | .puSend _ | .heart _ => True
  | _ => False

/-- Where a coroutine that goes on at a point can come to, or another one that it creates. -/
inductive Next : Task → Sys → Task → Spot → Prop
  | other {s : Sys} {t t' : Task} {k : Spot} : Plain t' → session t' = none → Next t s t' k
  | own {s : Sys} {t t' : Task} {k : Spot} : Plain t' → session t' = session t → Next t s t' k
  | begins {s : Sys} {t t' : Task} {k : Spot} : Begins t → reading t' = none → drafted t' = none → Next t s t' k
  | header {s : Sys} {p : PuPtr} : Next (.puRecv p) s (.puHeader p) .io
  | load {s : Sys} {p : PuPtr} {hdr : Header} {buf : ℕ} :
      buf + 1 = s.bufs → Next (.puHeader p) s (.puLoad p hdr buf) .running
  | body {s : Sys} {p : PuPtr} {hdr : Header} {buf : ℕ} : Next (.puLoad p hdr buf) s (.puBody p hdr buf) .io
  | again {s : Sys} {p : PuPtr} {hdr : Header} {buf : ℕ} : Next (.puBody p hdr buf) s (.puBody p hdr buf) .io
  | client {s : Sys} {type sn : Option String} {p : PuPtr} :
      (s.pu p).video ≠ none → Next (.handshake type sn) s (.client p) .io
  | message {s : Sys} {c : CuPtr} {hdr : Header} {m : MsgPtr} :
      (s.msg m).body = .null → m.number < s.log.news.length → m.maker = .client c →
      Next (.cuHeader c) s (.cuMessage c hdr m) .running
  | whole {s : Sys} {c : CuPtr} {hdr : Header} {m : MsgPtr} :
      Next (.cuBody c hdr m) s (.cuMessage c hdr m) .running
  | request {s : Sys} {c : CuPtr} {hdr : Header} {m : MsgPtr} :
      Next (.cuMessage c hdr m) s (.openReal c m) .runq

/-- The change that only a coroutine at the point `t` makes. -/
inductive Special : Task → Sys → Sys → Prop
  | session {s : Sys} {type sn : Option String} (sn' : String) : Special (.handshake type sn) s (s.newPu sn')
  | client {s : Sys} {p : PuPtr} : Special (.client p) s
      { s with cu := update s.cu s.cus ⟨1, true, [], some p, none, 0⟩, cus := s.cus + 1 }
  | header {s : Sys} {p : PuPtr} : Special (.puHeader p) s s.newBuf
  | frame {s : Sys} {p : PuPtr} {hdr : Header} {buf : ℕ} (hdr' : Header) (bytes : List UInt8) :
      Special (.puBody p hdr buf) s (s.newMsg (s.fresh (.frame p)) hdr' (.held buf bytes))
  | answer {s : Sys} {p : PuPtr} {hdr : Header} {buf : ℕ} {v : MsgPtr} (bytes : List UInt8) (f : Msg → Msg) :
      (s.pu p).video = some v → (f (s.msg v)).ref = (s.msg v).ref → (f (s.msg v)).body = .held buf bytes →
      Special (.puBody p hdr buf) s ((s.free (s.msg v).body).modMsg v f)
  | beat {s : Sys} {p : PuPtr} {count : ℕ} (hdr : Header) :
      Special (.beat p count) s (s.newMsg (s.fresh (.device p)) hdr .null)
  | opened {s : Sys} {p : PuPtr} (hdr : Header) (bytes : List UInt8) : Special (.openVideo p) s
      ((s.newBuf.newMsg (s.fresh (.device p)) hdr (.held s.bufs bytes)).modPu p fun o =>
        { o with video := some (s.fresh (.device p)) })
  | request {s : Sys} {c : CuPtr} (hdr : Header) (bytes : List UInt8) : Special (.cuHeader c) s
      (s.newBuf.newMsg (s.fresh (.client c)) hdr (.held s.bufs bytes))
  | empty {s : Sys} {c : CuPtr} (hdr : Header) :
      Special (.cuHeader c) s (s.newMsg (s.fresh (.client c)) hdr .null)
  | body {s : Sys} {c : CuPtr} {hdr : Header} {m : MsgPtr} : Special (.cuBody c hdr m) s
      ((s.free (s.msg m).body).modMsg m fun o => { o with body := o.body.buf.elim .null .freed })
  | copy {s : Sys} {c : CuPtr} {m : MsgPtr} (bytes : List UInt8) (f : Msg → Msg) :
      (s.msg m).ref ≠ 0 → (f (s.msg m)).ref = (s.msg m).ref → (f (s.msg m)).body = .held s.bufs bytes →
      Special (.openReal c m) s (s.newBuf.modMsg m f)

/-- When a coroutine that goes on at `t` can meet a null pointer. -/
def Null (s : Sys) : Task → Prop
  | .handshake _ sn => sn = none
  | .login sn _ => s.deviceMap sn = none
  | .puBody p _ _ => (s.pu p).video = none
  | .puClose p | .beat p _ => (s.pu p).ref = 1 ∧ (s.pu p).video = none
  | .openReal c _ => (s.cu c).puProxy = none
  | .parted c _ => ∃ p, (s.cu c).puProxy = some p ∧ (s.pu p).video = none
  | .leave c _ => ∀ p, (s.cu c).puProxy = some p → (s.pu p).ref = 1 ∧ (s.pu p).video = none
  | _ => False

/-- A coroutine that goes on at `t`, without its special change. -/
abbrev Goes (t : Task) (s : Sys) (o : Outcome) : Prop := Via (Next t) (Null s t) s o

/-- A coroutine that goes on at `t`. -/
abbrev Resumed (t : Task) (s : Sys) (o : Outcome) : Prop := Way (Next t) (Special t) (Null s t) s o

theorem via_go (h : Next t s u .running) : Via (Next t) B s (s.go u) := via_ok (touched_place h)

theorem via_block (h : Next t s u .io) : Via (Next t) B s (s.block u) := via_ok (touched_place h)

theorem via_wait (h : Next t s u .conds) : Via (Next t) B s (s.wait u) := via_ok (touched_place h)

theorem touched_fork (h : Next t s u .runq) : Touched (Next t) s (s.fork u) := touched_place h

/-! ### Parts that keep a field -/

theorem bind_ok (h : (o >>= f) = .ok s') : ∃ s₁, o = .ok s₁ ∧ f s₁ = .ok s' := by
  cases o with
  | ok s₁ => exact ⟨s₁, rfl, h⟩
  | error s₁ => cases h

theorem touch_pu (h : s.touch m = .ok s₁) : s₁.pu = s.pu := by
  rw [(Sys.touch_ok h).1]
  rfl

theorem releaseMsg_pu (h : s.releaseMsg m = .ok s₁) : s₁.pu = s.pu := by
  obtain ⟨s₂, h2, h⟩ := bind_ok h
  obtain rfl := Except.ok.inj h
  rw [← touch_pu h2]
  split <;> rfl

theorem releaseMsg_cu (h : s.releaseMsg m = .ok s₁) : s₁.cu = s.cu := by
  obtain ⟨s₂, h2, h⟩ := bind_ok h
  obtain rfl := Except.ok.inj h
  rw [show s.cu = s₂.cu by rw [(Sys.touch_ok h2).1]; rfl]
  split <;> rfl

theorem callPu_ok {method : Method} (h : s.callPu p method = .ok s₁) :
    s₁ = s.noteCall p method ∧ (s.pu p).ref ≠ 0 := by
  unfold Sys.callPu at h
  split at h
  · cases h
  next h0 => exact ⟨(Except.ok.inj h).symm, h0⟩

theorem addCu_ok (h : s.addCu c = .ok s₁) : s₁ = s.modCu c fun o => { o with ref := o.ref + 1 } := by
  unfold Sys.addCu at h
  split at h
  · cases h
  · exact (Except.ok.inj h).symm

theorem addMsg_live {v : MsgPtr} (h : s.addMsg v = .ok s₁) (h0 : (s.msg m).ref ≠ 0) : (s₁.msg m).ref ≠ 0 := by
  obtain ⟨s₂, h₂, h⟩ := bind_ok h
  obtain ⟨rfl, -⟩ := Sys.touch_ok h₂
  obtain rfl := Except.ok.inj h
  obtain rfl | hne := eq_or_ne m v
  · simp
  · simpa [hne] using h0

/-- When no coroutine is placed and nothing is special, no `_real_video_cmd` changes. -/
theorem Via.video (ho : Via (fun _ _ _ => False) False s o) (h : o = .ok s₁) :
    (s₁.pu p).video = (s.pu p).video := by
  subst h
  cases ho with | ok hchain => ?_
  induction hchain with
  | refl => rfl
  | tail hc h ih =>
    refine .trans ?_ ih
    cases h with
    | objects h => exact h.video p
    | _ => simp

/-! ### The coroutines of a device -/

section

variable {r : Result} {hdr : Header} {buf : ℕ} {bytes : List UInt8} {viewers : List CuPtr} {batch : List MsgPtr}

theorem puRead_resumed : Goes (.puRecv p) s (s.puRead p r) := by
  unfold Sys.puRead
  split
  · exact via_block .header
  · exact via_go (.own ⟨rfl, rfl, rfl⟩ rfl)

theorem puOnHeader_resumed : Resumed (.puHeader p) s (s.puOnHeader p hdr) := by
  unfold Sys.puOnHeader
  split_ifs
  · exact .plain (via_go (.own ⟨rfl, rfl, rfl⟩ rfl))
  · exact .plain (via_go (.own ⟨rfl, rfl, rfl⟩ rfl))
  · exact .special .header (via_go (.load rfl))

theorem puOnBody_resumed : Resumed (.puBody p hdr buf) s (s.puOnBody p hdr buf bytes) := by
  unfold Sys.puOnBody
  dsimp only
  split
  · exact .special (.frame _ _) (via_go (.own ⟨rfl, rfl, rfl⟩ rfl))
  · split
    · split
      next hv => exact .plain (via_stop fun _ => hv)
      next v hv =>
        refine .bind via_touch fun s₁ h₁ => .special (.answer _ _ ?_ rfl rfl) (via_go (.own ⟨rfl, rfl, rfl⟩ rfl))
        rw [touch_pu h₁, hv]
    · exact .plain (via_go (.own ⟨rfl, rfl, rfl⟩ rfl))

theorem fanOut_resumed : Goes (.puFan p m viewers) s (s.fanOut p m viewers) := by
  cases viewers with
  | nil => exact via_releaseMsg.bind fun s₁ _ => via_go (.own ⟨rfl, rfl, rfl⟩ rfl)
  | cons c cs => exact via_addMsg.bind fun s₁ _ => via_cuSendMsg.bind fun s₂ _ => via_go (.own ⟨rfl, rfl, rfl⟩ rfl)

theorem puClose_resumed : Goes (.puClose p) s (s.puClose p) := by
  unfold Sys.puClose
  split
  · have hinvalid : Touched (Next (.puClose p)) s
        (s.modPu p fun o => { o with valid := false }) := touched_modPu fun _ => rfl
    refine .after (hinvalid.trans touched_notifyPu) (via_releasePu fun h1 hv => ⟨?_, ?_⟩)
    · simpa [Sys.notifyPu] using h1
    · simpa [Sys.notifyPu] using hv
  · exact via_releasePu fun h1 hv => ⟨h1, hv⟩

theorem puNotified_resumed : Goes (.puNotified p) s (s.puNotified p) := by
  unfold Sys.puNotified
  split
  · refine .bind (.after ?_ (via_releaseAll _ _)) fun s₁ _ => via_go (.own ⟨rfl, rfl, rfl⟩ rfl)
    exact touched_modPu fun _ => rfl
  · exact via_go (.own ⟨rfl, rfl, rfl⟩ rfl)

theorem puBatch_resumed : Goes (.puBatch p batch) s (s.puBatch p r batch) := by
  cases batch with
  | nil => exact via_wait (.own ⟨rfl, rfl, rfl⟩ rfl)
  | cons m batch =>
    refine via_touch.bind fun s₁ _ => ?_
    have hserial (serial : UInt32) : Touched (Next (.puBatch p (m :: batch))) s₁
        ((s₁.modMsg m fun o => { o with hdr := { o.hdr with serialid := serial } }).modPu p fun o =>
          { o with serial := serial + 1 }) :=
      .trans (.single (.count m _ rfl .rfl)) (touched_modPu fun _ => rfl)
    refine .after (hserial (s₁.pu p).serial) ?_
    dsimp only
    split_ifs
    · exact via_stop nofun
    · exact via_block (.own ⟨rfl, rfl, rfl⟩ rfl)
    · exact (via_releaseAll _ _).bind fun s₂ _ => via_go (.own ⟨rfl, rfl, rfl⟩ rfl)

theorem puBeat_resumed {count : ℕ} : Resumed (.beat p count) s (s.puBeat p count) := by
  unfold Sys.puBeat
  split_ifs
  · exact .plain (via_releasePu fun h1 hv => ⟨h1, hv⟩)
  · exact .plain (via_block (.own ⟨rfl, rfl, rfl⟩ rfl))
  · exact .special (.beat _) (via_puSendMsg.bind fun s₁ _ => via_block (.own ⟨rfl, rfl, rfl⟩ rfl))

/-- `handle_open_video` up to `send_msg`: `_real_video_cmd` has been set. -/
def videoOpened (s : Sys) (p : PuPtr) : Sys :=
  ((s.addPu p).newBuf.newMsg ((s.addPu p).fresh (.device p)) ⟨hmcmdOpenVideo, Sys.openVideoBody.length.toUInt32, 0, 0⟩
    (.held (s.addPu p).bufs Sys.openVideoBody)).modPu p fun o =>
      { o with video := some ((s.addPu p).fresh (.device p)) }

theorem videoOpened_video : ((videoOpened s p).pu p).video = some ((s.addPu p).fresh (.device p)) := by
  simp [videoOpened]

theorem special_videoOpened : Special (.openVideo p) (s.addPu p) (videoOpened s p) := .opened _ _

theorem videoOpened_resumed : Goes (.openVideo p) (videoOpened s p) (s.handleOpenVideo p) := by
  refine via_addMsg.bind fun s₁ h₁ => via_puSendMsg.bind fun s₂ h₂ => via_releasePu fun _ hv => ?_
  rw [via_puSendMsg.video h₂, via_addMsg.video h₁] at hv
  exact absurd (hv.symm.trans videoOpened_video) (Option.some_ne_none _).symm

theorem runDevice_resumed {sn : String} {made : PuPtr} : Goes (.login sn made) s (s.runDevice sn) := by
  unfold Sys.runDevice
  split
  next hsn => exact via_stop fun _ => hsn
  next p hp =>
    refine via_callPu.bind fun s₁ _ => via_callPu.bind fun s₂ h₂ => ?_
    have hrun : Touched (Next (.login sn made)) s₂ (s₂.puRun p) := by
      have hvalid : Touched (Next (.login sn made)) s₂
          (s₂.modPu p fun o => { o with valid := true }) := touched_modPu fun _ => rfl
      exact (((hvalid.trans touched_addPu).trans touched_addPu).trans
        (touched_fork (.begins trivial rfl rfl))).trans (touched_fork (.begins trivial rfl rfl))
    refine .after hrun (via_callPu.bind fun s₃ h₃ => via_releasePu fun h1 _ => ?_)
    -- the coroutines have their references
    have href : (s₃.pu p).ref = (s₂.pu p).ref + 2 := by
      rw [(callPu_ok h₃).1]
      simp [Sys.puRun, Sys.fork, Sys.addPu]
    omega

end
/-! ### The coroutines of a client -/

section

variable {r : Result} {hdr : Header} {batch : List MsgPtr}

theorem cuRead_resumed : Goes (.cuRecv c) s (s.cuRead c r) := by
  unfold Sys.cuRead
  split
  · exact via_block (.other ⟨rfl, rfl, rfl⟩ rfl)
  · exact via_go (.other ⟨rfl, rfl, rfl⟩ rfl)

theorem cuOnHeader_resumed : Resumed (.cuHeader c) s (s.cuOnHeader c hdr) := by
  have hgo (net : Bool) (s : Sys) : Way (Next (.cuHeader c)) (Special (.cuHeader c)) False s
      (if !net then s.go (.cuClose c)
      else if 0 < hdr.bodylen then
        (s.newBuf.newMsg (s.fresh (.client c)) hdr (.held s.bufs [])).go (.cuLoad c hdr (s.fresh (.client c)))
      else (s.newMsg (s.fresh (.client c)) hdr .null).go (.cuMessage c hdr (s.fresh (.client c)))) := by
    split_ifs
    · exact .plain (via_go (.other ⟨rfl, rfl, rfl⟩ rfl))
    · exact .special (.request _ _) (via_go (.other ⟨rfl, rfl, rfl⟩ rfl))
    · exact .special (.empty _) (via_go (.message (by simp) (by simp [Sys.fresh]) rfl))
  unfold Sys.cuOnHeader Sys.checkNet
  split
  · exact hgo false s
  · exact .bind via_callPu fun s₁ _ => hgo _ s₁

theorem via_cuGiveUp : Via (Next t) B s (s.cuGiveUp c m) :=
  via_releaseMsg.bind fun _ _ => via_go (.other ⟨rfl, rfl, rfl⟩ rfl)

theorem cuOnBody_resumed : Resumed (.cuBody c hdr m) s (s.cuOnBody c m hdr) :=
  .bind via_touch fun _ _ => .special .body (via_go .whole)

theorem cuOnMessage_resumed : Goes (.cuMessage c hdr m) s (s.cuOnMessage c m hdr) := by
  refine via_checkNet fun net _ => ?_
  split_ifs
  · exact via_cuGiveUp
  · refine via_touch.bind fun s₂ _ => .after ?_ (via_cuSendMsg.bind fun s₃ _ => via_go (.other ⟨rfl, rfl, rfl⟩ rfl))
    exact .single (.count m _ rfl .rfl)
  · refine .after (.trans ?_ (touched_fork (u := .openReal c m) .request))
      (via_go (.other ⟨rfl, rfl, rfl⟩ rfl))
    exact touched_modCu fun _ _ => id
  · exact via_cuGiveUp

theorem cuNotified_resumed : Goes (.cuNotified c) s (s.cuNotified c) := by
  unfold Sys.cuNotified
  split
  · refine .bind (.after ?_ (via_releaseAll _ _)) fun s₁ _ => via_go (.other ⟨rfl, rfl, rfl⟩ rfl)
    exact touched_modCu fun _ _ => id
  · exact via_go (.other ⟨rfl, rfl, rfl⟩ rfl)

theorem cuBatch_resumed : Goes (.cuBatch c batch) s (s.cuBatch c r batch) := by
  cases batch with
  | nil => exact via_wait (.other ⟨rfl, rfl, rfl⟩ rfl)
  | cons m batch =>
    refine via_touch.bind fun s₁ _ => ?_
    split_ifs
    · exact via_stop nofun
    · exact via_block (.other ⟨rfl, rfl, rfl⟩ rfl)
    · exact (via_releaseAll _ _).bind fun s₂ _ => via_go (.other ⟨rfl, rfl, rfl⟩ rfl)

theorem cuWritten_resumed {x : Write} :
    Goes (.cuWrite c x.frame m batch) s (s.cuWritten c m x batch) := by
  have hnote : Touched (Next (.cuWrite c x.frame m batch)) s
      (s.noteWritten c x) := touched_log rfl rfl
  exact .bind (.after hnote via_releaseMsg) fun s₁ _ => via_go (.other ⟨rfl, rfl, rfl⟩ rfl)

theorem cuExit_resumed : Goes (.cuExit c) s (s.cuExit c) := by
  refine .bind (.after (.trans ?_ touched_lose) (via_releaseAll _ _)) fun s₁ _ => via_go (.other ⟨rfl, rfl, rfl⟩ rfl)
  exact touched_modCu fun _ _ => id

theorem openReal_resumed : Resumed (.openReal c m) s (s.openReal c m) := by
  refine .bind via_addCu fun s₁ h₁ => .bind via_touch fun s₂ h₂ => ?_
  have hserial : Touched (Next (.openReal c m)) s₂
      (s₂.modCu c fun o => { o with videoSerial := (s₂.msg m).hdr.serialid }) := touched_modCu fun _ _ => id
  refine .after hserial ?_
  dsimp only
  split
  next hp =>
    refine .plain (via_stop fun _ => ?_)
    obtain rfl := addCu_ok h₁
    obtain ⟨rfl, -⟩ := Sys.touch_ok h₂
    simpa [Null] using hp
  next p hp =>
    refine .bind via_callPu fun s₃ h₃ => .bind via_addCu fun s₄ h₄ => ?_
    split
    · exact .plain (via_stop nofun)
    next v hv =>
      refine .bind via_addMsg fun s₅ h₅ => ?_
      have hviewers : Touched (Next (.openReal c m)) s₅ (s₅.modPu p fun o => { o with viewers := o.viewers ++ [c] }) :=
        touched_modPu fun _ => rfl
      refine .after hviewers (.bind via_touch fun s₆ h₆ => ?_)
      -- the message is still there
      have hlive : (s₆.msg m).ref ≠ 0 := by
        obtain ⟨rfl, -⟩ := Sys.touch_ok h₆
        have hlive : (s₅.msg m).ref ≠ 0 := addMsg_live h₅ ?_
        · exact hlive
        obtain rfl := addCu_ok h₄
        obtain ⟨rfl, -⟩ := callPu_ok h₃
        obtain ⟨rfl, h0⟩ := Sys.touch_ok h₂
        exact h0
      -- the answer is sent, and the coroutine waits
      have hsend (s₇ : Sys) : Via (Next (.openReal c m)) (Null s (.openReal c m)) s₇ (do
          let s ← s₇.cuSendMsg c m
          let s ← s.addMsg m
          s.wait (.park c m)) :=
        via_cuSendMsg.bind fun _ _ => via_addMsg.bind fun _ _ => via_wait (.other ⟨rfl, rfl, rfl⟩ rfl)
      unfold Sys.copyMsg
      dsimp only
      split
      · exact .special (.copy _ _ hlive rfl rfl) (hsend _)
      · exact .after (.single (.count m _ rfl .rfl)) (.plain (hsend _))

theorem parted_resumed : Goes (.parted c m) s (s.parted c m) := by
  unfold Sys.parted
  split
  · exact via_go (.other ⟨rfl, rfl, rfl⟩ rfl)
  next p hp =>
    refine via_callPu.bind fun s₁ h₁ => .bind ?_ fun s₂ _ => via_go (.other ⟨rfl, rfl, rfl⟩ rfl)
    unfold Sys.closeRealVideo
    split
    · refine via_releaseCu.bind fun s₂ h₂ => ?_
      have hviewers : Touched (Next (.parted c m)) s₂
          (s₂.modPu p fun o => { o with viewers := o.viewers.erase c }) := touched_modPu fun _ => rfl
      refine .after hviewers ?_
      dsimp only
      split
      next hv =>
        refine via_stop fun _ => ⟨p, hp, ?_⟩
        rw [← via_callPu.video h₁, ← via_releaseCu.video h₂]
        simpa using hv
      · exact via_releaseMsg
    · exact via_ok .refl

theorem leave_resumed : Goes (.leave c m) s (s.leave c m) := by
  refine via_releaseMsg.bind fun s₁ h₁ => .bind ?_ fun s₂ _ => via_releaseCu
  have hnote (s : Sys) : Touched (Next (.leave c m)) s (s.noteUninit c) := touched_log rfl rfl
  unfold Sys.uninit
  split
  next hp =>
    refine .after (hnote s₁) (via_stop fun _ p hp' => ?_)
    rw [releaseMsg_cu h₁, hp'] at hp
    cases hp
  next p hp =>
    have htake : Touched (Next (.leave c m)) s₁
        ((s₁.noteUninit c).modCu c fun o => { o with puProxy := none }) := (hnote s₁).trans (touched_modCu nofun)
    refine .after htake (via_callPu.bind fun s₂ h₂ => via_releasePu fun h1 hv q hq => ?_)
    rw [releaseMsg_cu h₁] at hp
    obtain rfl := Option.some.inj (hp.symm.trans hq)
    have hpu : s₂.pu = s.pu := by
      rw [(callPu_ok h₂).1, ← releaseMsg_pu h₁]
      rfl
    rw [hpu] at h1 hv
    exact ⟨h1, hv⟩

end

/-! ### The session -/

section

variable {r : Result} {type sn : Option String}

theorem runClient_resumed : Resumed (.client p) s (s.runClient p) := by
  refine .bind via_callPu fun s₁ _ => .once (touched_addPu : Touched _ s₁ (s₁.addPu p)) .client ?_
  refine via_addCu.bind fun s₂ _ => via_addCu.bind fun s₃ _ => via_releaseCu.after ?_
  exact (touched_fork (u := .cuRecv _) (.other ⟨rfl, rfl, rfl⟩ rfl)).trans
    (touched_fork (u := .cuSend _) (.other ⟨rfl, rfl, rfl⟩ rfl))

theorem loginDevice_resumed {name : String} :
    Resumed (.handshake type sn) s (s.loginDevice r name) := by
  unfold Sys.loginDevice
  split
  · exact .plain (via_ok .refl)
  · split
    · exact .special (.session _) (via_go (.other ⟨rfl, rfl, rfl⟩ rfl))
    · exact .special (.session _) (via_block (.other ⟨rfl, rfl, rfl⟩ rfl))

theorem findDevice_resumed {name : String} : Resumed (.handshake type sn) s (s.findDevice r name) := by
  unfold Sys.findDevice
  split
  · exact .plain (via_ok .refl)
  next p hp =>
    refine .bind via_callPu fun s₁ _ => ?_
    split
    · exact .plain (via_ok .refl)
    next h =>
      exact .plain (via_block (.client fun hv => h (.inl hv)))

theorem handleSession_resumed : Resumed (.handshake type sn) s (s.handleSession r type sn) := by
  unfold Sys.handleSession
  split
  · exact .plain (via_ok .refl)
  · split
    · split
      · exact .plain (via_stop fun _ => rfl)
      · exact loginDevice_resumed
    · split
      · exact .plain (via_stop nofun)
      · split
        · exact loginDevice_resumed
        · exact findDevice_resumed

end

/-- **What a coroutine does on its way to its next point.** -/
theorem via_resume {r : Result} : Resumed t s (s.resume r t) := by
  cases t with
  | connections =>
    simp only [Sys.resume]
    split
    · exact .plain (via_ok (touched_fork (.other ⟨rfl, rfl, rfl⟩ rfl)))
    · exact .plain (via_block (.other ⟨rfl, rfl, rfl⟩ rfl))
  | accept =>
    exact .plain (via_ok ((touched_fork (u := .connections) (.other ⟨rfl, rfl, rfl⟩ rfl)).trans
      (touched_fork (u := .session) (.other ⟨rfl, rfl, rfl⟩ rfl))))
  | session =>
    simp only [Sys.resume]
    split
    · exact .plain (via_ok .refl)
    · exact .plain (via_block (.other ⟨rfl, rfl, rfl⟩ rfl))
  | auth =>
    simp only [Sys.resume]
    split
    · exact .plain (via_block (.other ⟨rfl, rfl, rfl⟩ rfl))
    · exact .plain (via_go (.other ⟨rfl, rfl, rfl⟩ rfl))
    · exact .plain (via_ok .refl)
  | handshake type sn => exact handleSession_resumed
  | login sn p => exact .plain runDevice_resumed
  | client p => exact runClient_resumed
  | puRecv p => exact .plain puRead_resumed
  | puHeader p =>
    simp only [Sys.resume]
    split
    · exact puOnHeader_resumed
    · exact .plain (via_go (.own ⟨rfl, rfl, rfl⟩ rfl))
  | puLoad p hdr buf =>
    simp only [Sys.resume]
    split
    · exact .plain (via_block .body)
    · exact .plain (via_go (.own ⟨rfl, rfl, rfl⟩ rfl))
  | puBody p hdr buf =>
    simp only [Sys.resume]
    split
    · exact .plain (via_block .again)
    · exact puOnBody_resumed
    · exact .plain (via_go (.own ⟨rfl, rfl, rfl⟩ rfl))
  | puFan p m viewers => exact .plain fanOut_resumed
  | puClose p => exact .plain puClose_resumed
  | puSend p =>
    have hheart : Next (.puSend p) s (.heart p) .runq := .begins trivial rfl rfl
    exact .after (touched_fork hheart) (.plain (via_wait (.begins trivial rfl rfl)))
  | puWait p => exact .plain (via_wait (.own ⟨rfl, rfl, rfl⟩ rfl))
  | cuWait c | park c m | cuSend c => exact .plain (via_wait (.other ⟨rfl, rfl, rfl⟩ rfl))
  | puNotified p => exact .plain puNotified_resumed
  | puBatch p batch => exact .plain puBatch_resumed
  | puWrite p m batch => exact .plain (via_releaseMsg.bind fun s₁ _ => via_go (.own ⟨rfl, rfl, rfl⟩ rfl))
  | heart p =>
    have hopen : Next (.heart p) s (.openVideo p) .runq := .begins trivial rfl rfl
    exact .after ((touched_fork hopen).trans touched_addPu) (.plain (via_block (.begins trivial rfl rfl)))
  | beat p count => exact puBeat_resumed
  | openVideo p => exact .once touched_addPu special_videoOpened videoOpened_resumed
  | cuRecv c => exact .plain cuRead_resumed
  | cuHeader c =>
    simp only [Sys.resume]
    split
    · exact cuOnHeader_resumed
    · exact .plain (via_go (.other ⟨rfl, rfl, rfl⟩ rfl))
  | cuLoad c hdr m =>
    simp only [Sys.resume]
    split
    · exact .plain (via_block (.other ⟨rfl, rfl, rfl⟩ rfl))
    · exact .plain via_cuGiveUp
  | cuBody c hdr m =>
    simp only [Sys.resume]
    split
    · exact .plain (via_block (.other ⟨rfl, rfl, rfl⟩ rfl))
    · exact cuOnBody_resumed
    · exact .plain via_cuGiveUp
  | cuMessage c hdr m => exact .plain cuOnMessage_resumed
  | cuClose c => exact .plain via_cuClose
  | cuNotified c => exact .plain cuNotified_resumed
  | cuBatch c batch => exact .plain cuBatch_resumed
  | cuWrite c frame m batch => exact .plain (cuWritten_resumed (x := ⟨frame, r = .done⟩))
  | cuExit c => exact .plain cuExit_resumed
  | openReal c m => exact openReal_resumed
  | parted c m => exact .plain parted_resumed
  | leave c m => exact .plain leave_resumed

/-! ### Steps -/

/-- What a coroutine that goes on at `t` does to the state. -/
inductive Passed (t : Task) (s s' : Sys) : Prop
  | plain : Touched (Next t) s s' → Passed t s s'
  | once {s₁ s₂ : Sys} : Touched (Next t) s s₁ → Special t s₁ s₂ → Touched (Next t) s₂ s' → Passed t s s'

/-- The state that a step comes to before it ends the run, if it does. -/
structure Comes (t : Task) (s s' : Sys) (s₁ : Sys) : Prop where
  passed : Passed t { s with running := none } s₁
  ended : s' = s₁ ∨ ∃ e, s' = { s₁ with fault := some e } ∧ (e = .null → Null { s with running := none } t)

/-- Where a part of a step has led to. -/
theorem Via.ended (ho : Via New B s o) : ∃ s₁, Touched New s s₁ ∧
    (o = .ok s₁ ∨ ∃ e, o = .error { s₁ with fault := some e } ∧ (e = .null → B)) := by
  cases ho with
  | ok h => exact ⟨_, h, .inl rfl⟩
  | stop h hB => exact ⟨_, h, .inr ⟨_, rfl, hB⟩⟩

theorem Way.ended (ho : Resumed t s o) : ∃ s₁, Passed t s s₁ ∧
    (o = .ok s₁ ∨ ∃ e, o = .error { s₁ with fault := some e } ∧ (e = .null → Null s t)) := by
  cases ho with
  | plain ho =>
    obtain ⟨s₁, h, hend⟩ := ho.ended
    exact ⟨s₁, .plain h, hend⟩
  | once h hs ho =>
    obtain ⟨s₁, h', hend⟩ := ho.ended
    exact ⟨s₁, .once h hs h', hend⟩

/-- **A step of the running coroutine is a chain of touches.** -/
theorem go_comes {r : Result} (hrun : s.running = some t) (he : s.step (.go r) = some s') :
    ∃ s₁, Comes t s s' s₁ := by
  simp only [Sys.step, hrun] at he
  split at he
  · obtain rfl := Option.some.inj he
    exact ⟨_, .plain .refl, .inr ⟨.dead, rfl, by rintro ⟨⟩⟩⟩
  · obtain rfl := Option.some.inj he
    obtain ⟨s₁, h, ho | ⟨e, ho, hB⟩⟩ := (via_resume (t := t) (s := { s with running := none }) (r := r)).ended
    · exact ⟨s₁, h, .inl (by rw [ho]; rfl)⟩
    · exact ⟨s₁, h, .inr ⟨e, by rw [ho]; rfl, hB⟩⟩

/-- A step that does not end the run. -/
theorem go_ok {r : Result} (hrun : s.running = some t) (he : s.step (.go r) = some s') (hf : s'.fault = none) :
    Sys.resume { s with running := none } r t = .ok s' := by
  simp only [Sys.step, hrun] at he
  split at he
  · obtain rfl := Option.some.inj he
    cases hf
  · obtain rfl := Option.some.inj he
    obtain ⟨s₁, -, ho | ⟨e, ho, -⟩⟩ := (via_resume (t := t) (s := { s with running := none }) (r := r)).ended
    · rw [ho]
      rfl
    · rw [ho] at hf
      cases hf

theorem Touched.fault (h : Touched New s s') : s'.fault = s.fault := by
  induction h with
  | refl => rfl
  | tail _ h ih =>
    refine .trans ?_ ih
    cases h with
    | objects h => exact h.fault
    | place u k _ => exact place_fault
    | _ => rfl

theorem Passed.fault (h : Passed t s s') : s'.fault = s.fault := by
  cases h with
  | plain h => exact Touched.fault h
  | once h hs h' =>
    rw [Touched.fault h', ← Touched.fault h]
    cases hs <;> rfl

end StNvs.Server.Touches
