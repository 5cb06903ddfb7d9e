import StNvs.Server.References

/-! # The moves of the server

A step of the machine is made of moves: `Move law gain loss H s H' s'` lists them, with what the running
coroutine has in its hand before and after, and with the tokens that come into being and that vanish. A
`Law` is a condition on a run; a move that it rules out asks for it.

Everything proved of all runs is proved of the moves; that the steps are made of moves is shown once, in
`Server.Steps`. -/

namespace StNvs.Server.Moves

open StNvs.Lib.Holders StNvs.Server.Model StNvs.Server.References Function Token

/-- The conditions on a run that theorems ask for. -/
inductive Law
  | any | kept | prompt | parked | undone | lossless | silent
  deriving DecidableEq

/-- What holds of a coroutine at the point where it goes on, apart from what it has in its hand. -/
def Fits (s : Sys) : Task → Prop
  | .login sn p => (s.pu p).sn = sn
  | .puLoad _ hdr _ | .puBody _ hdr _ => hdr.bodylen ≤ 1024 * 1024
  | .puFan p m _ => m.maker = .frame p
  | .puBatch p batch => ∀ m ∈ batch, m.maker = .device p
  | .puWrite p m batch => ∀ x ∈ m :: batch, x.maker = .device p
  | .cuLoad c _ m | .cuBody c _ m | .cuMessage c _ m | .openReal c m | .park c m | .parted c m | .leave c m =>
    m.maker = .client c
  | .cuBatch _ batch => ∀ m ∈ batch, ∀ p, m.maker ≠ .device p
  | .cuWrite _ frame m batch =>
    frame = (s.content m).encode frame.serial ∧ ∀ x ∈ m :: batch, ∀ p, x.maker ≠ .device p
  | _ => True

/-- The points in `st_cond_wait`. -/
def Waits : Task → Prop
  | .puWait _ | .cuWait _ | .park _ _ => True
  | _ => False

/-- A client's sender is in `st_write`. -/
def Writes : Task → Prop
  | .cuWrite _ _ _ _ => True
  | _ => False

/-- A sender that comes to wait has nothing to do. -/
def Calm (s : Sys) : Task → Prop
  | .puWait p => (s.pu p).queue = [] ∧ (s.pu p).valid
  | .cuWait c => (s.cu c).queue = [] ∧ (s.cu c).valid
  | _ => True

/-- The body of a message has the length that its header says. -/
def Whole (o : Msg) : Prop := o.hdr.bodylen ≤ 1024 * 1024 ∧ o.hdr.bodylen.toNat ≤ o.body.bytes.length

def IsFrame (m : MsgPtr) : Prop := ∃ p, m.maker = .frame p

/-- `close` of a client with a valid socket, up to its release. -/
def closed (s : Sys) (c : CuPtr) : Sys :=
  let s' := s.modCu c fun o => { o with valid := false }
  match (s.cu c).videoMsgWrap with
  | none => s'.notifyCu c
  | some m =>
    ((s'.signal (.park c m) (.parted c m)).modCu c fun o => { o with videoMsgWrap := none }).notifyCu c

/-- When the socket of a client is invalidated, the coroutine of its last request is parked. -/
def LastParked (s : Sys) (c : CuPtr) : Prop :=
  ∃ m, (s.cu c).videoMsgWrap = some m ∧ .park c m ∈ s.conds

/-- When the socket of a client is invalidated, no coroutine of an earlier request is parked, and none has
yet to begin. -/
def NoneEarlier (s : Sys) (c : CuPtr) : Prop :=
  ∀ t ∈ s.tasks, ∀ m, t ≠ .openReal c m ∧ (t = .park c m → (s.cu c).videoMsgWrap = some m)

/-- The moves: what is gained and lost, the hand and the state before, the hand and the state after. -/
inductive Move (law : Law) :
    Multiset Token → Multiset Token → Hand → Sys → Hand → Sys → Prop
  -- coroutines
  | shuffle {H s r q i d} : (r.toList ++ q ++ i).Perm (s.running.toList ++ s.runq ++ s.io) →
      Move law 0 0 H s H { s with running := r, runq := q, io := i, idle := d }
  | take {H s t} : s.running = some t → Move law 0 0 H s (H + grants t) { s with running := none }
  | place {H s} t k : s.running = none → Fits s t → (Waits t ↔ k = .conds) → (law = .prompt → Calm s t) →
      (law = .silent → ¬ Writes t) → Move law 0 0 (H + grants t) s H (s.place t k)
  | stop {H s} f : Move law 0 0 H s H { s with fault := some f }
  -- messages
  | noteUse {H s m} : msg m ∈ H + tokens s ∨ draft m ∈ H + tokens s → Move law 0 0 H s H (s.noteUse m)
  | newBuf {H s} : Move law 0 0 H s H s.newBuf
  | free {H s} b : Move law 0 0 H s H (s.free b)
  | newMsg {H s} k hdr body : (∀ c, k ≠ .client c) → Whole ⟨1, hdr, body⟩ →
      Move law {msg (s.fresh k)} 0 H s (H + {msg (s.fresh k)}) (s.newMsg (s.fresh k) hdr body)
  | newDraft {H s} c hdr body :
      Move law ({right (s.fresh (.client c))} + {draft (s.fresh (.client c))}) 0 H s
        (H + {right (s.fresh (.client c))} + {draft (s.fresh (.client c))})
        (s.newMsg (s.fresh (.client c)) hdr body)
  | share {H s m} : Move law {msg m} {draft m} (H + {draft m}) s (H + {msg m}) s
  | writeDraft {H s m} f : (∀ o : Msg, (f o).ref = o.ref) →
      Move law 0 0 (H + {draft m}) s (H + {draft m}) (s.modMsg m f)
  | writeDevice {H s m} f p : m.maker = .device p → (∀ o : Msg, (f o).ref = o.ref) →
      (∀ o : Msg, Whole o → Whole (f o)) →
      Move law 0 0 H s H (s.modMsg m f)
  | addMsg {H s m} : msg m ∈ H + tokens s →
      Move law {msg m} 0 H s (H + {msg m}) (s.modMsg m fun o => { o with ref := o.ref + 1 })
  | dropMsg {H s m} : (s.msg m).ref ≠ 0 → (s.msg m).ref ≠ 1 →
      Move law 0 {msg m} (H + {msg m}) s H (s.modMsg m fun o => { o with ref := o.ref - 1 })
  | deleteMsg {H s m} : (s.msg m).ref = 1 → (∀ c b, cuSender c (some b) ∈ H → m ∉ b) →
      Move law 0 {msg m} (H + {msg m}) s H (s.deleteMsg m)
  | lose {H s m} : (law = .lossless → ¬ IsFrame m) → Move law 0 0 (H + {msg m}) s H (s.lose [m])
  | dropRight {H s m} : Move law 0 {right m} (H + {right m}) s H s
  | dropSender {H s p} : Move law 0 {puSender p} (H + {puSender p}) s H s
  -- devices
  | noteCall {H s p} method : pu p ∈ H + tokens s ∨ (law = .kept → (s.pu p).ref ≠ 0) →
      Move law 0 0 H s H (s.noteCall p method)
  | newPu {H s} sn : s.deviceMap sn = none →
      Move law ({pu s.pus} + {opening s.pus} + {puSender s.pus}) 0 H s
        (H + ({pu s.pus} + {opening s.pus} + {puSender s.pus})) (s.newPu sn)
  | addPu {H s p} : (s.pu p).ref ≠ 0 → Move law {pu p} 0 H s (H + {pu p}) (s.addPu p)
  | dropPu {H s p} : (s.pu p).ref ≠ 0 → (s.pu p).ref ≠ 1 →
      Move law 0 {pu p} (H + {pu p}) s H (s.modPu p fun o => { o with ref := o.ref - 1 })
  | deletePu {H s p v} : (s.pu p).ref = 1 → (s.pu p).video = some v →
      Move law 0 {pu p} (H + {pu p}) s (H + msgs (s.pu p).queue + {msg v})
        (((s.modPu p fun o => { o with ref := 0, queue := [] }).unregister (s.pu p).sn).lose (s.pu p).queue)
  | runPu {H s p} : Move law 0 0 H s H (s.modPu p fun o => { o with valid := true })
  | closePu {H s p} : Move law 0 0 H s H ((s.modPu p fun o => { o with valid := false }).notifyPu p)
  | pushPu {H s p m} : (s.pu p).valid → m.maker = .device p → (s.pu p).ref ≠ 0 →
      Move law 0 0 (H + {msg m} + {msg m}) s H
        ((s.modPu p fun o => { o with queue := o.queue ++ [m] }).notifyPu p)
  | backupPu {H s p} : (s.pu p).ref ≠ 0 →
      Move law 0 0 H s (H + msgs (s.pu p).queue + msgs (s.pu p).queue)
        (s.modPu p fun o => { o with queue := [] })
  | setVideo {H s p m} : m.maker = .device p → (s.pu p).ref ≠ 0 → (s.pu p).video = none →
      (s.pu p).viewers = [] →
      Move law 0 {opening p} (H + {opening p} + {msg m}) s H (s.modPu p fun o => { o with video := some m })
  | serialPu {H s p} n : Move law 0 0 H s H (s.modPu p fun o => { o with serial := n })
  | enter {H s p c v} : (s.pu p).ref ≠ 0 → (s.pu p).video = some v → (s.cu c).puProxy = some p →
      Move law ({seat c} + {entry c}) 0 (H + {cu c} + {msg v}) s (H + {seat c})
        (s.modPu p fun o => { o with viewers := o.viewers ++ [c] })
  | exit {H s p c v} : p < s.pus → c ∈ (s.pu p).viewers → (s.pu p).video = some v →
      Move law 0 ({seat c} + {entry c}) (H + {seat c}) s (H + {cu c} + {msg v})
        (s.modPu p fun o => { o with viewers := o.viewers.erase c })
  -- clients
  | newCu {H s p} :
      Move law ({cu s.cus} + {cuSender s.cus (some [])}) 0 (H + {pu p}) s
        (H + ({cu s.cus} + {cuSender s.cus (some [])}))
        { s with cu := update s.cu s.cus ⟨1, true, [], some p, none, 0⟩, cus := s.cus + 1 }
  | addCu {H s c} : (s.cu c).ref ≠ 0 →
      Move law {cu c} 0 H s (H + {cu c}) (s.modCu c fun o => { o with ref := o.ref + 1 })
  | dropCu {H s c} : (s.cu c).ref ≠ 0 → (s.cu c).ref ≠ 1 →
      Move law 0 {cu c} (H + {cu c}) s H (s.modCu c fun o => { o with ref := o.ref - 1 })
  | deleteCu {H s c} : (s.cu c).ref = 1 → (s.cu c).queue = [] →
      Move law 0 {cu c} (H + {cu c}) s H (s.modCu c fun o => { o with ref := 0, queue := [] })
  | closeQuiet {H s c} : (s.cu c).valid → law ≠ .parked →
      (law = .undone → ∀ m, m.maker = .client c → waiter m ∉ H + tokens s) →
      (∀ m, (s.cu c).videoMsgWrap = some m → .park c m ∉ s.conds) →
      Move law 0 0 H s H (closed s c)
  | closeParked {H s c m} : (s.cu c).valid →
      (law = .undone → ∀ x, x.maker = .client c → waiter x ∈ H + tokens s → x = m) →
      (s.cu c).videoMsgWrap = some m → .park c m ∈ s.conds →
      Move law {woken c} {waiter m} H s H (closed s c)
  | pushCu {H s c m} : (s.cu c).valid → (s.cu c).ref ≠ 0 → (∀ p, m.maker ≠ .device p) → Whole (s.msg m) →
      closing c ∉ H →
      Move law 0 0 (H + {msg m} + {msg m}) s H ((s.cuPush c m).notifyCu c)
  | backupCu {H s c} : (s.cu c).ref ≠ 0 →
      Move law {cuSender c (some (s.cu c).queue)} {cuSender c (some [])} (H + {cuSender c (some [])}) s
        (H + {cuSender c (some (s.cu c).queue)} + msgs (s.cu c).queue + msgs (s.cu c).queue)
        (s.modCu c fun o => { o with queue := [] })
  | giveUp {H s c b} :
      Move law {cuSender c none} {cuSender c b} (H + {cuSender c b}) s (H + {cuSender c none}) s
  | clearCu {H s c} : (s.cu c).ref ≠ 0 → (law = .lossless → ∀ m ∈ (s.cu c).queue, ¬ IsFrame m) →
      Move law {closing c} {cuSender c none} (H + {cuSender c none}) s
        (H + {closing c} + msgs (s.cu c).queue)
        ((s.modCu c fun o => { o with queue := [] }).lose (s.cu c).queue)
  | dropClosing {H s c} : (s.cu c).valid = false → Move law 0 {closing c} (H + {closing c}) s H s
  | noteWritten {H s c m b} (x : Write) : x.frame = (s.content m).encode x.frame.serial → law ≠ .silent →
      Move law {cuSender c (some b)} {cuSender c (some (m :: b))} (H + {cuSender c (some (m :: b))}) s
        (H + {cuSender c (some b)}) (s.noteWritten c x)
  | serialCu {H s c} n : Move law 0 0 H s H (s.modCu c fun o => { o with videoSerial := n })
  | ask {H s c m} : m.maker = .client c → (law = .undone → (s.cu c).valid) → c < s.cus →
      Move law {waiter m} {right m} (H + {right m} + {draft m}) s H
        ((s.modCu c fun o => { o with videoMsgWrap := some m }).fork (.openReal c m))
  | takeProxy {H s c p} : (s.cu c).puProxy = some p →
      Move law 0 {woken c} (H + {woken c}) s (H + {pu p})
        ((s.noteUninit c).modCu c fun o => { o with puProxy := none })
  | noteUninit {H s c} : (s.cu c).puProxy = none →
      Move law 0 {woken c} (H + {woken c}) s H (s.noteUninit c)

/-- Moves one after the other. -/
inductive Path (law : Law) (H : Hand) (s : Sys) : Hand → Sys → Prop
  | refl : Path law H s H s
  | tail {gain loss H' s' H'' s''} : Path law H s H' s' → Move law gain loss H' s' H'' s'' →
      Path law H s H'' s''

end StNvs.Server.Moves
