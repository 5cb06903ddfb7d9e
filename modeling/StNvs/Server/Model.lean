import StNvs.Lib.Runs
import StNvs.Server.Proto
import Mathlib.Logic.Function.Basic
import Mathlib.Tactic.Simps.Basic

/-! # The server: device sessions, client sessions and their messages

`handle_session` reads a handshake; a device gets a `pu_proxy_t`, entered in `_device_map` under its
serial number, a client gets a `cu_proxy_t` that holds on to the `pu_proxy_t` of its device. Each proxy
lives on in a few coroutines that share it and count their references to it; messages are shared by the
queues of many proxies and counted too.

A coroutine is written down as the point where it goes on, a `Task`. The running one goes from point to
point until it blocks or ends; only then another one runs. The run queue is first in, first out; calls
that have completed and sleepers that have expired become runnable when it is empty, by the idle thread.
What a call returns is up to the `Event`.

A run ends where the program does, and with the first thing that is undefined: a null pointer, a failed
assertion, a buffer that is too short, and the use of an object or message whose count has reached zero.
Memory does not run out, counts do not overflow, and nobody interrupts a coroutine. -/

namespace StNvs.Server.Model

open StNvs.Lib.Runs StNvs.Server.Proto Function

/-! ### The data -/

/-- `pu_proxy_t*` and `cu_proxy_t*`: the objects are numbered as they are constructed. -/
abbrev PuPtr := ℕ

@[inherit_doc PuPtr] abbrev CuPtr := ℕ

/-- Who constructs a `net_port_msg_t`: `heart_thread` or `handle_open_video` of a device, the
`handle_recv` of a device, the `handle_recv` of a client. -/
inductive Maker
  | device (p : PuPtr)
  | frame (p : PuPtr)
  | client (c : CuPtr)
  deriving DecidableEq, Repr

/-- `net_port_msg_t*`. All messages are numbered as they are constructed. -/
structure MsgPtr where
  maker : Maker
  number : ℕ
  deriving DecidableEq, Repr

/-- The pointer `body`: null, to a buffer that has been freed, to a buffer with these bytes. -/
inductive Body
  | null
  | freed (buf : ℕ)
  | held (buf : ℕ) (bytes : List UInt8)
  deriving DecidableEq, Repr

def Body.bytes : Body → List UInt8
  | held _ bytes => bytes
  | _ => []

/-- The buffer that `if (body) free(body)` frees. -/
def Body.buf : Body → Option ℕ
  | null => none
  | freed buf => some buf
  | held buf _ => some buf

/-- `net_port_msg_t`; its `cond` is known by the number of the message. -/
structure Msg where
  ref : ℕ
  hdr : Header
  body : Body
  deriving DecidableEq, Repr

/-- `pu_proxy_t`: `valid` is `_socket_fd.is_vaild()`, `queue` is `_msg_queue`, `viewers` is
`_pu_video_proxy_vec`, `video` is `_real_video_cmd`; `serial` is the variable of its `handle_send`. -/
structure PuProxy where
  sn : String
  ref : ℕ
  valid : Bool
  queue : List MsgPtr
  viewers : List CuPtr
  video : Option MsgPtr
  serial : UInt32
  deriving DecidableEq, Repr

/-- `cu_proxy_t`; `videoMsgWrap` has the message of the last `open_video` request. -/
structure CuProxy where
  ref : ℕ
  valid : Bool
  queue : List MsgPtr
  puProxy : Option PuPtr
  videoMsgWrap : Option MsgPtr
  videoSerial : UInt32
  deriving DecidableEq, Repr

/-- What a client's `handle_send` hands to `st_write`, and the message and the `_video_serial` it has made
it from. -/
structure Frame where
  msg : MsgPtr
  serial : UInt32
  bytes : List UInt8
  deriving DecidableEq, Repr

/-- A call of `st_write` that has returned, and whether all that it was handed has been sent. It returns
`nbyte` also when the completion reports a failure, or fewer bytes. -/
structure Write where
  frame : Frame
  full : Bool
  deriving DecidableEq, Repr

/-- Where a coroutine goes on.

`connections`, `session`, `puRecv`, `puSend`, `heart`, `openVideo`, `cuRecv`, `cuSend` and `openReal` are
where `handle_connections`, `handle_session`, `handle_recv`, `handle_send`, `heart_thread`,
`handle_open_video` and `cu_proxy_t::open_real_video` begin; the receivers come back there in their loops.

`accept`, `auth`, `login`, `client`, `puHeader`, `puBody`, `puWrite`, `beat` and likewise for a client
return from a call of `st_accept`, `st_read`, `st_write` or `st_sleep`. `puWait`, `cuWait` and `park` are
in `st_cond_wait`, and `puNotified`, `cuNotified` and `parted` return from it.

The others are points in between: `handshake` with the texts read, `puLoad` and `cuLoad` before the body
is read, `puFan` in the loop over `_pu_video_proxy_vec`, `puBatch` and `cuBatch` in the loop over the
messages taken from the queue, `cuMessage` with a whole message, `cuExit` after the loop of `handle_send`,
`leave` after `close_real_video`, and `puClose` and `cuClose` before `close`.

The code does not keep `made`, the object that the session of a device has constructed: it looks the
serial number up again. -/
inductive Task
  | connections
  | accept
  | session
  | auth
  | handshake (type sn : Option String)
  | login (sn : String) (made : PuPtr)
  | client (p : PuPtr)
  | puRecv (p : PuPtr)
  | puHeader (p : PuPtr)
  | puLoad (p : PuPtr) (hdr : Header) (buf : ℕ)
  | puBody (p : PuPtr) (hdr : Header) (buf : ℕ)
  | puFan (p : PuPtr) (m : MsgPtr) (viewers : List CuPtr)
  | puClose (p : PuPtr)
  | puSend (p : PuPtr)
  | puWait (p : PuPtr)
  | puNotified (p : PuPtr)
  | puBatch (p : PuPtr) (batch : List MsgPtr)
  | puWrite (p : PuPtr) (m : MsgPtr) (batch : List MsgPtr)
  | heart (p : PuPtr)
  | beat (p : PuPtr) (count : ℕ)
  | openVideo (p : PuPtr)
  | cuRecv (c : CuPtr)
  | cuHeader (c : CuPtr)
  | cuLoad (c : CuPtr) (hdr : Header) (m : MsgPtr)
  | cuBody (c : CuPtr) (hdr : Header) (m : MsgPtr)
  | cuMessage (c : CuPtr) (hdr : Header) (m : MsgPtr)
  | cuClose (c : CuPtr)
  | cuSend (c : CuPtr)
  | cuWait (c : CuPtr)
  | cuNotified (c : CuPtr)
  | cuBatch (c : CuPtr) (batch : List MsgPtr)
  | cuWrite (c : CuPtr) (frame : Frame) (m : MsgPtr) (batch : List MsgPtr)
  | cuExit (c : CuPtr)
  | openReal (c : CuPtr) (m : MsgPtr)
  | park (c : CuPtr) (m : MsgPtr)
  | parted (c : CuPtr) (m : MsgPtr)
  | leave (c : CuPtr) (m : MsgPtr)
  deriving DecidableEq, Repr

/-- The methods of `pu_proxy_t` that are called from outside. -/
inductive Method
  | init | run | release | isVideoOpen | add | isValid | openRealVideo | closeRealVideo
  deriving DecidableEq, Repr

/-- A call that `handle_session` or a `cu_proxy_t` makes with a pointer it has from `_device_map`, and the
reference count of the object then. -/
structure Call where
  method : Method
  pu : PuPtr
  ref : ℕ
  deriving DecidableEq, Repr

/-- A message as it is when it is queued for a client. -/
structure Sent where
  msg : MsgPtr
  hdr : Header
  body : List UInt8
  deriving DecidableEq, Repr

/-- What is handed to `st_write` for a message: the header in network byte order, with the serial number of
the client's own request in a frame, and the body. -/
def Sent.encode (x : Sent) (serial : UInt32) : Frame :=
  let wire := if x.hdr.cmdno = hmcmdRecvVideo then { x.hdr with serialid := serial } else x.hdr
  let sendlen := x.hdr.bodylen + 16
  ⟨x.msg, serial, (memory (transferOut wire) ++ x.body.take x.hdr.bodylen.toNat).take sendlen.toNat⟩

/-- What is only written down, for no function to read: calls on devices; calls of `uninit` with the
`_pu_proxy` of then; reads and releases of a message with its count of then; the messages constructed and
deleted; the buffers freed; the references to messages that nobody is left to give back; for each client
what was queued while its socket was valid and how its writes went, oldest first. The other lists have the
newest first. -/
structure Log where
  calls : List Call
  uninits : List (CuPtr × Option PuPtr)
  uses : List (MsgPtr × ℕ)
  news : List MsgPtr
  deletes : List MsgPtr
  frees : List ℕ
  lost : List MsgPtr
  sent : CuPtr → List Sent
  written : CuPtr → List Write

/-- Why a run has ended. -/
inductive Fault
  | dead | null | assertion | overrun
  deriving DecidableEq, Repr

/-- `io` are the coroutines in an I/O call or asleep, `conds` those that wait for a condition; `idle`
while the idle thread fills the run queue; `bufs` counts the buffers for bodies. -/
structure Sys where
  deviceMap : String → Option PuPtr
  pu : PuPtr → PuProxy
  pus : ℕ
  cu : CuPtr → CuProxy
  cus : ℕ
  msg : MsgPtr → Msg
  bufs : ℕ
  running : Option Task
  runq : List Task
  idle : Bool
  io : List Task
  conds : List Task
  fault : Option Fault
  log : Log

/-- What a call returns, or whether it can be posted at all: `failed`, or not. `again`: `st_read_fully`,
or `read_auth_type_wrap`, goes on to read more. -/
inductive Result
  | done
  | failed
  | again
  | header (raw : Header)
  | body (bytes : List UInt8)
  | handshake (type sn : Option String)
  deriving DecidableEq, Repr

/-- The idle thread makes a coroutine runnable; the first in the run queue runs; the running one goes on
to its next point. -/
inductive Event
  | deliver (t : Task)
  | schedule
  | go (r : Result)
  deriving DecidableEq, Repr

/-- The state after a function, or the one in which it has ended the run. -/
abbrev Outcome := Except Sys Sys

/-- Where a coroutine that does not run can be. -/
inductive Spot
  | running | runq | io | conds
  deriving DecidableEq, Repr

namespace Sys

variable (s : Sys) (p : PuPtr) (c : CuPtr) (m : MsgPtr) (r : Result)

def tasks : List Task := s.running.toList ++ s.runq ++ s.io ++ s.conds

def stop (f : Fault) : Outcome := .error { s with fault := some f }

def place (t : Task) : Spot → Sys
  | .running => { s with running := some t }
  | .runq => { s with runq := s.runq ++ [t] }
  | .io => { s with io := s.io ++ [t] }
  | .conds => { s with conds := s.conds ++ [t] }

theorem mem_place {s : Sys} {t u : Task} {k : Spot} (h : u ∈ (s.place t k).tasks) : u = t ∨ u ∈ s.tasks := by
  cases k <;> simp only [tasks, place, List.mem_append, List.mem_singleton, Option.mem_toList] at h ⊢ <;> grind

/-- The coroutine goes on at a point. -/
def go (t : Task) : Outcome := .ok (s.place t .running)

/-- `st_thread_create`. -/
def fork (t : Task) : Sys := s.place t .runq

/-- A call that blocks. -/
def block (t : Task) : Outcome := .ok (s.place t .io)

/-- `st_cond_wait`. -/
def wait (t : Task) : Outcome := .ok (s.place t .conds)

/-- `st_cond_signal` and `st_cond_broadcast`, of a condition that only `t` waits for; it goes on at `u`. -/
def signal (t u : Task) : Sys :=
  if t ∈ s.conds then { s with conds := s.conds.erase t, runq := s.runq ++ [u] } else s

@[simps deviceMap pu pus cu cus msg log conds]
def modPu (f : PuProxy → PuProxy) : Sys := { s with pu := update s.pu p (f (s.pu p)) }

@[simps deviceMap pu pus cu cus msg log conds]
def modCu (f : CuProxy → CuProxy) : Sys := { s with cu := update s.cu c (f (s.cu c)) }

@[simps deviceMap pu pus cu cus msg log conds]
def modMsg (f : Msg → Msg) : Sys := { s with msg := update s.msg m (f (s.msg m)) }

/-- References that nobody will give back. -/
@[simps deviceMap pu pus cu cus msg log conds]
def lose (ms : List MsgPtr) : Sys := { s with log := { s.log with lost := ms ++ s.log.lost } }

/-! ### `net_port_msg_t` and `msg_queue_t` -/

@[simps deviceMap pu pus cu cus msg log conds]
def noteUse : Sys := { s with log := { s.log with uses := (m, (s.msg m).ref) :: s.log.uses } }

/-- A message is read, or its count is changed. -/
def touch : Outcome := if (s.msg m).ref = 0 then (s.noteUse m).stop .dead else .ok (s.noteUse m)

theorem touch_ok {s s' : Sys} {m : MsgPtr} (h : s.touch m = .ok s') : s' = s.noteUse m ∧ (s.msg m).ref ≠ 0 := by
  unfold touch at h
  split at h
  next => cases h
  next h0 => exact ⟨(Except.ok.inj h).symm, h0⟩

def content : Sent := ⟨m, (s.msg m).hdr, (s.msg m).body.bytes⟩

/-- The next message. -/
def fresh (k : Maker) : MsgPtr := ⟨k, s.log.news.length⟩

/-- The constructor, and what the message is given at once. -/
@[simps deviceMap pu pus cu cus msg log conds]
def newMsg (hdr : Header) (body : Body) : Sys :=
  { s with
    msg := update s.msg m ⟨1, hdr, body⟩
    log := { s.log with news := m :: s.log.news } }

/-- `calloc` or `malloc` of a body; the number of the buffer is the old `bufs`. -/
@[simps deviceMap pu pus cu cus msg log conds]
def newBuf : Sys := { s with bufs := s.bufs + 1 }

/-- `if (body) free(body)`. -/
@[simps deviceMap pu pus cu cus msg log conds]
def free (body : Body) : Sys :=
  { s with log := { s.log with frees := body.buf.toList ++ s.log.frees } }

/-- `net_port_msg_t::add`. -/
def addMsg : Outcome := do
  let s ← s.touch m
  .ok (s.modMsg m fun o => { o with ref := o.ref + 1 })

/-- `delete` of a message, with `~net_port_msg_t`. -/
@[simps deviceMap pu pus cu cus msg log conds]
def deleteMsg : Sys :=
  let s := s.free (s.msg m).body
  { s.modMsg m fun o => { o with ref := 0, body := .null } with
    log := { s.log with deletes := m :: s.log.deletes } }

/-- `net_port_msg_t::release`. -/
def releaseMsg : Outcome := do
  let s ← s.touch m
  .ok (if (s.msg m).ref = 1 then s.deleteMsg m else s.modMsg m fun o => { o with ref := o.ref - 1 })

/-- The loop of `msg_queue_t::clear`, and of a `handle_send` that gives up its batch. -/
def releaseAll (ms : List MsgPtr) : Outcome := ms.foldlM releaseMsg s

/-! ### `pu_proxy_t` -/

@[simps deviceMap pu pus cu cus msg log conds]
def noteCall (method : Method) : Sys :=
  { s with log := { s.log with calls := ⟨method, p, (s.pu p).ref⟩ :: s.log.calls } }

/-- A method is called from outside. -/
def callPu (method : Method) : Outcome :=
  if (s.pu p).ref = 0 then (s.noteCall p method).stop .dead else .ok (s.noteCall p method)

/-- The constructor, and the entry in `_device_map`. -/
@[simps deviceMap pu pus cu cus msg log conds]
def newPu (sn : String) : Sys :=
  { s with
    pu := update s.pu s.pus ⟨sn, 1, false, [], [], none, 1⟩
    pus := s.pus + 1
    deviceMap := update s.deviceMap sn (some s.pus) }

/-- `server_base_t::add`. -/
def addPu : Sys := s.modPu p fun o => { o with ref := o.ref + 1 }

/-- `ServerHandler::unregister`. -/
@[simps deviceMap pu pus cu cus msg log conds]
def unregister (sn : String) : Sys := { s with deviceMap := update s.deviceMap sn none }

/-- `delete` of a `pu_proxy_t`, with `~pu_proxy_t` and the destructor of its queue, which releases what is
queued once. -/
def deletePu : Outcome :=
  match (s.pu p).video with
  | none => s.stop .null
  | some v => do
    let queue := (s.pu p).queue
    let s := (s.modPu p fun o => { o with ref := 0, queue := [] }).unregister (s.pu p).sn
    let s ← (s.lose queue).releaseMsg v
    s.releaseAll queue

/-- `server_base_t::release` of a `pu_proxy_t`. -/
def releasePu : Outcome :=
  if (s.pu p).ref = 0 then s.stop .assertion
  else if (s.pu p).ref = 1 then s.deletePu p
  else .ok (s.modPu p fun o => { o with ref := o.ref - 1 })

def notifyPu : Sys := s.signal (.puWait p) (.puNotified p)

/-- `send_msg` of a message without a condition. The caller has one reference for each message it sends;
when the message is not queued, nobody gives that back. -/
def puSendMsg : Outcome :=
  if (s.pu p).valid then do
    let s ← s.addMsg m
    .ok ((s.modPu p fun o => { o with queue := o.queue ++ [m] }).notifyPu p)
  else .ok (s.lose [m])

/-- `pu_proxy_t::close`. -/
def puClose : Outcome :=
  if (s.pu p).valid then ((s.modPu p fun o => { o with valid := false }).notifyPu p).releasePu p
  else s.releasePu p

/-! ### `cu_proxy_t` -/

/-- `delete` of a `cu_proxy_t`, with the destructor of its queue. -/
def deleteCu : Outcome :=
  let queue := (s.cu c).queue
  ((s.modCu c fun o => { o with ref := 0, queue := [] }).lose queue).releaseAll queue

/-- `server_base_t::add`; `cu_proxy_t` and its references are used by devices too. -/
def addCu : Outcome :=
  if (s.cu c).ref = 0 then s.stop .dead else .ok (s.modCu c fun o => { o with ref := o.ref + 1 })

/-- `server_base_t::release` of a `cu_proxy_t`. -/
def releaseCu : Outcome :=
  if (s.cu c).ref = 0 then s.stop .assertion
  else if (s.cu c).ref = 1 then s.deleteCu c
  else .ok (s.modCu c fun o => { o with ref := o.ref - 1 })

def notifyCu : Sys := s.signal (.cuWait c) (.cuNotified c)

/-- `msg_queue_t::push`, after `add`. -/
@[simps deviceMap pu pus cu cus msg log conds]
def cuPush : Sys :=
  { s.modCu c fun o => { o with queue := o.queue ++ [m] } with
    log := { s.log with sent := update s.log.sent c (s.log.sent c ++ [s.content m]) } }

/-- `cu_proxy_t::send_msg`; see `puSendMsg`. -/
def cuSendMsg : Outcome :=
  if (s.cu c).ref = 0 then s.stop .dead
  else if (s.cu c).valid then do
    let s ← s.addMsg m
    .ok ((s.cuPush c m).notifyCu c)
  else .ok (s.lose [m])

/-- `cu_proxy_t::close`. -/
def cuClose : Outcome :=
  if (s.cu c).valid then do
    let s := s.modCu c fun o => { o with valid := false }
    let s ← match (s.cu c).videoMsgWrap with
      | none => .ok s
      | some m => do
        let s ← s.touch m
        .ok ((s.signal (.park c m) (.parted c m)).modCu c fun o => { o with videoMsgWrap := none })
    (s.notifyCu c).releaseCu c
  else s.releaseCu c

/-- `check_net`. -/
def checkNet (f : Bool → Sys → Outcome) : Outcome :=
  match (s.cu c).puProxy with
  | none => f false s
  | some p => do
    let s ← s.callPu p .isValid
    f (s.pu p).valid s

/-! ### The receiver of a device -/

/-- A buffer of `bodylen + 1` bytes after `st_read_fully` of `bodylen`. -/
def filled (bodylen : UInt32) (bytes : List UInt8) : List UInt8 :=
  (bytes.take bodylen.toNat ++ List.replicate (bodylen.toNat + 1) 0).take (bodylen.toNat + 1)

/-- The top of the loop of `handle_recv`. -/
def puRead : Outcome := if (s.pu p).valid ∧ r ≠ .failed then s.block (.puHeader p) else s.go (.puClose p)

/-- `handle_recv` with a header. -/
def puOnHeader (hdr : Header) : Outcome :=
  if hdr.bodylen = 0 then s.go (.puRecv p)
  else if 1024 * 1024 < hdr.bodylen then s.go (.puClose p)
  else s.newBuf.go (.puLoad p hdr s.bufs)

/-- `handle_recv` with a body: a frame goes to everybody in `_pu_video_proxy_vec`, and the answer to
`open_video` is stored in `_real_video_cmd`. -/
def puOnBody (hdr : Header) (buf : ℕ) (bytes : List UInt8) : Outcome :=
  let body := Body.held buf (filled hdr.bodylen bytes)
  let hdr := { hdr with cmdno := hdr.cmdno &&& 0xFFFF }
  if hdr.cmdno = hmcmdRecvVideo then
    let m := s.fresh (.frame p)
    (s.newMsg m hdr body).go (.puFan p m (s.pu p).viewers)
  else if hdr.cmdno = hmcmdOpenVideo then
    match (s.pu p).video with
    | none => s.stop .null
    | some v => do
      let s ← s.touch v
      let s := s.free (s.msg v).body
      let s := s.modMsg v fun o =>
        { o with hdr := { o.hdr with cmdno := hdr.cmdno, bodylen := hdr.bodylen }, body := body }
      s.go (.puRecv p)
  else s.go (.puRecv p)

/-- The loop over `_pu_video_proxy_vec`. -/
def fanOut : List CuPtr → Outcome
  | [] => do
    let s ← s.releaseMsg m
    s.go (.puRecv p)
  | c :: cs => do
    let s ← s.addMsg m
    let s ← s.cuSendMsg c m
    s.go (.puFan p m cs)

/-! ### The other coroutines of a device -/

/-- `handle_send` after `wait`; `msg_queue_t::backup` releases what it takes. -/
def puNotified : Outcome :=
  if (s.pu p).valid then do
    let queue := (s.pu p).queue
    let s ← (s.modPu p fun o => { o with queue := [] }).releaseAll queue
    s.go (.puBatch p queue)
  else s.go (.puClose p)

/-- The loop of `handle_send` over its batch. -/
def puBatch : List MsgPtr → Outcome
  | [] => s.wait (.puWait p)
  | m :: batch => do
    let s ← s.touch m
    let serial := (s.pu p).serial
    let s := s.modMsg m fun o => { o with hdr := { o.hdr with serialid := serial } }
    let s := s.modPu p fun o => { o with serial := serial + 1 }
    if 1024 ≤ (s.msg m).hdr.bodylen + 16 then s.stop .assertion
    else if (s.pu p).valid ∧ r ≠ .failed then s.block (.puWrite p m batch)
    else do
      let s ← s.releaseAll (m :: batch)
      s.go (.puClose p)

/-- `heart_thread` after `st_sleep(1)` with its `heart_count`. -/
def puBeat (count : ℕ) : Outcome :=
  if !(s.pu p).valid then s.releasePu p
  else if count ≤ 10 then s.block (.beat p (count + 1))
  else do
    let m := s.fresh (.device p)
    let s ← (s.newMsg m ⟨hmcmdHeartbeat, 0, 0, 0⟩ .null).puSendMsg p m
    s.block (.beat p 1)

/-- The text that `handle_open_video` sends, with its terminator. -/
def openVideoBody : List UInt8 :=
  ("<?xml version=\"1.0\" encoding=\"utf-8\"?><Message><Channel>0</Channel><StreamType>1</StreamType>" ++
    "<VideoType>1</VideoType></Message>").toList.map (fun ch => ch.toNat.toUInt8) ++ [0]

/-- `handle_open_video`. -/
def handleOpenVideo : Outcome := do
  let s := s.addPu p
  let m := s.fresh (.device p)
  let hdr := ⟨hmcmdOpenVideo, openVideoBody.length.toUInt32, 0, 0⟩
  let s := s.newBuf.newMsg m hdr (.held s.bufs openVideoBody)
  let s := s.modPu p fun o => { o with video := some m }
  let s ← s.addMsg m
  let s ← s.puSendMsg p m
  s.releasePu p

def puRun : Sys :=
  ((((s.modPu p fun o => { o with valid := true }).addPu p).addPu p).fork (.puRecv p)).fork (.puSend p)

/-! ### The receiver of a client -/

/-- The top of the loop of `handle_recv`. -/
def cuRead : Outcome := if (s.cu c).valid ∧ r ≠ .failed then s.block (.cuHeader c) else s.go (.cuClose c)

/-- `handle_recv` with a header. -/
def cuOnHeader (hdr : Header) : Outcome :=
  s.checkNet c fun net s =>
    if !net then s.go (.cuClose c)
    else
      let m := s.fresh (.client c)
      if 0 < hdr.bodylen then (s.newBuf.newMsg m hdr (.held s.bufs [])).go (.cuLoad c hdr m)
      else (s.newMsg m hdr .null).go (.cuMessage c hdr m)

/-- A message is given up, and the receiver with it. -/
def cuGiveUp : Outcome := do
  let s ← s.releaseMsg m
  s.go (.cuClose c)

/-- The body of a message has been read; it is freed, and the pointer stays. -/
def cuOnBody (hdr : Header) : Outcome := do
  let s ← s.touch m
  let s := s.free (s.msg m).body
  (s.modMsg m fun o => { o with body := o.body.buf.elim .null .freed }).go (.cuMessage c hdr m)

/-- `handle_recv` with a whole message. -/
def cuOnMessage (hdr : Header) : Outcome :=
  s.checkNet c fun net s =>
    if !net then s.cuGiveUp c m
    else if hdr.cmdno = hmcmdHeartbeat then do
      let s ← s.touch m
      let s := s.modMsg m fun o =>
        { o with hdr := { o.hdr with cmdno := 0x80000000 ||| hmcmdHeartbeat, bodylen := 0 } }
      let s ← s.cuSendMsg c m
      s.go (.cuRecv c)
    else if hdr.cmdno = hmcmdOpenVideo then
      ((s.modCu c fun o => { o with videoMsgWrap := some m }).fork (.openReal c m)).go (.cuRecv c)
    else s.cuGiveUp c m

/-! ### The sender of a client -/

/-- `handle_send` after `wait`. -/
def cuNotified : Outcome :=
  if (s.cu c).valid then do
    let queue := (s.cu c).queue
    let s ← (s.modCu c fun o => { o with queue := [] }).releaseAll queue
    s.go (.cuBatch c queue)
  else s.go (.cuExit c)

/-- The loop of `handle_send` over its batch. -/
def cuBatch : List MsgPtr → Outcome
  | [] => s.wait (.cuWait c)
  | m :: batch => do
    let s ← s.touch m
    if (s.msg m).hdr.bodylen + 16 = 0 then s.stop .assertion
    else if (s.cu c).valid ∧ r ≠ .failed then s.block (.cuWrite c ((s.content m).encode (s.cu c).videoSerial) m batch)
    else do
      let s ← s.releaseAll (m :: batch)
      s.go (.cuExit c)

@[simps deviceMap pu pus cu cus msg log conds]
def noteWritten (x : Write) : Sys :=
  { s with log := { s.log with written := update s.log.written c (s.log.written c ++ [x]) } }

/-- `handle_send` after `st_write`, which has returned `sendlen` however the write went. -/
def cuWritten (x : Write) (batch : List MsgPtr) : Outcome := do
  let s ← (s.noteWritten c x).releaseMsg m
  s.go (.cuBatch c batch)

/-- The end of `handle_send`: `clear` releases what is queued once. -/
def cuExit : Outcome := do
  let queue := (s.cu c).queue
  let s ← ((s.modCu c fun o => { o with queue := [] }).lose queue).releaseAll queue
  s.go (.cuClose c)

/-! ### `cu_proxy_t::open_real_video` -/

/-- `pu_proxy_t::open_real_video`. When `_real_video_cmd` is null it queues the request, and ten seconds
later the assertion of the caller fails. -/
def openRealVideo (f : MsgPtr → Sys → Outcome) : Outcome := do
  let s ← s.callPu p .openRealVideo
  let s ← s.addCu c
  match (s.pu p).video with
  | none => s.stop .assertion
  | some v => do
    let s ← s.addMsg v
    f v (s.modPu p fun o => { o with viewers := o.viewers ++ [c] })

/-- The message becomes a copy of `_real_video_cmd` with another serial number. -/
def copyMsg (v : MsgPtr) (serial : UInt32) : Sys :=
  let tmp := s.msg v
  if 0 < tmp.hdr.bodylen then
    s.newBuf.modMsg m fun o => { o with
      hdr := { tmp.hdr with serialid := serial }
      body := .held s.bufs (tmp.body.bytes.take tmp.hdr.bodylen.toNat) }
  else s.modMsg m fun o => { o with hdr := { tmp.hdr with serialid := serial } }

/-- `cu_proxy_t::open_real_video` up to its wait. -/
def openReal : Outcome := do
  let s ← s.addCu c
  let s ← s.touch m
  let serial := (s.msg m).hdr.serialid
  let s := s.modCu c fun o => { o with videoSerial := serial }
  match (s.cu c).puProxy with
  | none => s.stop .null
  | some p =>
    s.openRealVideo p c fun v s => do
      let s ← s.touch v
      let s := s.copyMsg m v serial
      let s ← s.cuSendMsg c m
      let s ← s.addMsg m
      s.wait (.park c m)

/-- `pu_proxy_t::close_real_video`. -/
def closeRealVideo : Outcome :=
  if c ∈ (s.pu p).viewers then do
    let s ← s.releaseCu c
    let s := s.modPu p fun o => { o with viewers := o.viewers.erase c }
    match (s.pu p).video with
    | none => s.stop .null
    | some v => s.releaseMsg v
  else .ok s

/-- `cu_proxy_t::open_real_video` after its wait. -/
def parted : Outcome :=
  match (s.cu c).puProxy with
  | none => s.go (.leave c m)
  | some p => do
    let s ← s.callPu p .closeRealVideo
    let s ← s.closeRealVideo p c
    s.go (.leave c m)

@[simps deviceMap pu pus cu cus msg log conds]
def noteUninit : Sys :=
  { s with log := { s.log with uninits := (c, (s.cu c).puProxy) :: s.log.uninits } }

/-- `cu_proxy_t::uninit`; the pointer is cleared first here. -/
def uninit : Outcome :=
  match (s.cu c).puProxy with
  | none => (s.noteUninit c).stop .null
  | some p => do
    let s ← ((s.noteUninit c).modCu c fun o => { o with puProxy := none }).callPu p .release
    s.releasePu p

/-- The end of `cu_proxy_t::open_real_video`. -/
def leave : Outcome := do
  let s ← s.releaseMsg m
  let s ← s.uninit c
  s.releaseCu c

/-! ### `handle_session` -/

/-- `sprintf(sn_tmp, "\"%s\"", sn)`. -/
def quoted (sn : Option String) : String := "\"" ++ sn.getD "(null)" ++ "\""

/-- The session of a device after `write_auth_wrap`. Without an entry `operator[]` gives a null pointer,
and `run` dereferences it. -/
def runDevice (sn : String) : Outcome :=
  match s.deviceMap sn with
  | none => s.stop .null
  | some p => do
    let s ← s.callPu p .init
    let s ← s.callPu p .run
    let s ← (s.puRun p).callPu p .release
    s.releasePu p

/-- The session of a device with its serial number; it goes on whether or not the reply can be sent. -/
def loginDevice (sn : String) : Outcome :=
  match s.deviceMap sn with
  | some _ => .ok s
  | none =>
    if r = .failed then (s.newPu sn).go (.login sn s.pus) else (s.newPu sn).block (.login sn s.pus)

/-- The session of a client up to `write_auth_wrap`. -/
def findDevice (sn : String) : Outcome :=
  match s.deviceMap sn with
  | none => .ok s
  | some p => do
    let s ← s.callPu p .isVideoOpen
    if (s.pu p).video = none ∨ r = .failed then .ok s else s.block (.client p)

/-- The session of a client after `write_auth_wrap`: the constructor, `init` and `run`. -/
def runClient : Outcome := do
  let s ← s.callPu p .add
  let c := s.cus
  let s := { s.addPu p with cu := update s.cu c ⟨1, true, [], some p, none, 0⟩, cus := c + 1 }
  let s ← s.addCu c
  let s ← s.addCu c
  ((s.fork (.cuRecv c)).fork (.cuSend c)).releaseCu c

/-- `handle_session` with the texts of the handshake; `sn_tmp` has 20 characters. -/
def handleSession (type sn : Option String) : Outcome :=
  match type with
  | none => .ok s
  | some type =>
    if type = "\"10\"" then
      match sn with
      | none => s.stop .null
      | some sn => s.loginDevice r sn
    else if 20 ≤ (quoted sn).utf8ByteSize then s.stop .overrun
    else if type = "10" then s.loginDevice r (quoted sn)
    else s.findDevice r (quoted sn)

/-! ### The steps -/

/-- The object whose coroutine it is has been deleted. -/
def orphaned : Task → Bool
  | .puRecv p | .puHeader p | .puLoad p _ _ | .puBody p _ _ | .puFan p _ _ | .puClose p | .puSend p
  | .puWait p | .puNotified p | .puBatch p _ | .puWrite p _ _ | .heart p | .beat p _ | .openVideo p =>
    (s.pu p).ref = 0
  | .cuRecv c | .cuHeader c | .cuLoad c _ _ | .cuBody c _ _ | .cuMessage c _ _ | .cuClose c | .cuSend c
  | .cuWait c | .cuNotified c | .cuBatch c _ | .cuWrite c _ _ _ | .cuExit c | .openReal c _ | .park c _
  | .parted c _ | .leave c _ => (s.cu c).ref = 0
  | _ => false

/-- From a point of a coroutine to its next. -/
def resume : Task → Outcome
  | .connections => if r = .failed then .ok (s.fork .connections) else s.block .accept
  | .accept => .ok ((s.fork .connections).fork .session)
  | .session => if r = .failed then .ok s else s.block .auth
  | .auth =>
    match r with
    | .again => s.block .auth
    | .handshake type sn => s.go (.handshake type sn)
    | _ => .ok s
  | .handshake type sn => s.handleSession r type sn
  | .login sn _ => s.runDevice sn
  | .client p => s.runClient p
  | .puRecv p => s.puRead p r
  | .puHeader p =>
    match r with
    | .header raw => s.puOnHeader p (transferIn raw)
    | _ => s.go (.puClose p)
  | .puLoad p hdr buf =>
    if (s.pu p).valid ∧ r ≠ .failed then s.block (.puBody p hdr buf) else s.go (.puClose p)
  | .puBody p hdr buf =>
    match r with
    | .again => s.block (.puBody p hdr buf)
    | .body bytes => s.puOnBody p hdr buf bytes
    | _ => s.go (.puClose p)
  | .puFan p m viewers => s.fanOut p m viewers
  | .puClose p => s.puClose p
  | .puSend p => (s.fork (.heart p)).wait (.puWait p)
  | .puWait p => s.wait (.puWait p)
  | .puNotified p => s.puNotified p
  | .puBatch p batch => s.puBatch p r batch
  | .puWrite p m batch => do
    let s ← s.releaseMsg m
    s.go (.puBatch p batch)
  | .heart p => ((s.fork (.openVideo p)).addPu p).block (.beat p 1)
  | .beat p count => s.puBeat p count
  | .openVideo p => s.handleOpenVideo p
  | .cuRecv c => s.cuRead c r
  | .cuHeader c =>
    match r with
    | .header raw => s.cuOnHeader c (transferIn raw)
    | _ => s.go (.cuClose c)
  | .cuLoad c hdr m =>
    if (s.cu c).valid ∧ r ≠ .failed then s.block (.cuBody c hdr m) else s.cuGiveUp c m
  | .cuBody c hdr m =>
    match r with
    | .again => s.block (.cuBody c hdr m)
    | .body _ => s.cuOnBody c m hdr
    | _ => s.cuGiveUp c m
  | .cuMessage c hdr m => s.cuOnMessage c m hdr
  | .cuClose c => s.cuClose c
  | .cuSend c => s.wait (.cuWait c)
  | .cuWait c => s.wait (.cuWait c)
  | .cuNotified c => s.cuNotified c
  | .cuBatch c batch => s.cuBatch c r batch
  | .cuWrite c frame m batch => s.cuWritten c m ⟨frame, r = .done⟩ batch
  | .cuExit c => s.cuExit c
  | .openReal c m => s.openReal c m
  | .park c m => s.wait (.park c m)
  | .parted c m => s.parted c m
  | .leave c m => s.leave c m

def ended : Outcome → Sys
  | .ok s => s
  | .error s => s

def step (s : Sys) : Event → Option Sys
  | .deliver t =>
    if t ∈ s.io ∧ s.running = none ∧ (s.runq = [] ∨ s.idle) then
      some { s with io := s.io.erase t, runq := s.runq ++ [t], idle := true }
    else none
  | .schedule =>
    match s.running, s.runq with
    | none, t :: runq => some { s with running := some t, runq := runq, idle := false }
    | _, _ => none
  | .go r =>
    match s.running with
    | none => none
    | some t =>
      let s := { s with running := none }
      if s.orphaned t then some (ended (s.stop .dead)) else some (ended (s.resume r t))

/-- `start_threads` has created `handle_connections`. -/
def start : Sys :=
  { deviceMap := fun _ => none
    pu := fun _ => ⟨"", 0, false, [], [], none, 1⟩
    pus := 0
    cu := fun _ => ⟨0, false, [], none, none, 0⟩
    cus := 0
    msg := fun _ => ⟨0, ⟨0, 0, 0, 0⟩, .null⟩
    bufs := 0
    running := none
    runq := [.connections]
    idle := false
    io := []
    conds := []
    fault := none
    log := ⟨[], [], [], [], [], [], [], fun _ => [], fun _ => []⟩ }

end Sys

def machine : Machine Sys Event where
  init s := s = Sys.start
  enabled s e := s.fault = none ∧ (s.step e).isSome
  apply s e := (s.step e).getD s

instance decidableMachine (s : Sys) (e : Event) : Decidable (machine.enabled s e) :=
  inferInstanceAs (Decidable (_ ∧ _))

end StNvs.Server.Model
