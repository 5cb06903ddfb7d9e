import StNvs.Lib.Runs
import StNvs.Sched.Sleep

/-! # The database handle and its worker

Any number of state threads share one `st_dbfd_t`. `st_db_query`, `st_db_fetch` and `st_db_exec` clear
`_err_code`, put a request in the queue of the handle, set its event, and wait; `db_server` waits for the
event, resets it, takes one request, works on it, and hands the thread back to the scheduler; then the
caller reads the result from the handle. Everybody's steps interleave.

The handle is one that `st_db_connect` has returned and that is not closed. How the statements go is up
to the database: an `Outcome` is chosen when the worker takes the request. `HandleErr` prints the
description of an error into a buffer of 128 bytes, and `sprintf_s` ends the program when it does not fit.
The callers' buffers are large enough for what is copied into them. -/

namespace StNvs.Db.Server

open StNvs.Lib.Runs StNvs.Sched.Sleep Function

/-! ### The data -/

/-- `DB_QUERY`, `DB_FETCH`, `DB_EXEC`. -/
inductive DbEvent
  | query | fetch | exec
  deriving DecidableEq, Repr

/-- `wrap_db_oper_t`. -/
structure Request where
  thread : ThreadPtr
  event : DbEvent
  buf : String
  deriving DecidableEq, Repr

/-- A `_com_error`: its code is an `HRESULT` that says that something failed, and its description is the one
that `(char*)` makes of it, a character for each byte. -/
structure ComError where
  code : ℤ
  description : String
  failed : code < 0
  deriving DecidableEq, Repr

/-- The codes for which `CheckDBConnect` opens the connection again; they are compared as unsigned. -/
def ComError.disconnected (e : ComError) : Bool :=
  e.code % 2 ^ 32 = 0x80004005 ∨ e.code % 2 ^ 32 = 0x800a0e7d ∨ e.code % 2 ^ 32 = 0x800a0e78

/-- How `Exec`, `Query` and `Fetch` go. `reopen` is the error of opening the connection again, if it is
opened again and that fails. -/
inductive Outcome
  | executed
  | execFailed (e : ComError) (reopen : Option ComError)
  | queried
  | openFailed (e : ComError) (reopen : Option ComError)
  | moveFailed (e : ComError) (reopen : Option ComError)
  | fetched (rows : List String)
  | notOpen
  | fetchFailed (rows : List String) (e : ComError)
  deriving DecidableEq, Repr

/-- The operation that goes so. -/
def Outcome.event : Outcome → DbEvent
  | .executed | .execFailed _ _ => .exec
  | .queried | .openFailed _ _ | .moveFailed _ _ => .query
  | .fetched _ | .notOpen | .fetchFailed _ _ => .fetch

/-- What the worker stores in the handle: to `_err_code`, to `_err_desc`, at the end of `_fetch_result`. -/
inductive Write
  | code (c : ℤ)
  | desc (d : String)
  | row (x : String)
  deriving DecidableEq, Repr

/-- `sizeof(_err_desc)`. -/
def errDescSize : ℕ := 128

/-- What is stored fits where it goes. Only `HandleErr` stores a description: `sprintf_s` is told of one
byte less than there is, and needs one for the end of the text. -/
def Write.Fits : Write → Prop
  | .desc d => d.length + 1 ≤ errDescSize - 1
  | .code _ | .row _ => True

instance decidableFits : DecidablePred Write.Fits
  | .desc d => inferInstanceAs (Decidable (d.length + 1 ≤ errDescSize - 1))
  | .code _ | .row _ => .isTrue trivial

/-- `HandleErr`. -/
def handleErr (e : ComError) : List Write := [.code e.code, .desc e.description]

/-- `CheckDBConnect`. -/
def checkDBConnect (e : ComError) (reopen : Option ComError) : List Write :=
  if e.disconnected then (reopen.map handleErr).getD [] else []

/-- `SqlServerDBOper::Exec`, `Query` and `Fetch`, as what they store. -/
def Outcome.writes : Outcome → List Write
  | .executed => [.code 0]
  | .execFailed e x => .code 0 :: (handleErr e ++ checkDBConnect e x)
  | .queried => [.code 0]
  | .openFailed e x => handleErr e ++ checkDBConnect e x
  | .moveFailed e x => .code 0 :: (handleErr e ++ checkDBConnect e x)
  | .fetched rows => rows.map .row
  | .notOpen => []
  | .fetchFailed rows e => rows.map .row ++ handleErr e

/-- The last error of an operation that failed with `e`. -/
def lastError (e : ComError) (reopen : Option ComError) : ComError :=
  if e.disconnected then reopen.getD e else e

/-- The error code the worker obtains for a statement. -/
def Outcome.obtained : Outcome → ℤ
  | .executed | .queried | .fetched _ | .notOpen => 0
  | .execFailed e x | .openFailed e x | .moveFailed e x => (lastError e x).code
  | .fetchFailed _ e => e.code

/-- Where a state thread is in a call; `cleared` after `_err_code = 0`, `posted` from `enqueue` on,
`resumed` after `_st_wait`, `collected` when only `return dbfd->_err_code` is left. -/
inductive Caller
  | away
  | cleared (r : Request)
  | posted (r : Request)
  | blocked (r : Request)
  | resumed (r : Request)
  | collected (r : Request) (desc : String) (rows : List String)
  deriving DecidableEq, Repr

/-- Where `db_server` is in its loop. -/
inductive Worker
  | wait | reset | dequeue
  | serve (r : Request) (o : Outcome) (todo : List Write)
  deriving DecidableEq, Repr

/-- What happened, newest first; `notified t x`: the event was set already if `x`. -/
inductive Event
  | called (r : Request)
  | posted (r : Request)
  | notified (t : ThreadPtr) (already : Bool)
  | executed (r : Request) (o : Outcome)
  | returned (r : Request) (code : ℤ) (desc : String) (rows : List String)
  deriving DecidableEq, Repr

/-- `st_dbfd_t` with its queue and event, the worker, and the callers. `between` are the callers that have
put their request in the queue and not set the event yet; `ready` are the threads the worker has handed
back; `aborted` says that the program has ended. No function reads `trace`. -/
structure Sys where
  errCode : ℤ
  errDesc : String
  fetchResult : List String
  queue : List Request
  event : Bool
  between : List ThreadPtr
  worker : Worker
  caller : ThreadPtr → Caller
  ready : List ThreadPtr
  aborted : Bool
  trace : List Event

/-! ### The steps -/

/-- The steps of a caller, and those of the worker. -/
inductive Step
  | call (r : Request)
  | enqueue (r : Request)
  | notify (t : ThreadPtr)
  | block (r : Request)
  | resume (r : Request)
  | collect (r : Request)
  | ret (r : Request) (desc : String) (rows : List String)
  | wait
  | reset
  | dequeue (o : Outcome)
  | write
  | reply
  deriving DecidableEq, Repr

namespace Sys

def setCaller (t : ThreadPtr) (c : Caller) (s : Sys) : Sys := { s with caller := update s.caller t c }

/-- One store of the worker. -/
def store (s : Sys) : Write → Sys
  | .code c => { s with errCode := c }
  -- a description that does not fit ends the program
  | .desc d => { s with errDesc := d, aborted := decide ¬ (Write.desc d).Fits }
  | .row x => { s with fetchResult := s.fetchResult ++ [x] }

/-- The caller copies the description, and `st_db_fetch` takes the rows. -/
def collect (r : Request) (s : Sys) : Sys :=
  if r.event = .fetch then
    { s.setCaller r.thread (.collected r s.errDesc s.fetchResult) with fetchResult := [] }
  else s.setCaller r.thread (.collected r s.errDesc [])

/-- The worker takes a request, if there is one. -/
def dequeue (o : Outcome) (s : Sys) : Sys :=
  match s.queue with
  | [] => { s with worker := .wait }
  | r :: q => { s with queue := q, worker := .serve r o o.writes }

/-- The worker goes on with its request. -/
def write (s : Sys) : Sys :=
  match s.worker with
  | .serve r o (w :: todo) => { s.store w with worker := .serve r o todo }
  | _ => s

/-- The worker hands the thread of its request back. -/
def reply (s : Sys) : Sys :=
  match s.worker with
  | .serve r o _ =>
    { s with worker := .wait, ready := s.ready ++ [r.thread], trace := .executed r o :: s.trace }
  | _ => s

def Enabled (s : Sys) : Step → Prop
  | .call r => s.caller r.thread = .away
  | .enqueue r => s.caller r.thread = .cleared r
  | .notify t => t ∈ s.between
  | .block r => s.caller r.thread = .posted r ∧ r.thread ∉ s.between
  | .resume r => s.caller r.thread = .blocked r ∧ r.thread ∈ s.ready
  | .collect r => s.caller r.thread = .resumed r
  | .ret r desc rows => s.caller r.thread = .collected r desc rows
  | .wait => s.worker = .wait ∧ s.event = true
  | .reset => s.worker = .reset
  | .dequeue o => s.worker = .dequeue ∧ ∀ r ∈ s.queue.head?, o.event = r.event
  | .write => ∃ r o w todo, s.worker = .serve r o (w :: todo)
  | .reply => ∃ r o, s.worker = .serve r o []

def apply (s : Sys) : Step → Sys
  | .call r => { s.setCaller r.thread (.cleared r) with errCode := 0, trace := .called r :: s.trace }
  | .enqueue r =>
    { s.setCaller r.thread (.posted r) with
      queue := s.queue ++ [r], between := r.thread :: s.between, trace := .posted r :: s.trace }
  | .notify t =>
    { s with event := true, between := s.between.erase t, trace := .notified t s.event :: s.trace }
  | .block r => s.setCaller r.thread (.blocked r)
  | .resume r => { s.setCaller r.thread (.resumed r) with ready := s.ready.erase r.thread }
  | .collect r => s.collect r
  | .ret r desc rows =>
    { s.setCaller r.thread .away with trace := .returned r s.errCode desc rows :: s.trace }
  | .wait => { s with worker := .reset }
  | .reset => { s with event := false, worker := .dequeue }
  | .dequeue o => s.dequeue o
  | .write => s.write
  | .reply => s.reply

/-- The handle as `st_db_connect` returns it. -/
def start : Sys :=
  { errCode := 0, errDesc := "", fetchResult := [], queue := [], event := false, between := [],
    worker := .wait, caller := fun _ => .away, ready := [], aborted := false, trace := [] }

instance decidableWriting (w : Worker) : Decidable (∃ r o x todo, w = .serve r o (x :: todo)) :=
  match w with
  | .serve r o (x :: todo) => .isTrue ⟨r, o, x, todo, rfl⟩
  | .serve _ _ [] | .wait | .reset | .dequeue => .isFalse (by simp)

instance decidableReplying (w : Worker) : Decidable (∃ r o, w = .serve r o []) :=
  match w with
  | .serve r o [] => .isTrue ⟨r, o, rfl⟩
  | .serve _ _ (_ :: _) | .wait | .reset | .dequeue => .isFalse (by simp)

instance decidableEnabled (s : Sys) : ∀ a, Decidable (s.Enabled a)
  | .call _ | .enqueue _ | .collect _ | .ret _ _ _ | .reset => inferInstanceAs (Decidable (_ = _))
  | .notify _ => inferInstanceAs (Decidable (_ ∈ s.between))
  | .block _ | .resume _ | .wait => inferInstanceAs (Decidable (_ ∧ _))
  | .dequeue o => inferInstanceAs (Decidable (_ ∧ ∀ r ∈ s.queue.head?, o.event = r.event))
  | .write => decidableWriting s.worker
  | .reply => decidableReplying s.worker

end Sys

/-- Nothing is done in a program that has ended. -/
def machine : Machine Sys Step where
  init s := s = Sys.start
  enabled s a := s.aborted = false ∧ s.Enabled a
  apply := Sys.apply

instance decidableMachine (s : Sys) (a : Step) : Decidable (machine.enabled s a) :=
  have := Sys.decidableEnabled s a
  inferInstanceAs (Decidable (s.aborted = false ∧ s.Enabled a))

/-! ### The writes -/

/-- The codes among the writes. -/
def codes : List Write → List ℤ
  | [] => []
  | .code c :: ws => c :: codes ws
  | .desc _ :: ws | .row _ :: ws => codes ws

/-- The descriptions among the writes. -/
def descs : List Write → List String
  | [] => []
  | .desc d :: ws => d :: descs ws
  | .code _ :: ws | .row _ :: ws => descs ws

/-- An operation that failed leaves its last error. -/
theorem getLast_codes_failed (e : ComError) (x : Option ComError) :
    (codes (handleErr e ++ checkDBConnect e x)).getLast? = some (lastError e x).code := by
  unfold checkDBConnect lastError
  split_ifs
  · cases x <;> rfl
  · rfl

/-- **`Exec` and `Query`** leave the code they obtained, whatever was there before. -/
theorem getLast_codes {o : Outcome} (h : o.event ≠ .fetch) :
    (codes o.writes).getLast? = some o.obtained := by
  cases o with
  | executed | queried => rfl
  | openFailed e x => exact getLast_codes_failed e x
  | execFailed e x | moveFailed e x =>
    simp [Outcome.writes, codes, List.getLast?_cons, getLast_codes_failed, Outcome.obtained]
  | fetched | notOpen | fetchFailed => exact absurd rfl h

end StNvs.Db.Server
