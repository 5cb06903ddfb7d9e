import StNvs.Db.Server
import StNvs.Lib.Runs
import StNvs.Sync.Accounts
import Mathlib.Data.List.Chain

/-! # Lookups of concurrent sessions

Any number of sessions run their records over one database handle. A session posts the request of a call
and waits; the one worker makes the calls in the order in which they were posted, with the one recordset
and the one `_fetch_result`; then the session runs again and takes the reply. A query opens the recordset
on the rows it finds, which other statements do not change any more; a fetch collects the rows and closes
it. Between any two of these steps other sessions can make theirs, and others can change the table. The
database is given the texts that are built, and a text that does not fit ends the program.

* `invariant_step`: what every step keeps, while no lookup begins before the one before it has fetched and
  the texts of the queries are read as they were meant.
* `lookups_right`: then a lookup returns what its own query found.
* `not_lookups`: a run in which one session gets the state of another's user. -/

namespace StNvs.Sync.Lookups

open StNvs.Lib.Runs StNvs.Lib.Programs StNvs.Sched.Sleep StNvs.Db.Server StNvs.Sync.Parse StNvs.Sync.Packet
  StNvs.Sync.Statements StNvs.Sync.Database StNvs.Sync.Accounts Function

/-! ### The machine -/

abbrev Task := Prog Call Reply (List SyncPlatformDataResult)

/-- Where a session is; `table` is what the table was when the worker made the call. -/
inductive Place
  | away
  | running (p : Task)
  | posted (c : Call) (k : Reply → Task)
  | served (c : Call) (k : Reply → Task) (table : Table)

/-- A call that has returned, with the table as the worker found it. -/
structure Entry where
  call : Call
  reply : Reply
  table : Table

/-- `queue` are the sessions whose requests wait for the worker; no function reads `log`. -/
structure Sys where
  table : Table
  recordset : Option (String × List (List UInt16))
  fetchResult : List (List UInt16)
  errCode : ℤ
  errDesc : String
  queue : List ThreadPtr
  place : ThreadPtr → Place
  log : ThreadPtr → List Entry

/-- How the worker's call goes: a failure can close the recordset, and a fetch can fail after `n` rows. -/
inductive Way
  | done
  | failed (e : ComError) (closed : Bool) (n : ℕ)

inductive Step
  | begin (t : ThreadPtr) (records : List (SyncPlatformData × Tm))
  | post (t : ThreadPtr)
  | work (w : Way)
  | resume (t : ThreadPtr)
  | change (table : Table)

namespace Sys

def setPlace (t : ThreadPtr) (pl : Place) (s : Sys) : Sys := { s with place := update s.place t pl }

/-- `HandleErr`. -/
def handleErr (e : ComError) (s : Sys) : Sys := { s with errCode := e.code, errDesc := e.description }

/-- What the database makes of the text of a query. -/
def opened (sql : Sql) (st : Statement) (s : Sys) : Option (String × List (List UInt16)) :=
  st.stored.bind (sql.query s.table)

/-- `SqlServerDBOper::Query`. -/
def query (sql : Sql) (st : Statement) (s : Sys) : Way → Sys
  | .done => { s with errCode := 0, recordset := s.opened sql st }
  | .failed e closed _ => { s.handleErr e with recordset := if closed then none else s.opened sql st }

/-- The rows of a column. -/
def found (item : String) (s : Sys) : List (List UInt16) :=
  match s.recordset with
  | some (col, found) => if col = item then found else []
  | none => []

/-- `SqlServerDBOper::Fetch`. -/
def fetch (item : String) (s : Sys) : Way → Sys
  | .done => { s with fetchResult := s.fetchResult ++ s.found item, recordset := none }
  | .failed e _ n => { s.handleErr e with fetchResult := s.fetchResult ++ (s.found item).take n }

/-- `SqlServerDBOper::Exec`. -/
def exec (sql : Sql) (st : Statement) (s : Sys) : Way → Sys
  | .done => { s with errCode := 0, table := (st.stored.bind (sql.exec s.table)).getD s.table }
  | .failed e closed _ => { s.handleErr e with recordset := if closed then none else s.recordset }

def make (sql : Sql) (w : Way) (s : Sys) : Call → Sys
  | .query st => s.query sql st w
  | .fetch item => s.fetch item w
  | .exec st => s.exec sql st w
  | .crash => s

/-- The worker takes the first request and makes its call. -/
def work (sql : Sql) (w : Way) (s : Sys) : Sys :=
  match s.queue with
  | [] => s
  | t :: q =>
    match s.place t with
    | .posted c k => { (s.make sql w c).setPlace t (.served c k s.table) with queue := q }
    | _ => s

/-- The session's request: `_err_code` is cleared, and the request goes to the end of the queue. -/
def post (t : ThreadPtr) (s : Sys) : Sys :=
  match s.place t with
  | .running (.call c k) => { s.setPlace t (.posted c k) with errCode := 0, queue := s.queue ++ [t] }
  | _ => s

/-- What a call returns now. -/
def reply (s : Sys) : Call → Reply
  | .fetch _ => ⟨s.errCode, s.errDesc, s.fetchResult⟩
  | .query _ | .exec _ | .crash => ⟨s.errCode, s.errDesc, []⟩

/-- `st_db_fetch` clears the rows that it has taken. -/
def clear (s : Sys) : Call → List (List UInt16)
  | .fetch _ => []
  | .query _ | .exec _ | .crash => s.fetchResult

/-- The session runs again and takes the reply. -/
def resume (t : ThreadPtr) (s : Sys) : Sys :=
  match s.place t with
  | .served c k table =>
    { s.setPlace t (.running (k (s.reply c))) with
      fetchResult := s.clear c, log := update s.log t (s.log t ++ [⟨c, s.reply c, table⟩]) }
  | _ => s

/-- A call can be posted: the text fits. -/
def Posts : Call → Prop
  | .query st | .exec st => st.stored.isSome
  | .fetch _ => True
  | .crash => False

/-- A call can go so: a statement that the database refuses fails; a fetch of a column that the recordset has
not fails, and a fetch without a recordset does not. A description that does not fit ends the program in
`HandleErr`. -/
def Goes (sql : Sql) (s : Sys) : Call → Way → Prop
  | .query st, .done => (s.opened sql st).isSome
  | .exec st, .done => (st.stored.bind (sql.exec s.table)).isSome
  | .query _, .failed e _ _ | .exec _, .failed e _ _ => (Write.desc e.description).Fits
  | .fetch item, .done => ∀ x ∈ s.recordset, x.1 = item
  | .fetch _, .failed e _ _ => s.recordset ≠ none ∧ (Write.desc e.description).Fits
  | .crash, _ => False

def Enabled (sql : Sql) (s : Sys) : Step → Prop
  | .begin t _ => s.place t = .away
  | .post t => ∃ c k, s.place t = .running (.call c k) ∧ Posts c
  | .work w => ∃ t q c k, s.queue = t :: q ∧ s.place t = .posted c k ∧ s.Goes sql c w
  | .resume t => ∃ c k table, s.place t = .served c k table
  | .change _ => True

def apply (sql : Sql) (s : Sys) : Step → Sys
  | .begin t records => s.setPlace t (.running (handleSessionTask records))
  | .post t => s.post t
  | .work w => s.work sql w
  | .resume t => s.resume t
  | .change table => { s with table := table }

/-- The handle with no session, and some table. -/
def start (table : Table) : Sys where
  table := table
  recordset := none
  fetchResult := []
  errCode := 0
  errDesc := ""
  queue := []
  place _ := .away
  log _ := []

end Sys

def machine (sql : Sql) : Machine Sys Step where
  init s := ∃ table, s = Sys.start table
  enabled := Sys.Enabled sql
  apply := Sys.apply sql

/-! ### The lookups -/

/-- The calls of a log, with their replies. -/
def calls (log : List Entry) : List (Call × Reply) := log.map fun e => (e.call, e.reply)

/-- In the log of every session, a lookup that returns true with a value that is not the old one returns
what the row of its user had when its query ran. -/
def Right (s : Sys) : Prop :=
  ∀ t l₁ log l₂, s.log t = l₁ ++ log ++ l₂ → ∀ userID old value, value ≠ old →
    ((getUserState userID old).Follows (calls log) (.ret (true, value)) → ∃ e ∈ log,
      e.call = .query (.selectUserState userID) ∧
        ∃ row, e.table userID = some row ∧ value = narrow row.userState) ∧
    ((getPlatName userID old).Follows (calls log) (.ret (true, value)) → ∃ e ∈ log,
      e.call = .query (.selectPlatLoginName userID) ∧
        ∃ row, e.table userID = some row ∧ value = narrow row.platLoginName)

/-- The session's query has run, and its fetch has not. -/
def Waiting : Place → Prop
  | .served (.query _) _ _ | .running (.call (.fetch _) _) | .posted (.fetch _) _ => True
  | _ => False

/-- The session's fetch has run, and it has not taken the rows. -/
def Fetched : Place → Prop
  | .served (.fetch _) _ _ => True
  | _ => False

/-- A call can come between: a query whose text is read as it was meant, while no other session waits for its
fetch, and a fetch while no other session has rows to take. -/
def Free (s : Sys) (t : ThreadPtr) : Call → Prop
  | .query st => st.Decodes ∧ ∀ t' ≠ t, ¬ Waiting (s.place t')
  | .fetch _ => ∀ t' ≠ t, ¬ Fetched (s.place t')
  | .exec _ | .crash => True

/-- The worker only takes such calls. -/
def Apart (s : Sys) : Step → Prop
  | .work _ => ∀ t q c k, s.queue = t :: q → s.place t = .posted c k → Free s t c
  | _ => True

/-! ### The calls of a session -/

def Call.isQuery : Call → Bool
  | .query _ => true
  | .fetch _ | .exec _ | .crash => false

/-- A query asks for a column, and a fetch comes only right after a query; `after` says that the last call
was one. -/
def Paired {α : Type} : Bool → Prog Call Reply α → Prop
  | _, .ret _ => True
  | _, .call (.query st) k => isSelect st = true ∧ ∀ r, Paired true (k r)
  | after, .call (.fetch _) k => after = true ∧ ∀ r, Paired false (k r)
  | _, .call (.exec _) k | _, .call .crash k => ∀ r, Paired false (k r)

variable {α β : Type} {after : Bool} {p : Prog Call Reply α} {f : α → Prog Call Reply β}

theorem Paired.ret {a : α} : Paired after (.ret a : Prog Call Reply α) := trivial

theorem Paired.mono (h : Paired false p) : Paired after p := by
  cases p with
  | ret a => trivial
  | call c k =>
    cases c with
    | query st => exact h
    | fetch item => exact absurd h.1 (by decide)
    | exec st | crash => exact h

/-- After a call. -/
theorem Paired.next {c : Call} {k : Reply → Prog Call Reply α} (h : Paired after (.call c k)) (r : Reply) :
    Paired (Call.isQuery c) (k r) := by
  cases c with
  | query st => exact h.2 r
  | fetch item => exact h.2 r
  | exec st | crash => exact h r

theorem Paired.bind (h : Paired after p) (hf : ∀ a, Paired false (f a)) : Paired after (p.bind f) := by
  induction p generalizing after with
  | ret a => exact (hf a).mono
  | call c k ih =>
    cases c with
    | query st => exact ⟨h.1, fun r => ih r (h.2 r)⟩
    | fetch item => exact ⟨h.1, fun r => ih r (h.2 r)⟩
    | exec st | crash => exact fun r => ih r (h r)

theorem paired_lookup {st : Statement} (h : isSelect st = true) (item old : String) :
    Paired false (lookup st item old) := by
  refine ⟨h, fun q => ?_⟩
  dsimp only [Prog.bind, Prog.ask]
  split
  · trivial
  · refine ⟨rfl, fun r => ?_⟩
    dsimp only [Prog.bind]
    split
    · trivial
    · split <;> trivial

/-- What is logged does not matter. -/
theorem Paired.log (h : Paired false p) (fmt : List Char) (args : List Arg) : Paired false (writeToLog fmt args p) := by
  unfold writeToLog
  split
  · exact h
  · exact fun _ => h

theorem paired_updateUserStateByDB (data : SyncPlatformData) (result : SyncPlatformDataResult) :
    Paired false (updateUserStateByDB data result) := by
  refine (paired_lookup rfl _ _).bind fun x r => ?_
  dsimp only [Prog.bind]
  split
  · exact Paired.log .ret _ _
  · trivial

theorem paired_createUserByDB (tm : Tm) (data : SyncPlatformData) (result : SyncPlatformDataResult) :
    Paired false (createUserByDB tm data result) := by
  refine (paired_lookup rfl _ _).bind fun x => ?_
  split
  · exact paired_updateUserStateByDB data result
  · intro r
    dsimp only [Prog.bind]
    split
    · exact Paired.log .ret _ _
    · trivial

theorem paired_handleRecord (x : SyncPlatformData × Tm) : Paired false (handleRecord x) := by
  refine Paired.bind ?_ fun _ => Paired.log .ret _ _
  split
  · exact (paired_createUserByDB _ _ _).bind fun _ => trivial
  split
  · refine Paired.bind (fun r => ?_) fun _ => trivial
    dsimp only [Prog.bind]
    split
    · exact Paired.log .ret _ _
    · trivial
  split
  · exact (paired_updateUserStateByDB _ _).bind fun _ => trivial
  · trivial

theorem paired_handleSessionTask (records : List (SyncPlatformData × Tm)) :
    Paired false (handleSessionTask records) := by
  unfold handleSessionTask
  induction records with
  | nil => trivial
  | cons x records ih => exact (paired_handleRecord x).bind fun _ => ih.bind fun _ => trivial

/-! ### The invariant -/

/-- The program of a session, from the call that it is at. -/
def Place.task : Place → Option Task
  | .running p => some p
  | .posted c k | .served c k _ => some (.call c k)
  | .away => none

/-- The last call was a query. -/
def afterQuery (log : List Entry) : Bool := (log.getLast?.map fun e => Call.isQuery e.call).getD false

/-- The log is that of the session. -/
structure Session (pl : Place) (log : List Entry) : Prop where
  away : pl = .away → log = []
  paired : ∀ p, pl.task = some p → Paired (afterQuery log) p
  follows : ∀ p, pl.task = some p → ∃ records, (handleSessionTask records).Follows (calls log) p

/-- The recordset is on what the query found, or closed. -/
def Holds (s : Sys) (st : Statement) (table : Table) : Prop :=
  s.recordset = none ∨ s.recordset = some (column st, rows table st)

/-- What a session in a lookup will be given. -/
def Kept (s : Sys) (log : List Entry) : Place → Prop
  | .served (.query st) _ table => Holds s st table
  | .running (.call (.fetch _) _) | .posted (.fetch _) _ =>
    ∃ e st, log.getLast? = some e ∧ e.call = .query st ∧ Holds s st e.table
  | .served (.fetch _) _ _ =>
    ∃ e st, log.getLast? = some e ∧ e.call = .query st ∧ s.fetchResult <+: rows e.table st
  | _ => True

/-- A fetch right after a query returns what that found, or the beginning of it. -/
def Pair (a b : Entry) : Prop :=
  ∀ st item, a.call = .query st → b.call = .fetch item → b.reply.rows <+: rows a.table st

structure Invariant (s : Sys) : Prop where
  session : ∀ t, Session (s.place t) (s.log t)
  oneWaiting : ∀ t u, Waiting (s.place t) → Waiting (s.place u) → t = u
  oneFetched : ∀ t u, Fetched (s.place t) → Fetched (s.place u) → t = u
  kept : ∀ t, Kept s (s.log t) (s.place t)
  idle : (∀ t, ¬ Fetched (s.place t)) → s.fetchResult = []
  pairs : ∀ t, (s.log t).IsChain Pair

variable {sql : Sql} {s s' : Sys} {a : Step} {t : ThreadPtr} {pl : Place} {log : List Entry} {c : Call}
  {k : Reply → Task} {st : Statement} {table : Table}

/-- Nobody touches what a session in a lookup will be given; the recordset may be closed. -/
theorem Kept.mono (h : Kept s log pl)
    (hr : Waiting pl → s'.recordset = s.recordset ∨ s'.recordset = none)
    (hf : Fetched pl → s'.fetchResult = s.fetchResult) : Kept s' log pl := by
  have hh : ∀ {st table}, Waiting pl → Holds s st table → Holds s' st table := by
    intro st table hw h
    rcases hr hw with hr | hr
    · exact h.imp hr.trans hr.trans
    · exact .inl hr
  unfold Kept at h ⊢
  split at h
  · exact hh trivial h
  · obtain ⟨e, st, he, hc, hr⟩ := h
    exact ⟨e, st, he, hc, hh trivial hr⟩
  · obtain ⟨e, st, he, hc, hr⟩ := h
    exact ⟨e, st, he, hc, hh trivial hr⟩
  · obtain ⟨e, st, he, hc, hfr⟩ := h
    exact ⟨e, st, he, hc, hf trivial ▸ hfr⟩
  · trivial

/-- One session makes a step. -/
theorem Invariant.move (h : Invariant s) (t : ThreadPtr) (log : List Entry) (hplace : s'.place = update s.place t pl)
    (hlog : s'.log = update s.log t log) (hsession : Session pl log) (hpairs : log.IsChain Pair)
    (hkept : Kept s' log pl)
    (hwaiting : ∀ u ≠ t, Waiting (s.place u) → ¬ Waiting pl ∧ (s'.recordset = s.recordset ∨ s'.recordset = none))
    (hfetched : ∀ u ≠ t, Fetched (s.place u) → ¬ Fetched pl ∧ s'.fetchResult = s.fetchResult)
    (hidle : ¬ Fetched pl → (∀ u ≠ t, ¬ Fetched (s.place u)) → s'.fetchResult = []) : Invariant s' := by
  have hpl : ∀ u, s'.place u = if u = t then pl else s.place u := fun u => by
    rw [hplace]
    exact update_apply _ _ _ _
  have hl : ∀ u, s'.log u = if u = t then log else s.log u := fun u => by
    rw [hlog]
    exact update_apply _ _ _ _
  constructor
  case session =>
    intro u
    rw [hpl, hl]
    split_ifs
    · exact hsession
    · exact h.session u
  case oneWaiting =>
    intro u v hu hv
    rw [hpl] at hu hv
    split_ifs at hu hv with h1 h2 h2
    · rw [h1, h2]
    · exact absurd hu (hwaiting v h2 hv).1
    · exact absurd hv (hwaiting u h1 hu).1
    · exact h.oneWaiting u v hu hv
  case oneFetched =>
    intro u v hu hv
    rw [hpl] at hu hv
    split_ifs at hu hv with h1 h2 h2
    · rw [h1, h2]
    · exact absurd hu (hfetched v h2 hv).1
    · exact absurd hv (hfetched u h1 hu).1
    · exact h.oneFetched u v hu hv
  case kept =>
    intro u
    rw [hpl, hl]
    split_ifs with h1
    · exact hkept
    · exact (h.kept u).mono (fun hu => (hwaiting u h1 hu).2) fun hu => (hfetched u h1 hu).2
  case idle =>
    intro hno
    refine hidle ?_ fun u hu => ?_
    · have := hno t
      rwa [hpl, if_pos rfl] at this
    · have := hno u
      rwa [hpl, if_neg hu] at this
  case pairs =>
    intro u
    rw [hl]
    split_ifs
    · exact hpairs
    · exact h.pairs u

/-- There are no rows to take. -/
theorem Invariant.idle_of (h : Invariant s) (ht : ¬ Fetched (s.place t))
    (hothers : ∀ u ≠ t, ¬ Fetched (s.place u)) : s.fetchResult = [] := by
  refine h.idle fun u => ?_
  by_cases hu : u = t
  · rw [hu]
    exact ht
  · exact hothers u hu

/-! ### The steps -/

theorem not_waiting_running {p : Task} (h : Paired false p) : ¬ Waiting (.running p) := by
  cases p with
  | ret a => exact id
  | call c k =>
    cases c with
    | fetch item => exact absurd h.1 (by decide)
    | query st | exec st | crash => exact id

theorem kept_running {p : Task} (h : Paired false p) : Kept s log (.running p) := by
  cases p with
  | ret a => trivial
  | call c k =>
    cases c with
    | fetch item => exact absurd h.1 (by decide)
    | query st | exec st | crash => trivial

theorem afterQuery_append (log : List Entry) (e : Entry) : afterQuery (log ++ [e]) = Call.isQuery e.call := by
  rw [afterQuery, List.getLast?_concat]
  rfl

/-- The recordset has what the query found, if it has the column at all. -/
theorem Holds.found (h : Holds s st table) (item : String) : s.found item <+: rows table st := by
  unfold Sys.found
  rcases h with h | h <;> rw [h]
  · exact List.nil_prefix
  · dsimp only
    split
    · exact List.prefix_rfl
    · exact List.nil_prefix

@[simp] theorem make_place (w : Way) (s : Sys) (c : Call) : (s.make sql w c).place = s.place := by
  cases c <;> cases w <;> rfl

@[simp] theorem make_log (w : Way) (s : Sys) (c : Call) : (s.make sql w c).log = s.log := by
  cases c <;> cases w <;> rfl

/-- Only a fetch collects rows. -/
theorem make_fetchResult (w : Way) (s : Sys) (hc : ∀ item, c ≠ .fetch item) :
    (s.make sql w c).fetchResult = s.fetchResult := by
  cases c with
  | fetch item => exact absurd rfl (hc item)
  | query st | exec st => cases w <;> rfl
  | crash => rfl

/-- Only a query opens the recordset. -/
theorem make_recordset (w : Way) (s : Sys) (hc : ∀ st, c ≠ .query st) :
    (s.make sql w c).recordset = s.recordset ∨ (s.make sql w c).recordset = none := by
  cases c with
  | query st => exact absurd rfl (hc st)
  | fetch item =>
    cases w with
    | done => exact .inr rfl
    | failed e closed n => exact .inl rfl
  | exec st =>
    cases w with
    | done => exact .inl rfl
    | failed e closed n =>
      cases closed
      · exact .inl rfl
      · exact .inr rfl
  | crash => exact .inl rfl

/-- What a query opens whose text is read as it was meant. -/
theorem opened_decodes (hsql : sql.Faithful) (hs : isSelect st = true) (hd : st.Decodes) :
    s.opened sql st = some (column st, rows s.table st) := by
  obtain ⟨text, htext⟩ := exists_stored hd
  rw [Sys.opened, htext, Option.bind_some]
  exact hsql.query s.table st text hs hd htext

theorem invariant_begin (h : Invariant s) (he : s.place t = .away) (records : List (SyncPlatformData × Tm)) :
    Invariant (s.setPlace t (.running (handleSessionTask records))) := by
  have hlog := (h.session t).away he
  have hp := paired_handleSessionTask records
  refine h.move t [] rfl ?_ ⟨fun _ => rfl, ?_, ?_⟩ .nil (kept_running hp)
    (fun _ _ _ => ⟨not_waiting_running hp, .inl rfl⟩) (fun _ _ _ => ⟨id, rfl⟩) fun _ hno => ?_
  · rw [← hlog]
    exact (update_eq_self t s.log).symm
  · rintro p ⟨⟩
    exact hp
  · rintro p ⟨⟩
    exact ⟨records, rfl⟩
  · have hempty : s.fetchResult = [] := h.idle_of (t := t) (by rw [he]; exact id) hno
    exact hempty

theorem invariant_post (h : Invariant s) (he : s.place t = .running (.call c k)) : Invariant (s.post t) := by
  have hpost : s.post t = { s.setPlace t (.posted c k) with errCode := 0, queue := s.queue ++ [t] } := by
    simp only [Sys.post, he]
  -- the session waits for its fetch as before
  have hwait : Waiting (.posted c k) → Waiting (s.place t) := by
    rw [he]
    cases c <;> exact id
  have hs := h.session t
  have hk := h.kept t
  rw [he] at hs hk
  rw [hpost]
  refine h.move t (s.log t) rfl (update_eq_self t s.log).symm ⟨nofun, hs.paired, hs.follows⟩ (h.pairs t)
    ?_ (fun u hu hl => ⟨fun hp => hu (h.oneWaiting u t hl (hwait hp)), .inl rfl⟩) (fun _ _ _ => ⟨id, rfl⟩)
      fun _ hno => ?_
  · cases c with
    | fetch item => exact hk
    | query st | exec st | crash => trivial
  · have hempty : s.fetchResult = [] := h.idle_of (t := t) (by rw [he]; exact id) hno
    exact hempty

theorem invariant_work {w : Way} (hsql : sql.Faithful) (h : Invariant s) (he : s.Enabled sql (.work w))
    (hok : Apart s (.work w)) : Invariant (s.work sql w) := by
  obtain ⟨t, q, c, k, hq, hp, hgoes⟩ := he
  have hwork : s.work sql w = { (s.make sql w c).setPlace t (.served c k s.table) with queue := q } := by
    simp only [Sys.work, hq, hp]
  have hs := h.session t
  have hk := h.kept t
  have hno := hok t q c k hq hp
  have hidle : (∀ u ≠ t, ¬ Fetched (s.place u)) → s.fetchResult = [] := h.idle_of (by rw [hp]; exact id)
  rw [hp] at hs hk
  have hplace : (s.work sql w).place = update s.place t (.served c k s.table) := by
    rw [hwork]
    exact congrArg (update · t _) (make_place w s c)
  have hlog : (s.work sql w).log = update s.log t (s.log t) := by
    rw [hwork, update_eq_self]
    exact make_log w s c
  have hsession : Session (.served c k s.table) (s.log t) := ⟨nofun, hs.paired, hs.follows⟩
  cases c with
  | query st =>
    have hfetch : (s.work sql w).fetchResult = s.fetchResult := by
      rw [hwork]
      exact make_fetchResult w s (by simp)
    have hopened : s.opened sql st = some (column st, rows s.table st) :=
      opened_decodes hsql (hs.paired _ rfl).1 hno.1
    refine h.move t (s.log t) hplace hlog hsession (h.pairs t) ?_ (fun u hu hl => absurd hl (hno.2 u hu))
      (fun _ _ _ => ⟨id, hfetch⟩) fun _ hothers => hfetch.trans (hidle hothers)
    rw [hwork]
    cases w with
    | done => exact .inr hopened
    | failed e closed n =>
      cases closed
      · exact .inr hopened
      · exact .inl rfl
  | fetch item =>
    obtain ⟨e, st, hlast, hc, hholds⟩ := hk
    have hpre := hholds.found item
    have hempty := hidle hno
    have hrs : (s.work sql w).recordset = s.recordset ∨ (s.work sql w).recordset = none := by
      rw [hwork]
      exact make_recordset w s (by simp)
    refine h.move t (s.log t) hplace hlog hsession (h.pairs t) ⟨e, st, hlast, hc, ?_⟩ (fun _ _ _ => ⟨id, hrs⟩)
      (fun u hu hl => absurd hl (hno u hu)) fun hl => absurd trivial hl
    rw [hwork]
    cases w with
    | done =>
      change s.fetchResult ++ s.found item <+: _
      rw [hempty]
      exact hpre
    | failed e closed n =>
      change s.fetchResult ++ (s.found item).take n <+: _
      rw [hempty]
      exact (List.take_prefix _ _).trans hpre
  | exec st =>
    have hfetch : (s.work sql w).fetchResult = s.fetchResult := by
      rw [hwork]
      exact make_fetchResult w s (by simp)
    have hrs : (s.work sql w).recordset = s.recordset ∨ (s.work sql w).recordset = none := by
      rw [hwork]
      exact make_recordset w s (by simp)
    exact h.move t (s.log t) hplace hlog hsession (h.pairs t) trivial (fun _ _ _ => ⟨id, hrs⟩)
      (fun _ _ _ => ⟨id, hfetch⟩) fun _ hothers => hfetch.trans (hidle hothers)
  | crash => exact hgoes.elim

theorem invariant_resume (h : Invariant s) (he : s.Enabled sql (.resume t)) : Invariant (s.resume t) := by
  obtain ⟨c, k, table, hp⟩ := he
  have hresume : s.resume t = { s.setPlace t (.running (k (s.reply c))) with
      fetchResult := s.clear c, log := update s.log t (s.log t ++ [⟨c, s.reply c, table⟩]) } := by
    simp only [Sys.resume, hp]
  have hs := h.session t
  have hk := h.kept t
  rw [hp] at hs hk
  have hpaired := (hs.paired _ rfl).next (s.reply c)
  have hsession : Session (.running (k (s.reply c))) (s.log t ++ [⟨c, s.reply c, table⟩]) := by
    refine ⟨nofun, ?_, ?_⟩
    · rintro p ⟨⟩
      rw [afterQuery_append]
      exact hpaired
    · rintro p ⟨⟩
      obtain ⟨records, hf⟩ := hs.follows _ rfl
      refine ⟨records, ?_⟩
      rw [calls, List.map_append]
      exact hf.snoc (s.reply c)
  have hpairs : (∀ e ∈ (s.log t).getLast?, Pair e ⟨c, s.reply c, table⟩) →
      List.IsChain Pair (s.log t ++ [(⟨c, s.reply c, table⟩ : Entry)]) := by
    intro hlast
    refine List.isChain_append.2 ⟨h.pairs t, .singleton _, fun e he x hx => ?_⟩
    obtain rfl := Option.some.inj hx
    exact hlast e he
  rw [hresume]
  cases c with
  | query st =>
    have hone : ∀ u ≠ t, ¬ Waiting (s.place u) :=
      fun u hu hl => hu (h.oneWaiting u t hl (by rw [hp]; trivial))
    refine h.move t _ rfl rfl hsession (hpairs fun e _ => nofun) ?_ (fun u hu hl => absurd hl (hone u hu))
      (fun _ _ _ => ⟨id, rfl⟩) fun _ hothers => ?_
    · cases hn : k (s.reply (.query st)) with
      | ret a => trivial
      | call c' k' =>
        cases c' with
        | fetch item => exact ⟨_, st, List.getLast?_concat, rfl, hk⟩
        | query st' | exec st' | crash => trivial
    · have hempty : s.fetchResult = [] := h.idle_of (t := t) (by rw [hp]; exact id) hothers
      exact hempty
  | fetch item =>
    obtain ⟨e, st, hlast, hc, hpre⟩ := hk
    have hone : ∀ u ≠ t, ¬ Fetched (s.place u) :=
      fun u hu hl => hu (h.oneFetched u t hl (by rw [hp]; trivial))
    refine h.move t _ rfl rfl hsession (hpairs fun x hx => ?_) (kept_running hpaired)
      (fun _ _ _ => ⟨not_waiting_running hpaired, .inl rfl⟩) (fun u hu hl => absurd hl (hone u hu)) fun _ _ => rfl
    rw [hlast] at hx
    obtain rfl := Option.some.inj hx
    rintro st' item' hst -
    obtain rfl := Call.query.inj (hc.symm.trans hst)
    exact hpre
  | exec st | crash =>
    refine h.move t _ rfl rfl hsession (hpairs fun e _ => nofun) (kept_running hpaired)
      (fun _ _ _ => ⟨not_waiting_running hpaired, .inl rfl⟩) (fun _ _ _ => ⟨id, rfl⟩) fun _ hothers => ?_
    have hempty : s.fetchResult = [] := h.idle_of (t := t) (by rw [hp]; exact id) hothers
    exact hempty

/-- What every step keeps, while the lookups are apart. -/
theorem invariant_step (hsql : sql.Faithful) (h : Invariant s) (he : s.Enabled sql a) (hok : Apart s a) :
    Invariant (s.apply sql a) := by
  cases a with
  | begin t records => exact invariant_begin h he records
  | post t =>
    obtain ⟨c, k, hp, -⟩ := he
    exact invariant_post h hp
  | work w => exact invariant_work hsql h he hok
  | resume t => exact invariant_resume h he
  | change table =>
    exact ⟨h.session, h.oneWaiting, h.oneFetched, fun t => (h.kept t).mono (fun _ => .inl rfl) fun _ => rfl,
      h.idle, h.pairs⟩

theorem invariant_start (table : Table) : Invariant (Sys.start table) :=
  ⟨fun _ => ⟨fun _ => rfl, nofun, nofun⟩, fun _ _ h => h.elim, fun _ _ h => h.elim, fun _ => trivial, fun _ => rfl,
    fun _ => .nil⟩

/-! ### What a lookup returns -/

theorem follows_ret {x y : Bool × String} {l : List (Call × Reply)}
    (h : (Prog.ret x : Prog Call Reply (Bool × String)).Follows l (.ret y)) : l = [] ∧ x = y := by
  cases l with
  | nil => exact ⟨rfl, Prog.ret.inj h⟩
  | cons z l =>
    obtain ⟨k, hk, -⟩ := h
    nomatch hk

/-- The calls of a lookup that returns a new value. -/
theorem follows_lookup {item old value : String} {l : List (Call × Reply)}
    (h : (lookup st item old).Follows l (.ret (true, value))) (hne : value ≠ old) :
    ∃ q f row, l = [(.query st, q), (.fetch item, f)] ∧ f.rows = [row] ∧ value = narrow row := by
  unfold lookup at h
  simp only [Prog.bind_eq, Prog.ask_bind, Prog.pure_eq] at h
  cases l with
  | nil => nomatch h
  | cons x l =>
    obtain ⟨k, hk, h⟩ := h
    obtain ⟨hc, rfl⟩ := Prog.call.inj hk
    dsimp only at h
    split at h
    · nomatch (follows_ret h).2
    cases l with
    | nil => nomatch h
    | cons y l =>
      obtain ⟨k, hk, h⟩ := h
      obtain ⟨hc', rfl⟩ := Prog.call.inj hk
      dsimp only at h
      split at h
      · nomatch (follows_ret h).2
      split at h
      · rename_i row hrow
        obtain ⟨rfl, heq⟩ := follows_ret h
        exact ⟨x.2, y.2, row, by rw [hc, hc'], hrow, (Prod.mk.inj heq).2.symm⟩
      · obtain ⟨-, heq⟩ := follows_ret h
        exact absurd (Prod.mk.inj heq).2.symm hne

/-- A lookup in the log of a session. -/
theorem Invariant.lookup (h : Invariant s) {l₁ l₂ : List Entry} (hlog : s.log t = l₁ ++ log ++ l₂)
    {item old value : String} (hne : value ≠ old)
    (hf : (lookup st item old).Follows (calls log) (.ret (true, value))) :
    ∃ e ∈ log, e.call = .query st ∧ ∃ row, [row] <+: rows e.table st ∧ value = narrow row := by
  obtain ⟨q, f, row, hcalls, hrow, hvalue⟩ := follows_lookup hf hne
  obtain ⟨a, l, rfl, ha, hl⟩ := List.map_eq_cons_iff.1 hcalls
  obtain ⟨b, l, rfl, hb, hl⟩ := List.map_eq_cons_iff.1 hl
  obtain rfl := List.map_eq_nil_iff.1 hl
  have hchain : List.IsChain Pair [a, b] := List.IsChain.infix (h.pairs t) ⟨l₁, l₂, hlog.symm⟩
  have hpair := (List.isChain_cons_cons.1 hchain).1 st item (Prod.mk.inj ha).1 (Prod.mk.inj hb).1
  rw [(Prod.mk.inj hb).2, hrow] at hpair
  exact ⟨a, List.mem_cons_self, (Prod.mk.inj ha).1, row, hpair, hvalue⟩

theorem Invariant.right (h : Invariant s) : Right s := by
  -- there is one row at most
  have hone : ∀ {o : Option Row} {g : Row → List UInt16} {row : List UInt16}, [row] <+: o.toList.map g →
      ∃ r, o = some r ∧ row = g r := by
    intro o g row hpre
    cases o with
    | none => exact absurd hpre (by simp)
    | some r =>
      obtain ⟨l, hl⟩ := hpre
      exact ⟨r, rfl, (List.cons.inj hl).1⟩
  intro t l₁ log l₂ hlog userID old value hne
  refine ⟨fun hf => ?_, fun hf => ?_⟩
  · obtain ⟨e, he, hc, row, hpre, hvalue⟩ := h.lookup hlog hne hf
    obtain ⟨r, hr, rfl⟩ := hone hpre
    exact ⟨e, he, hc, r, hr, hvalue⟩
  · obtain ⟨e, he, hc, row, hpre, hvalue⟩ := h.lookup hlog hne hf
    obtain ⟨r, hr, rfl⟩ := hone hpre
    exact ⟨e, he, hc, r, hr, hvalue⟩

theorem reach_invariant (hsql : sql.Faithful) (h : ReachVia (machine sql) Apart s) : Invariant s := by
  refine ReachVia.invariant ?_ (fun s a => invariant_step hsql) h
  rintro s ⟨table, rfl⟩
  exact invariant_start table

/-- **Query and fetch belong together** while the lookups of the sessions are apart and their texts are read as
they were meant. -/
theorem lookups_right (hsql : sql.Faithful) (h : ReachVia (machine sql) Apart s) : Right s :=
  (reach_invariant hsql h).right

/-! ### Runs -/

instance decidableWaiting : ∀ pl, Decidable (Waiting pl)
  | .served (.query _) _ _ | .running (.call (.fetch _) _) | .posted (.fetch _) _ => .isTrue trivial
  | .away | .running (.ret _) | .running (.call (.query _) _) | .running (.call (.exec _) _)
  | .running (.call .crash _) | .posted (.query _) _ | .posted (.exec _) _ | .posted .crash _
  | .served (.fetch _) _ _ | .served (.exec _) _ _ | .served .crash _ _ => .isFalse id

instance decidableFetched : ∀ pl, Decidable (Fetched pl)
  | .served (.fetch _) _ _ => .isTrue trivial
  | .away | .running _ | .posted _ _ | .served (.query _) _ _ | .served (.exec _) _ _ | .served .crash _ _ =>
    .isFalse id

instance decidablePosts : ∀ c, Decidable (Sys.Posts c)
  | .query st | .exec st => inferInstanceAs (Decidable (st.stored.isSome = true))
  | .fetch _ => .isTrue trivial
  | .crash => .isFalse id

instance decidableGoes (s : Sys) : ∀ c w, Decidable (s.Goes sql c w)
  | .query st, .done => inferInstanceAs (Decidable ((s.opened sql st).isSome = true))
  | .query _, .failed e _ _ | .exec _, .failed e _ _ =>
    inferInstanceAs (Decidable (Write.desc e.description).Fits)
  | .exec st, .done => inferInstanceAs (Decidable ((st.stored.bind (sql.exec s.table)).isSome = true))
  | .fetch item, .done => inferInstanceAs (Decidable (∀ x ∈ s.recordset, x.1 = item))
  | .fetch _, .failed _ _ _ => inferInstanceAs (Decidable (_ ∧ _))
  | .crash, _ => .isFalse id

instance decidableEnabled (s : Sys) : ∀ a, Decidable ((machine sql).enabled s a)
  | .begin t _ => match h : s.place t with
    | .away => .isTrue h
    | .running _ | .posted _ _ | .served _ _ _ => .isFalse fun he => nomatch h.symm.trans he
  | .post t => match h : s.place t with
    | .running (.call c k) => decidable_of_iff (Sys.Posts c) ⟨fun hc => ⟨c, k, h, hc⟩, by
        rintro ⟨c', k', h', hc⟩
        obtain ⟨rfl, rfl⟩ := Prog.call.inj (Place.running.inj (h.symm.trans h'))
        exact hc⟩
    | .away | .running (.ret _) | .posted _ _ | .served _ _ _ => .isFalse (by
        rintro ⟨c', k', h', -⟩
        nomatch h.symm.trans h')
  | .work w => match hq : s.queue with
    | [] => .isFalse fun ⟨_, _, _, _, he, _⟩ => nomatch hq.symm.trans he
    | t :: q => match h : s.place t with
      | .posted c k => decidable_of_iff (s.Goes sql c w) ⟨fun hg => ⟨t, q, c, k, hq, h, hg⟩, by
          rintro ⟨t', q', c', k', hq', h', hg⟩
          obtain ⟨rfl, rfl⟩ := List.cons.inj (hq.symm.trans hq')
          obtain ⟨rfl, rfl⟩ := Place.posted.inj (h.symm.trans h')
          exact hg⟩
      | .away | .running _ | .served _ _ _ => .isFalse (by
          rintro ⟨t', q', c', k', hq', h', -⟩
          obtain ⟨rfl, rfl⟩ := List.cons.inj (hq.symm.trans hq')
          nomatch h.symm.trans h')
  | .resume t => match h : s.place t with
    | .served c k table => .isTrue ⟨c, k, table, h⟩
    | .away | .running _ | .posted _ _ => .isFalse fun ⟨_, _, _, he⟩ => nomatch h.symm.trans he
  | .change _ => .isTrue trivial

/-- Two accounts. -/
def accounts : Table := fun userID =>
  if userID = "1001" then some ⟨[], widen "0101", []⟩
  else if userID = "2002" then some ⟨[], widen "0103", []⟩
  else none

def records (userID : String) : List (SyncPlatformData × Tm) := [({ custAccunt := userID, custState := "0101" }, day)]

/-- Both query before the first of them fetches. -/
def mixedRun : List Step :=
  [.begin 0 (records "1001"), .begin 1 (records "2002"), .post 0, .post 1, .work .done, .work .done,
    .resume 0, .resume 1, .post 0, .work .done, .resume 0]

/-- The second queries when the first has posted its fetch. -/
def apartRun : List Step :=
  [.begin 0 (records "1001"), .begin 1 (records "2002"), .post 0, .work .done, .resume 0, .post 0, .post 1,
    .work .done, .resume 0, .work .done, .resume 1]

/-- A session gets the state of the other's user. -/
theorem not_lookups : ¬ ∀ s, Reach (machine readSql) s → Right s := by
  intro h
  have hreach : Reach (machine readSql) (mixedRun.foldl (machine readSql).apply (Sys.start accounts)) :=
    ReachVia.foldl (ReachVia.init (M := machine readSql) ⟨accounts, rfl⟩) _ (by decide +kernel)
  have hlog := h _ hreach 0 [] _ [] (List.append_nil _).symm "1001" "" "0103" (by decide)
  have htable : ∀ e ∈ (mixedRun.foldl (machine readSql).apply (Sys.start accounts)).log 0,
      e.table "1001" = some ⟨[], widen "0101", []⟩ := by decide +kernel
  obtain ⟨e, he, -, row, hrow, hvalue⟩ := hlog.1 ⟨_, rfl, _, rfl, rfl⟩
  obtain rfl := Option.some.inj ((htable e he).symm.trans hrow)
  exact absurd hvalue (by decide +kernel)

/-- There are two sessions, and the other one is not in a lookup. -/
theorem apart_work {w : Way} {t' : ThreadPtr} {q : List ThreadPtr} (hq : s.queue = t :: q)
    (htwo : t = 0 ∧ t' = 1 ∨ t = 1 ∧ t' = 0) (haway : ∀ u, s.place (u + 2) = .away)
    (hl : ¬ Waiting (s.place t') ∧ ¬ Fetched (s.place t'))
    (hd : ∀ c k st, s.place t = .posted c k → c = .query st → st.Decodes) : Apart s (.work w) := by
  intro t₁ q₁ c k hq₁ hp
  obtain ⟨rfl, -⟩ := List.cons.inj (hq.symm.trans hq₁)
  have hnot : ∀ u ≠ t, ¬ Waiting (s.place u) ∧ ¬ Fetched (s.place u) := by
    intro u hu
    match u with
    | 0 | 1 =>
      rcases htwo with ⟨rfl, rfl⟩ | ⟨rfl, rfl⟩
      all_goals first
        | exact absurd rfl hu
        | exact hl
    | u + 2 =>
      rw [haway]
      exact ⟨id, id⟩
  cases c with
  | query st => exact ⟨hd _ k st hp rfl, fun u hu => (hnot u hu).1⟩
  | fetch item => exact fun u hu => (hnot u hu).2
  | exec st | crash => trivial

/-- Two lookups one after the other. -/
theorem lookups_apart : ∃ s, s = apartRun.foldl (machine readSql).apply (Sys.start accounts) ∧
    (s.log 0).length = 2 ∧ Right s := by
  refine ⟨_, rfl, by decide +kernel,
    lookups_right readSql_faithful (ReachVia.foldl (ReachVia.init (M := machine readSql) ⟨accounts, rfl⟩) _ ?_)⟩
  have hall : Enables (machine readSql) (fun _ _ => True) (Sys.start accounts) apartRun := by decide +kernel
  have hd : (Statement.selectUserState "1001").Decodes ∧ (Statement.selectUserState "2002").Decodes := by
    decide +kernel
  simp only [Enables, apartRun] at hall ⊢
  obtain ⟨⟨h1, -⟩, ⟨h2, -⟩, ⟨h3, -⟩, ⟨h4, -⟩, ⟨h5, -⟩, ⟨h6, -⟩, ⟨h7, -⟩, ⟨h8, -⟩, ⟨h9, -⟩, ⟨h10, -⟩,
    ⟨h11, -⟩, -⟩ := hall
  refine ⟨⟨h1, trivial⟩, ⟨h2, trivial⟩, ⟨h3, trivial⟩, ⟨h4, ?_⟩, ⟨h5, trivial⟩, ⟨h6, trivial⟩, ⟨h7, trivial⟩,
    ⟨h8, ?_⟩, ⟨h9, trivial⟩, ⟨h10, ?_⟩, ⟨h11, trivial⟩, trivial⟩
  · refine apart_work (q := []) rfl (.inl ⟨rfl, rfl⟩) (fun _ => rfl) (by decide +kernel) ?_
    rintro c k st ⟨⟩ ⟨⟩
    exact hd.1
  · refine apart_work (q := [1]) rfl (.inl ⟨rfl, rfl⟩) (fun _ => rfl) (by decide +kernel) ?_
    rintro c k st ⟨⟩ ⟨⟩
  · refine apart_work (q := []) rfl (.inr ⟨rfl, rfl⟩) (fun _ => rfl) (by decide +kernel) ?_
    rintro c k st ⟨⟩ ⟨⟩
    exact hd.2

end StNvs.Sync.Lookups
