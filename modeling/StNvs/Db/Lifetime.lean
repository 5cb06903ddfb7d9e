import StNvs.Db.Server

/-! # The life of a database handle

`st_db_connect` makes the handle and starts `db_server` for it, and asks it to open the connection; when
it finds an error code afterwards, it frees the handle and returns `NULL`. `st_db_close` asks for the end
of the service and frees the handle. The worker hands the thread back before it looks whether it is to
exit, and `~SqlServerDBOper` closes the connection after that, all on the handle. How `Open` and the
statements go is up to the database, and everybody's steps interleave.

`misused` is set by a step of the worker that uses the handle or its queue after it is freed; no function
reads it, nor `openEnd`.

`phase_reach`: who is where, in every state. -/

namespace StNvs.Db.Lifetime

open StNvs.Lib.Runs StNvs.Db.Server

/-! ### The data -/

/-- How `SqlServerDBOper::Open` ends: it succeeds, one of the two calls of `CreateInstance` fails, or
there is a `_com_error`. -/
inductive OpenEnd
  | opened
  | noConnection
  | noRecordset
  | failed (e : ComError)
  deriving DecidableEq, Repr

/-- `SqlServerDBOper::Open`: what it returns, and what it stores in the handle. -/
def OpenEnd.run : OpenEnd → Bool × List Write
  | .opened => (true, [])
  -- `_err_code = rc`, and `rc` is 0
  | .noConnection | .noRecordset => (false, [.code 0])
  | .failed e => (false, handleErr e)

/-- The requests: `DB_OPEN`, those of the state threads, and `DB_CLOSE`. -/
inductive Oper
  | open
  | work (r : Request)
  | close
  deriving DecidableEq, Repr

/-- Where `db_server` is: `replying` when the request is done, `replied` when the thread is handed back,
`leaving` when the loop has ended; `exit` is its variable. -/
inductive Worker
  | waiting
  | serving (o : Oper)
  | replying (o : Oper) (exit : Bool)
  | replied (exit : Bool)
  | leaving
  | ended
  deriving DecidableEq, Repr

/-- The two functions that free a handle. -/
inductive Path
  | connect | close
  deriving DecidableEq, Repr

/-- Where the thread is that connects and closes: `woken` when it is handed back, `freeing` when it is
about to delete the queue, `freeingHandle` when only `free(dbfd)` is left. A handle is out from
`connected` to `waiting close`; `gone connect` is where `st_db_connect` has returned `NULL`. -/
inductive Owner
  | absent
  | waiting (p : Path)
  | woken (p : Path)
  | connected
  | freeing (p : Path)
  | freeingHandle (p : Path)
  | gone (p : Path)
  deriving DecidableEq, Repr

/-- The handle, its queue, the worker, and the thread that connects and closes; `descLen` and `out` are
`desc_len` and `*err_code` of `st_db_connect`, `openEnd` is how `Open` has ended, and `aborted` says that the
program has. -/
structure Sys where
  errCode : ℤ
  errDesc : String
  queue : List Oper
  worker : Worker
  owner : Owner
  descLen : ℕ
  out : ℤ
  openEnd : Option OpenEnd
  queueFreed : Bool
  freed : Bool
  misused : Bool
  aborted : Bool
  deriving DecidableEq, Repr

/-! ### The steps -/

/-- The steps of the callers, those of the thread that is handed back, and those of the worker. -/
inductive Step
  | connect (descLen : ℕ)
  | post (r : Request)
  | close
  | resume
  | deleteQueue
  | freeHandle
  | take
  | open (e : OpenEnd)
  | work (o : Outcome)
  | disconnect
  | reply
  | test
  | destroy
  deriving DecidableEq, Repr

namespace Sys

/-- A step of the worker that uses the handle. -/
def use (s : Sys) : Sys := { s with misused := s.misused || s.freed }

/-- A step of the worker that uses the queue of the handle. -/
def useQueue (s : Sys) : Sys := { s with misused := s.misused || s.freed || s.queueFreed }

/-- The worker stores something in the handle, and goes on; a description that does not fit ends the
program. -/
def store (s : Sys) (ws : List Write) (w : Worker) : Sys :=
  { s.use with
    errCode := ((codes ws).getLast?).getD s.errCode
    errDesc := ((descs ws).getLast?).getD s.errDesc
    worker := w
    aborted := decide ¬ ∀ w ∈ ws, w.Fits }

/-- The thread that waits for this request is handed back. -/
def wake (o : Oper) (s : Sys) : Sys :=
  match o with
  | .open => { s with owner := .woken .connect }
  | .close => { s with owner := .woken .close }
  | .work _ => s

/-- `_msg_queue->wait` and `dequeue`. -/
def take (s : Sys) : Sys :=
  match s.queue with
  | [] => s
  | o :: q => { s.useQueue with queue := q, worker := .serving o }

/-- The thread that was handed back copies the description, which `strcpy_s` does when there is room for
it, and looks at the error code. -/
def resume (s : Sys) : Sys :=
  match s.owner with
  | .woken .connect =>
    if s.errDesc.length < s.descLen then
      { s with out := s.errCode, owner := if s.errCode ≠ 0 then .freeing .connect else .connected }
    else { s with out := s.errCode, aborted := true }
  | .woken .close => { s with owner := .freeing .close }
  | _ => s

def deleteQueue (s : Sys) : Sys :=
  match s.owner with
  | .freeing p => { s with owner := .freeingHandle p, queueFreed := true }
  | _ => s

def freeHandle (s : Sys) : Sys :=
  match s.owner with
  | .freeingHandle p => { s with owner := .gone p, freed := true }
  | _ => s

/-- The thread is put in the queue of the scheduler, and the scheduler is notified. -/
def reply (s : Sys) : Sys :=
  match s.worker with
  | .replying o x => { s.wake o with worker := .replied x }
  | _ => s

/-- `while(!exit)`: the worker waits on the queue again, or leaves the loop. -/
def test (s : Sys) : Sys :=
  match s.worker with
  | .replied true => { s with worker := .leaving }
  | .replied false => { s.useQueue with worker := .waiting }
  | _ => s

def Enabled (s : Sys) : Step → Prop
  | .connect _ => s.owner = .absent
  | .post _ | .close => s.owner = .connected
  | .resume => ∃ p, s.owner = .woken p
  | .deleteQueue => ∃ p, s.owner = .freeing p
  | .freeHandle => ∃ p, s.owner = .freeingHandle p
  | .take => s.worker = .waiting ∧ s.queue ≠ []
  | .open _ => s.worker = .serving .open
  | .work o => ∃ r, s.worker = .serving (.work r) ∧ o.event = r.event
  | .disconnect => s.worker = .serving .close
  | .reply => ∃ o x, s.worker = .replying o x
  | .test => ∃ x, s.worker = .replied x
  | .destroy => s.worker = .leaving

def apply (s : Sys) : Step → Sys
  | .connect n => { s with errCode := 0, queue := [.open], owner := .waiting .connect, descLen := n }
  | .post r => { s with errCode := 0, queue := s.queue ++ [.work r] }
  | .close => { s with errCode := 0, queue := s.queue ++ [.close], owner := .waiting .close }
  | .resume => s.resume
  | .deleteQueue => s.deleteQueue
  | .freeHandle => s.freeHandle
  | .take => s.take
  | .open e => { s.store e.run.2 (.replying .open !e.run.1) with openEnd := some e }
  | .work o =>
    match s.worker with
    | .serving (.work r) => s.store o.writes (.replying (.work r) false)
    | _ => s
  | .disconnect => { s.use with worker := .replying .close true }
  | .reply => s.reply
  | .test => s.test
  | .destroy => { s.use with worker := .ended }

/-- Before `st_db_connect`. -/
def start : Sys :=
  { errCode := 0, errDesc := "", queue := [], worker := .waiting, owner := .absent, descLen := 0, out := 0
    openEnd := none, queueFreed := false, freed := false, misused := false, aborted := false }

instance decidableServing (w : Worker) (o : Outcome) :
    Decidable (∃ r, w = .serving (.work r) ∧ o.event = r.event) :=
  match w with
  | .serving (.work r) => decidable_of_iff (o.event = r.event) (by simp)
  | .serving .open | .serving .close | .waiting | .replying _ _ | .replied _ | .leaving | .ended =>
    .isFalse (by simp)

instance decidableReplying (w : Worker) : Decidable (∃ o x, w = .replying o x) :=
  match w with
  | .replying o x => .isTrue ⟨o, x, rfl⟩
  | .serving _ | .waiting | .replied _ | .leaving | .ended => .isFalse (by simp)

instance decidablePath (P : Path → Prop) [DecidablePred P] : Decidable (∃ p, P p) :=
  decidable_of_iff (P .connect ∨ P .close)
    ⟨fun h => h.elim (⟨_, ·⟩) (⟨_, ·⟩), fun ⟨p, h⟩ => by cases p <;> simp [h]⟩

instance decidableEnabled (s : Sys) : ∀ a, Decidable (s.Enabled a)
  | .connect _ | .post _ | .close | .open _ | .disconnect | .destroy => inferInstanceAs (Decidable (_ = _))
  | .resume => inferInstanceAs (Decidable (∃ p, s.owner = .woken p))
  | .deleteQueue => inferInstanceAs (Decidable (∃ p, s.owner = .freeing p))
  | .freeHandle => inferInstanceAs (Decidable (∃ p, s.owner = .freeingHandle p))
  | .take => inferInstanceAs (Decidable (_ ∧ _))
  | .work o => decidableServing s.worker o
  | .reply => decidableReplying s.worker
  | .test => inferInstanceAs (Decidable (∃ x, s.worker = .replied x))

end Sys

/-- Nothing is done in a program that has ended. -/
def machine : Machine Sys Step where
  init s := s = Sys.start
  enabled s a := s.aborted = false ∧ s.Enabled a
  apply := Sys.apply

instance decidableMachine (s : Sys) (a : Step) : Decidable (machine.enabled s a) :=
  have := Sys.decidableEnabled s a
  inferInstanceAs (Decidable (s.aborted = false ∧ s.Enabled a))

/-! ### Who is where -/

/-- The worker is on its way out of the loop. -/
def Worker.Exiting : Worker → Prop
  | .replied true | .leaving | .ended => True
  | .waiting | .serving _ | .replying _ _ | .replied false => False

/-- The worker is in the loop, with no request but one of the state threads. -/
def Worker.Working : Worker → Prop
  | .waiting | .serving (.work _) | .replying (.work _) false | .replied false => True
  | .serving .open | .serving .close | .replying _ _ | .replied true | .leaving | .ended => False

def Oper.IsWork : Oper → Prop
  | .work _ => True
  | .open | .close => False

/-- **Who is where.** -/
def Phase (s : Sys) : Prop :=
  match s.owner with
  | .absent => s.queue = [] ∧ s.worker = .waiting
  | .waiting .connect =>
    (s.errCode = 0 ∧ s.queue = [.open] ∧ s.worker = .waiting) ∨
      (s.errCode = 0 ∧ s.queue = [] ∧ s.worker = .serving .open) ∨
      (s.queue = [] ∧ ∃ x, s.worker = .replying .open x ∧ (s.errCode ≠ 0 → x = true))
  | .woken .connect =>
    s.queue = [] ∧ (s.worker.Exiting ∨ (s.errCode = 0 ∧ (s.worker = .replied false ∨ s.worker = .waiting)))
  | .connected => (∀ o ∈ s.queue, o.IsWork) ∧ (s.worker.Exiting ∨ s.worker.Working)
  | .waiting .close =>
    (∃ q, s.queue = q ++ [.close] ∧ (∀ o ∈ q, o.IsWork) ∧ (s.worker.Exiting ∨ s.worker.Working)) ∨
      (s.queue = [] ∧ (s.worker = .serving .close ∨ s.worker = .replying .close true))
  | .woken .close | .freeing _ | .freeingHandle _ | .gone _ => s.worker.Exiting

variable {s : Sys} {a : Step} {ok : Sys → Step → Prop}

theorem Oper.IsWork.eq {o : Oper} (h : o.IsWork) : ∃ r, o = .work r := by
  cases o with
  | work r => exact ⟨r, rfl⟩
  | «open» | close => exact h.elim

theorem phase_take (h : Phase s) (hw : s.worker = .waiting) (hq : s.queue ≠ []) : Phase s.take := by
  obtain ⟨o, q, hoq⟩ := List.exists_cons_of_ne_nil hq
  have ht : s.take = { s.useQueue with queue := q, worker := .serving o } := by
    unfold Sys.take
    rw [hoq]
  have hne : ¬ s.worker.Exiting := by rw [hw]; exact id
  rw [ht]
  cases ho : s.owner with
  | absent =>
    simp only [Phase, ho] at h
    exact absurd h.1 hq
  | waiting p =>
    cases p with
    | connect =>
      simp only [Phase, ho, hoq, hw, Sys.useQueue] at h ⊢
      obtain ⟨hc, he, -⟩ | ⟨-, he, -⟩ | ⟨he, -⟩ := h
      · obtain ⟨rfl, rfl⟩ := List.cons.inj he
        exact .inr (.inl ⟨hc, rfl, rfl⟩)
      · cases he
      · cases he
    | close =>
      simp only [Phase, ho, hoq, hw, Sys.useQueue] at h ⊢
      obtain ⟨q', he, hall, -⟩ | ⟨he, -⟩ := h
      · cases q' with
        | nil =>
          obtain ⟨rfl, rfl⟩ := List.cons.inj he
          exact .inr ⟨rfl, .inl rfl⟩
        | cons x q' =>
          obtain ⟨rfl, rfl⟩ := List.cons.inj he
          obtain ⟨r, rfl⟩ := (hall o List.mem_cons_self).eq
          exact .inl ⟨q', rfl, fun y hy => hall y (List.mem_cons_of_mem _ hy), .inr trivial⟩
      · cases he
  | woken p =>
    cases p with
    | connect =>
      simp only [Phase, ho] at h
      exact absurd h.1 hq
    | close =>
      simp only [Phase, ho] at h
      exact absurd h hne
  | connected =>
    simp only [Phase, ho, hoq, Sys.useQueue] at h ⊢
    obtain ⟨r, rfl⟩ := (h.1 o List.mem_cons_self).eq
    exact ⟨fun y hy => h.1 y (List.mem_cons_of_mem _ hy), .inr trivial⟩
  | freeing | freeingHandle | gone =>
    simp only [Phase, ho] at h
    exact absurd h hne

/-- What else holds while the worker is at a request. -/
theorem Phase.busy (h : Phase s) (hne : ¬ s.worker.Exiting) (hw : s.worker ≠ .waiting)
    (hr : s.worker ≠ .replied false) :
    (s.owner = .waiting .connect ∧ s.queue = [] ∧
        ((s.errCode = 0 ∧ s.worker = .serving .open) ∨
          ∃ x, s.worker = .replying .open x ∧ (s.errCode ≠ 0 → x = true))) ∨
      (s.owner = .connected ∧ (∀ o ∈ s.queue, o.IsWork) ∧ s.worker.Working) ∨
      (s.owner = .waiting .close ∧
        ((∃ q, s.queue = q ++ [.close] ∧ (∀ o ∈ q, o.IsWork) ∧ s.worker.Working) ∨
          (s.queue = [] ∧ (s.worker = .serving .close ∨ s.worker = .replying .close true)))) := by
  cases ho : s.owner with
  | absent =>
    simp only [Phase, ho] at h
    exact absurd h.2 hw
  | waiting p =>
    cases p with
    | connect =>
      simp only [Phase, ho] at h
      obtain ⟨-, -, he⟩ | ⟨hc, hq, he⟩ | ⟨hq, hx⟩ := h
      · exact absurd he hw
      · exact .inl ⟨rfl, hq, .inl ⟨hc, he⟩⟩
      · exact .inl ⟨rfl, hq, .inr hx⟩
    | close =>
      simp only [Phase, ho] at h
      refine .inr (.inr ⟨rfl, h.imp_left ?_⟩)
      rintro ⟨q, hq, hall, hwk⟩
      exact ⟨q, hq, hall, hwk.resolve_left hne⟩
  | woken p =>
    cases p with
    | connect =>
      simp only [Phase, ho] at h
      obtain ⟨-, he | ⟨-, he | he⟩⟩ := h
      · exact absurd he hne
      · exact absurd he hr
      · exact absurd he hw
    | close =>
      simp only [Phase, ho] at h
      exact absurd h hne
  | connected =>
    simp only [Phase, ho] at h
    exact .inr (.inl ⟨rfl, h.1, h.2.resolve_left hne⟩)
  | freeing | freeingHandle | gone =>
    simp only [Phase, ho] at h
    exact absurd h hne

/-- A worker on its way out goes on. -/
theorem Phase.leave {w : Worker} (h : Phase s) (he : s.worker.Exiting) (hw : w.Exiting) :
    Phase { s with worker := w } := by
  have hne : ∀ {v : Worker}, ¬ v.Exiting → s.worker ≠ v := fun hv heq => hv (heq ▸ he)
  cases ho : s.owner with
  | absent =>
    simp only [Phase, ho] at h
    exact absurd h.2 (hne id)
  | waiting p =>
    cases p with
    | connect =>
      simp only [Phase, ho] at h
      obtain ⟨-, -, hx⟩ | ⟨-, -, hx⟩ | ⟨-, x, hx, -⟩ := h
      all_goals exact absurd hx (hne id)
    | close =>
      simp only [Phase, ho] at h ⊢
      obtain ⟨q, hq, hall, -⟩ | ⟨-, hx | hx⟩ := h
      · exact .inl ⟨q, hq, hall, .inl hw⟩
      · exact absurd hx (hne id)
      · exact absurd hx (hne id)
  | woken p =>
    cases p with
    | connect =>
      simp only [Phase, ho] at h ⊢
      exact ⟨h.1, .inl hw⟩
    | close => simpa only [Phase, ho] using hw
  | connected =>
    simp only [Phase, ho] at h ⊢
    exact ⟨h.1, .inl hw⟩
  | freeing | freeingHandle | gone => simpa only [Phase, ho] using hw

/-- A worker that stays waits again. -/
theorem Phase.again (h : Phase s) (hw : s.worker = .replied false) :
    Phase { s.useQueue with worker := .waiting } := by
  have hne : ¬ s.worker.Exiting := by rw [hw]; exact id
  cases ho : s.owner with
  | absent =>
    simp only [Phase, ho, hw] at h
    cases h.2
  | waiting p =>
    cases p with
    | connect =>
      simp only [Phase, ho, hw] at h
      obtain ⟨-, -, hx⟩ | ⟨-, -, hx⟩ | ⟨-, x, hx, -⟩ := h
      all_goals cases hx
    | close =>
      simp only [Phase, ho, Sys.useQueue] at h ⊢
      obtain ⟨q, hq, hall, -⟩ | ⟨-, hx | hx⟩ := h
      · exact .inl ⟨q, hq, hall, .inr trivial⟩
      · simp [hw] at hx
      · simp [hw] at hx
  | woken p =>
    cases p with
    | connect =>
      simp only [Phase, ho, Sys.useQueue] at h ⊢
      obtain ⟨hq, hx | ⟨hc, -⟩⟩ := h
      · exact absurd hx hne
      · exact ⟨hq, .inr ⟨hc, .inr trivial⟩⟩
    | close =>
      simp only [Phase, ho] at h
      exact absurd h hne
  | connected =>
    simp only [Phase, ho, Sys.useQueue] at h ⊢
    exact ⟨h.1, .inr trivial⟩
  | freeing | freeingHandle | gone =>
    simp only [Phase, ho] at h
    exact absurd h hne

theorem phase_resume (h : Phase s) {p : Path} (ho : s.owner = .woken p) : Phase s.resume := by
  cases p with
  | connect =>
    by_cases hroom : s.errDesc.length < s.descLen
    · simp only [Phase, ho, Sys.resume, if_pos hroom] at h ⊢
      obtain ⟨hq, hw⟩ := h
      by_cases hc : s.errCode = 0
      · simp only [hc, ne_eq, not_true_eq_false, if_false, hq]
        refine ⟨by simp, hw.imp_right ?_⟩
        rintro ⟨-, hw | hw⟩ <;> rw [hw] <;> trivial
      · simp only [if_pos hc]
        exact hw.resolve_right fun h => hc h.1
    · simpa only [Phase, ho, Sys.resume, if_neg hroom] using h
  | close => simpa only [Phase, ho, Sys.resume] using h

theorem phase_open (h : Phase s) (hw : s.worker = .serving .open) (e : OpenEnd) : Phase (s.apply (.open e)) := by
  obtain ⟨ho, hq, ⟨hc, -⟩ | ⟨x, hx, -⟩⟩ | ⟨-, -, hwk⟩ | ⟨-, ⟨-, -, -, hwk⟩ | ⟨-, hwk | hwk⟩⟩ :=
    h.busy (by rw [hw]; exact id) (by simp [hw]) (by simp [hw])
  · simp only [Phase, Sys.apply, Sys.store, Sys.use, ho, hq]
    refine .inr (.inr ⟨trivial, _, rfl, ?_⟩)
    cases e <;> simp [OpenEnd.run, codes, hc]
  all_goals simp [hw, Worker.Working] at *

theorem phase_work (h : Phase s) {r : Request} (hw : s.worker = .serving (.work r)) (o : Outcome) :
    Phase (s.apply (.work o)) := by
  have ha : s.apply (.work o) = s.store o.writes (.replying (.work r) false) := by
    simp only [Sys.apply, hw]
  rw [ha]
  obtain ⟨-, -, ⟨-, hx⟩ | ⟨x, hx, -⟩⟩ | ⟨ho, hall, -⟩ | ⟨ho, ⟨q, hq, hall, -⟩ | ⟨-, hx | hx⟩⟩ :=
    h.busy (by rw [hw]; exact id) (by simp [hw]) (by simp [hw])
  · simp [hw] at hx
  · simp [hw] at hx
  · simp only [Phase, Sys.store, Sys.use, ho]
    exact ⟨hall, .inr trivial⟩
  · simp only [Phase, Sys.store, Sys.use, ho]
    exact .inl ⟨q, hq, hall, .inr trivial⟩
  · simp [hw] at hx
  · simp [hw] at hx

theorem phase_disconnect (h : Phase s) (hw : s.worker = .serving .close) : Phase (s.apply .disconnect) := by
  obtain ⟨-, -, ⟨-, hx⟩ | ⟨x, hx, -⟩⟩ | ⟨-, -, hx⟩ | ⟨ho, ⟨q, hq, hall, hx⟩ | ⟨hq, -⟩⟩ :=
    h.busy (by rw [hw]; exact id) (by simp [hw]) (by simp [hw])
  · simp [hw] at hx
  · simp [hw] at hx
  · simp [hw, Worker.Working] at hx
  · simp [hw, Worker.Working] at hx
  · simp only [Phase, Sys.apply, Sys.use, ho]
    exact .inr ⟨hq, .inr trivial⟩

theorem phase_reply (h : Phase s) {o : Oper} {x : Bool} (hw : s.worker = .replying o x) : Phase s.reply := by
  have ha : s.reply = { s.wake o with worker := .replied x } := by simp only [Sys.reply, hw]
  rw [ha]
  obtain ⟨ho, hq, ⟨-, hx⟩ | ⟨y, hx, hy⟩⟩ | ⟨ho, hall, hx⟩ | ⟨ho, ⟨q, hq, hall, hx⟩ | ⟨hq, hx | hx⟩⟩ :=
    h.busy (by rw [hw]; exact id) (by simp [hw]) (by simp [hw])
  · simp [hw] at hx
  · obtain ⟨rfl, rfl⟩ : o = .open ∧ x = y := by simpa [hw] using hx
    simp only [Phase, Sys.wake, hq]
    refine ⟨trivial, ?_⟩
    cases x with
    | true => exact .inl trivial
    | false => exact .inr ⟨by simpa using hy, .inl rfl⟩
  · obtain ⟨r, rfl, rfl⟩ : ∃ r, o = .work r ∧ x = false := by
      cases o <;> cases x <;> simp_all [Worker.Working]
    simp only [Phase, Sys.wake, ho]
    exact ⟨hall, .inr trivial⟩
  · obtain ⟨r, rfl, rfl⟩ : ∃ r, o = .work r ∧ x = false := by
      cases o <;> cases x <;> simp_all [Worker.Working]
    simp only [Phase, Sys.wake, ho]
    exact .inl ⟨q, hq, hall, .inr trivial⟩
  · simp [hw] at hx
  · obtain ⟨rfl, rfl⟩ : o = .close ∧ x = true := by simpa [hw] using hx
    simp only [Phase, Sys.wake]
    trivial

theorem phase_test (h : Phase s) {x : Bool} (hw : s.worker = .replied x) : Phase s.test := by
  cases x with
  | true =>
    have ha : s.test = { s with worker := .leaving } := by simp only [Sys.test, hw]
    rw [ha]
    exact h.leave (by rw [hw]; trivial) trivial
  | false =>
    have ha : s.test = { s.useQueue with worker := .waiting } := by simp only [Sys.test, hw]
    rw [ha]
    exact h.again hw

theorem phase_step (h : Phase s) (he : s.Enabled a) : Phase (s.apply a) := by
  cases a with
  | connect n =>
    have ho : s.owner = .absent := he
    simp only [Phase, ho] at h
    exact .inl ⟨rfl, rfl, h.2⟩
  | post r =>
    have ho : s.owner = .connected := he
    simp only [Phase, ho, Sys.apply] at h ⊢
    refine ⟨fun o hm => ?_, h.2⟩
    rcases List.mem_append.1 hm with hm | hm
    · exact h.1 o hm
    · obtain rfl := List.mem_singleton.1 hm
      trivial
  | close =>
    have ho : s.owner = .connected := he
    simp only [Phase, ho, Sys.apply] at h ⊢
    exact .inl ⟨s.queue, rfl, h.1, h.2⟩
  | resume =>
    obtain ⟨p, ho⟩ := he
    exact phase_resume h ho
  | deleteQueue =>
    obtain ⟨p, ho⟩ := he
    simpa only [Phase, ho, Sys.apply, Sys.deleteQueue] using h
  | freeHandle =>
    obtain ⟨p, ho⟩ := he
    simpa only [Phase, ho, Sys.apply, Sys.freeHandle] using h
  | take => exact phase_take h he.1 he.2
  | «open» e => exact phase_open h he e
  | work o =>
    obtain ⟨r, hw, -⟩ := he
    exact phase_work h hw o
  | disconnect => exact phase_disconnect h he
  | reply =>
    obtain ⟨o, x, hw⟩ := he
    exact phase_reply h hw
  | test =>
    obtain ⟨x, hw⟩ := he
    exact phase_test h hw
  | destroy =>
    have hw : s.worker = .leaving := he
    exact Phase.leave (s := s.use) h (by rw [Sys.use, hw]; trivial) trivial

/-- **Who is where**, in every state. -/
theorem phase_reach (h : ReachVia machine ok s) : Phase s := by
  refine h.invariant (I := Phase) ?_ ?_
  · rintro s rfl
    exact ⟨rfl, rfl⟩
  · rintro s a hs ⟨-, he⟩ -
    exact phase_step hs he

end StNvs.Db.Lifetime
