import StNvs.Db.Lifetime

/-! # A handle that is out has a worker

`st_db_connect` goes by the error code, and `db_server` by what `Open` returns. `Open` sets both when it
succeeds and when there is a `_com_error`; when one of the calls of `CreateInstance` fails, it returns
`false` and leaves the code 0, so that the caller gets a handle whose worker leaves its loop. And the
description of a `_com_error` has to fit, first in the handle and then in the caller's buffer: the program
ends where it does not.

* `opening_step`: what the two know of the end of `Open`, until the handle is out or freed.
* `connect_right`: a connected handle has a worker, just when `CreateInstance` does not fail and every
  description fits. -/

namespace StNvs.Db.Connection

open StNvs.Lib.Runs StNvs.Db.Lifetime
open StNvs.Db.Server (Outcome Request Write codes descs handleErr)

/-- How `Open` ends, `desc_len`, and how the statements may go. -/
structure Setting where
  openEnd : OpenEnd
  descLen : ℕ
  outcomes : Outcome → Prop

/-- `Open` comes to its end without a failure of `CreateInstance`, and what it says fits; so does what the
statements say, if there can be any. -/
def Setting.Good (c : Setting) : Prop :=
  match c.openEnd with
  | .opened => 0 < c.descLen ∧ ∀ o, c.outcomes o → ∀ w ∈ o.writes, w.Fits
  | .failed e => (Write.desc e.description).Fits ∧ e.description.length < c.descLen
  | .noConnection | .noRecordset => False

/-- Things go so, as far as they do. -/
def Meets (c : Setting) (_ : Sys) : Step → Prop
  | .connect n => n = c.descLen
  | .open e => e = c.openEnd
  | .work o => c.outcomes o
  | .post _ | .close | .resume | .deleteQueue | .freeHandle | .take | .disconnect | .reply | .test
  | .destroy => True

/-- The program goes on. A handle that is out is one that was opened, and its worker is in the loop; where
`st_db_connect` returns `NULL`, it was not opened, and the error code says so. -/
structure Right (s : Sys) : Prop where
  goes : s.aborted = false
  handle : s.owner = .connected → s.openEnd = some .opened
  live : s.owner = .connected → s.worker.Working
  null : s.owner = .gone .connect → (∃ e, s.openEnd = some e ∧ e ≠ .opened) ∧ s.out ≠ 0

/-- The error code that `Open` leaves. -/
def Setting.code (c : Setting) : ℤ := ((codes c.openEnd.run.2).getLast?).getD 0

/-- The description that `Open` leaves. -/
def Setting.desc (c : Setting) : String := ((descs c.openEnd.run.2).getLast?).getD ""

/-- What is known of the end of `Open`. -/
def Opening (c : Setting) (s : Sys) : Prop :=
  match s.owner with
  | .absent => s.errDesc = ""
  | .waiting .connect => s.descLen = c.descLen ∧
      ((s.errDesc = "" ∧ (s.worker = .waiting ∨ s.worker = .serving .open)) ∨
        (s.worker = .replying .open !c.openEnd.run.1 ∧ s.openEnd = some c.openEnd ∧ s.errCode = c.code ∧
          s.errDesc = c.desc))
  | .woken .connect => s.openEnd = some c.openEnd ∧ s.errDesc.length < s.descLen ∧
      ((c.openEnd = .opened ∧ s.errCode = 0 ∧ s.worker.Working) ∨ (c.openEnd ≠ .opened ∧ s.errCode ≠ 0))
  | .connected => s.openEnd = some c.openEnd ∧ c.openEnd = .opened ∧ s.worker.Working
  | .freeing .connect | .freeingHandle .connect | .gone .connect =>
    s.openEnd = some c.openEnd ∧ c.openEnd ≠ .opened ∧ s.out ≠ 0
  | .waiting .close => c.openEnd = .opened
  | .woken .close | .freeing .close | .freeingHandle .close | .gone .close => True

variable {c : Setting} {s : Sys} {a : Step} {e : OpenEnd}

/-! ### What `Open` leaves -/

theorem Setting.Good.fits (h : c.Good) : ∀ w ∈ c.openEnd.run.2, w.Fits := by
  unfold Setting.Good at h
  cases he : c.openEnd with
  | opened => simp [OpenEnd.run]
  | failed e =>
    simp only [he] at h
    exact List.forall_mem_cons.mpr ⟨trivial, List.forall_mem_singleton.mpr h.1⟩
  | noConnection | noRecordset => simp [he] at h

theorem Setting.Good.desc_lt (h : c.Good) : c.desc.length < c.descLen := by
  unfold Setting.Good at h
  unfold Setting.desc
  cases he : c.openEnd with
  | opened =>
    simp only [he] at h
    simpa [OpenEnd.run, descs] using h.1
  | failed e =>
    simp only [he] at h
    simpa [OpenEnd.run, handleErr, descs] using h.2
  | noConnection | noRecordset => simp [he] at h

/-- What `Open` returns and the code it leaves agree. -/
theorem Setting.Good.agree (h : c.Good) :
    (c.openEnd = .opened ∧ c.code = 0 ∧ c.openEnd.run.1 = true) ∨ (c.openEnd ≠ .opened ∧ c.code ≠ 0) := by
  unfold Setting.Good at h
  unfold Setting.code
  cases he : c.openEnd with
  | opened => exact .inl ⟨rfl, rfl, rfl⟩
  | failed e => exact .inr ⟨nofun, e.failed.ne⟩
  | noConnection | noRecordset => simp [he] at h

/-- A statement can go so. -/
theorem Setting.Good.outcome (h : c.Good) (ho : c.openEnd = .opened) {o : Outcome} (hc : c.outcomes o) :
    ∀ w ∈ o.writes, w.Fits := by
  unfold Setting.Good at h
  rw [ho] at h
  exact h.2 o hc

/-! ### The steps -/

/-- While `DB_OPEN` is under way the worker is at nothing else. -/
theorem worker_of_connecting (h : Phase s) (ho : s.owner = .waiting .connect) :
    s.worker = .waiting ∨ s.worker = .serving .open ∨ ∃ x, s.worker = .replying .open x := by
  simp only [Phase, ho] at h
  obtain ⟨-, -, hw⟩ | ⟨-, -, hw⟩ | ⟨-, x, hw, -⟩ := h
  · exact .inl hw
  · exact .inr (.inl hw)
  · exact .inr (.inr ⟨x, hw⟩)

theorem not_connecting (h : Phase s) (hw : s.worker ≠ .waiting) (ho : s.worker ≠ .serving .open)
    (hr : ∀ x, s.worker ≠ .replying .open x) : s.owner ≠ .waiting .connect := fun hs => by
  obtain hx | hx | ⟨x, hx⟩ := worker_of_connecting h hs
  · exact hw hx
  · exact ho hx
  · exact hr x hx

/-- A step of the worker after `DB_OPEN`. -/
theorem Opening.working (h : Opening c s) {s' : Sys} (ho : s'.owner = s.owner) (he : s'.openEnd = s.openEnd)
    (hout : s'.out = s.out) (hne : s.owner ≠ .waiting .connect)
    (hc : s.owner = .absent ∨ s.owner = .woken .connect →
      s'.errCode = s.errCode ∧ s'.errDesc = s.errDesc ∧ s'.descLen = s.descLen)
    (hw : s.owner = .woken .connect ∨ s.owner = .connected → s.worker.Working → s'.worker.Working) :
    Opening c s' := by
  unfold Opening at h ⊢
  rw [ho, he, hout]
  split
  · rename_i ha
    rw [ha] at h
    rw [(hc (.inl ha)).2.1]
    exact h
  · rename_i ha
    exact absurd ha hne
  · rename_i hwk
    rw [hwk] at h
    obtain ⟨h1, h2, h3⟩ := hc (.inr hwk)
    rw [h1, h2, h3]
    exact ⟨h.1, h.2.1, h.2.2.imp_left fun h => ⟨h.1, h.2.1, hw (.inl hwk) h.2.2⟩⟩
  · rename_i hwk
    rw [hwk] at h
    exact ⟨h.1, h.2.1, hw (.inr hwk) h.2.2⟩
  all_goals
    rename_i hwk
    rw [hwk] at h
    exact h

theorem opening_resume (h : Opening c s) {p : Path} (ho : s.owner = .woken p) : Opening c s.resume := by
  cases p with
  | connect =>
    simp only [Opening, ho] at h
    obtain ⟨hopen, hlt, ⟨he, hc, hw⟩ | ⟨he, hc⟩⟩ := h
    · simp only [Opening, Sys.resume, ho, if_pos hlt, hc, ne_eq, not_true_eq_false, if_false]
      exact ⟨hopen, he, hw⟩
    · simp only [Opening, Sys.resume, ho, if_pos hlt, if_pos hc]
      exact ⟨hopen, he, hc⟩
  | close => simp only [Opening, Sys.resume, ho]

theorem opening_take (h : Opening c s) (hp : Phase s) (hw : s.worker = .waiting) (hq : s.queue ≠ []) :
    Opening c s.take := by
  obtain ⟨o, q, hoq⟩ := List.exists_cons_of_ne_nil hq
  have ht : s.take = { s.useQueue with queue := q, worker := .serving o } := by
    unfold Sys.take
    rw [hoq]
  rw [ht]
  by_cases ho : s.owner = .waiting .connect
  · -- the only request is the first one
    simp only [Opening, Phase, ho, hoq, hw, Sys.useQueue] at h hp ⊢
    refine ⟨h.1, .inl ?_⟩
    obtain ⟨-, hx, -⟩ | ⟨-, hx, -⟩ | ⟨hx, -⟩ := hp
    · obtain ⟨rfl, rfl⟩ := List.cons.inj hx
      obtain ⟨hd, -⟩ | ⟨hx, -⟩ := h.2
      · exact ⟨hd, .inr rfl⟩
      · cases hx
    · cases hx
    · cases hx
  · refine h.working rfl rfl rfl ho (fun _ => ⟨rfl, rfl, rfl⟩) fun ho _ => ?_
    -- a request that is taken while the handle is out is one of a state thread
    rcases ho with ho | ho <;> simp only [Phase, ho] at hp
    · exact absurd hp.1 hq
    · obtain ⟨r, rfl⟩ := (hp.1 o (by rw [hoq]; exact List.mem_cons_self)).eq
      trivial

/-- While a statement is under way, the handle is open. -/
theorem opened_of_work (h : Opening c s) (hp : Phase s) {r : Request} (hw : s.worker = .serving (.work r)) :
    c.openEnd = .opened ∧ (s.owner = .connected ∨ s.owner = .waiting .close) := by
  obtain ⟨ho, -, ⟨-, hx⟩ | ⟨x, hx, -⟩⟩ | ⟨ho, -, -⟩ | ⟨ho, -⟩ :=
    hp.busy (by rw [hw]; exact id) (by rw [hw]; rintro ⟨⟩) (by rw [hw]; rintro ⟨⟩)
  · simp [hw] at hx
  · simp [hw] at hx
  · simp only [Opening, ho] at h
    exact ⟨h.2.1, .inl ho⟩
  · simp only [Opening, ho] at h
    exact ⟨h, .inr ho⟩

theorem opening_open (h : Opening c s) (hp : Phase s) (hw : s.worker = .serving .open) :
    Opening c (s.apply (.open c.openEnd)) := by
  obtain ⟨ho, -, ⟨hc, -⟩ | ⟨x, hx, -⟩⟩ | ⟨-, -, hx⟩ | ⟨-, ⟨-, -, -, hx⟩ | ⟨-, hx | hx⟩⟩ :=
    hp.busy (by rw [hw]; exact id) (by rw [hw]; rintro ⟨⟩) (by rw [hw]; rintro ⟨⟩)
  · simp only [Opening, Sys.apply, Sys.store, Sys.use, ho, hw] at h ⊢
    obtain ⟨hlen, ⟨hd, -⟩ | ⟨hx, -⟩⟩ := h
    · exact ⟨hlen, .inr ⟨trivial, trivial, by rw [hc]; rfl, by rw [hd]; rfl⟩⟩
    · cases hx
  all_goals simp [hw, Worker.Working] at hx

theorem opening_reply (hg : c.Good) (h : Opening c s) (hp : Phase s) {o : Oper} {x : Bool}
    (hw : s.worker = .replying o x) : Opening c s.reply := by
  have ha : s.reply = { s.wake o with worker := .replied x } := by simp only [Sys.reply, hw]
  rw [ha]
  cases o with
  | «open» =>
    obtain ⟨ho, -, ⟨-, hx⟩ | -⟩ | ⟨-, -, hx⟩ | ⟨-, ⟨-, -, -, hx⟩ | ⟨-, hx | hx⟩⟩ :=
      hp.busy (by rw [hw]; exact id) (by rw [hw]; rintro ⟨⟩) (by rw [hw]; rintro ⟨⟩)
    · simp [hw] at hx
    · simp only [Opening, ho] at h
      obtain ⟨hlen, ⟨-, hx | hx⟩ | ⟨hx, hopen, hc, hd⟩⟩ := h
      · simp [hw] at hx
      · simp [hw] at hx
      · obtain rfl : x = !c.openEnd.run.1 := by simpa [hw] using hx
        simp only [Opening, Sys.wake, hc, hd, hlen]
        refine ⟨hopen, hg.desc_lt, ?_⟩
        obtain ⟨he, hc, hr⟩ | hne := hg.agree
        · exact .inl ⟨he, hc, by rw [hr]; trivial⟩
        · exact .inr hne
    all_goals simp [hw, Worker.Working] at hx
  | work r =>
    refine h.working rfl rfl rfl (fun ho => ?_) (fun _ => ⟨rfl, rfl, rfl⟩) fun _ hx => ?_
    · have := worker_of_connecting hp ho
      simp [hw] at this
    · rw [hw] at hx
      cases x with
      | true => exact hx.elim
      | false => trivial
  | close => trivial

theorem opening_work (h : Opening c s) (hp : Phase s) {r : Request} (hw : s.worker = .serving (.work r))
    (o : Outcome) : Opening c (s.apply (.work o)) := by
  obtain ⟨-, ho⟩ := opened_of_work h hp hw
  have ha : s.apply (.work o) = s.store o.writes (.replying (.work r) false) := by
    simp only [Sys.apply, hw]
  rw [ha]
  refine h.working rfl rfl rfl ?_ (fun hx => ?_) fun _ _ => trivial
  · rcases ho with ho | ho <;> simp [ho]
  · rcases ho with ho | ho <;> simp [ho] at hx

/-- A step of a worker that is out of its loop, or about to be. -/
theorem Opening.leaving (h : Opening c s) (hp : Phase s) (hw : ¬ s.worker.Working) (hs : s.worker ≠ .serving .open)
    (hr : ∀ x, s.worker ≠ .replying .open x) {s' : Sys} (ho : s'.owner = s.owner) (he : s'.openEnd = s.openEnd)
    (hout : s'.out = s.out) (hc : s'.errCode = s.errCode) (hd : s'.errDesc = s.errDesc)
    (hl : s'.descLen = s.descLen) : Opening c s' := by
  have hwait : s.worker ≠ .waiting := fun hx => hw (by rw [hx]; trivial)
  exact h.working ho he hout (not_connecting hp hwait hs hr) (fun _ => ⟨hc, hd, hl⟩) fun _ hx => absurd hx hw

theorem opening_test (h : Opening c s) (hp : Phase s) {x : Bool} (hw : s.worker = .replied x) :
    Opening c s.test := by
  cases x with
  | true =>
    have ha : s.test = { s with worker := .leaving } := by simp only [Sys.test, hw]
    rw [ha]
    exact h.leaving hp (by rw [hw]; exact id) (by simp [hw]) (by simp [hw]) rfl rfl rfl rfl rfl rfl
  | false =>
    have ha : s.test = { s.useQueue with worker := .waiting } := by simp only [Sys.test, hw]
    rw [ha]
    exact h.working rfl rfl rfl (not_connecting hp (by simp [hw]) (by simp [hw]) (by simp [hw]))
      (fun _ => ⟨rfl, rfl, rfl⟩) fun _ _ => trivial

theorem opening_step (hg : c.Good) (h : Opening c s) (hp : Phase s) (he : s.Enabled a) (hok : Meets c s a) :
    Opening c (s.apply a) := by
  cases a with
  | connect n =>
    obtain rfl : n = c.descLen := hok
    have ho : s.owner = .absent := he
    simp only [Phase, Opening, ho] at hp h
    exact ⟨rfl, .inl ⟨h, .inl hp.2⟩⟩
  | post r =>
    have ho : s.owner = .connected := he
    simpa only [Opening, Sys.apply, ho] using h
  | close =>
    have ho : s.owner = .connected := he
    simp only [Opening, ho] at h
    exact h.2.1
  | resume =>
    obtain ⟨p, ho⟩ := he
    exact opening_resume h ho
  | deleteQueue =>
    obtain ⟨p, ho⟩ := he
    cases p with
    | connect => simpa only [Opening, Sys.apply, Sys.deleteQueue, ho] using h
    | close => simp only [Opening, Sys.apply, Sys.deleteQueue, ho]
  | freeHandle =>
    obtain ⟨p, ho⟩ := he
    cases p with
    | connect => simpa only [Opening, Sys.apply, Sys.freeHandle, ho] using h
    | close => simp only [Opening, Sys.apply, Sys.freeHandle, ho]
  | take => exact opening_take h hp he.1 he.2
  | «open» e =>
    obtain rfl : e = c.openEnd := hok
    exact opening_open h hp he
  | work o =>
    obtain ⟨r, hw, -⟩ := he
    exact opening_work h hp hw o
  | disconnect =>
    have hw : s.worker = .serving .close := he
    exact h.leaving hp (by rw [hw]; exact id) (by simp [hw]) (by simp [hw]) rfl rfl rfl rfl rfl rfl
  | reply =>
    obtain ⟨o, x, hw⟩ := he
    exact opening_reply hg h hp hw
  | test =>
    obtain ⟨x, hw⟩ := he
    exact opening_test h hp hw
  | destroy =>
    have hw : s.worker = .leaving := he
    exact h.leaving hp (by rw [hw]; exact id) (by simp [hw]) (by simp [hw]) rfl rfl rfl rfl rfl rfl

/-- The program ends only at a description that does not fit. -/
theorem goes_step (hg : c.Good) (h : Opening c s) (hp : Phase s) (hs : s.aborted = false) (he : s.Enabled a)
    (hok : Meets c s a) : (s.apply a).aborted = false := by
  cases a with
  | «open» e =>
    obtain rfl : e = c.openEnd := hok
    simpa [Sys.apply, Sys.store] using hg.fits
  | work o =>
    obtain ⟨r, hw, -⟩ := he
    have hf := hg.outcome (opened_of_work h hp hw).1 hok
    simpa [Sys.apply, hw, Sys.store] using hf
  | resume =>
    obtain ⟨p, ho⟩ := he
    cases p with
    | connect =>
      simp only [Opening, ho] at h
      simpa only [Sys.apply, Sys.resume, ho, if_pos h.2.1] using hs
    | close => simpa only [Sys.apply, Sys.resume, ho] using hs
  | deleteQueue =>
    obtain ⟨p, ho⟩ := he
    simpa only [Sys.apply, Sys.deleteQueue, ho] using hs
  | freeHandle =>
    obtain ⟨p, ho⟩ := he
    simpa only [Sys.apply, Sys.freeHandle, ho] using hs
  | take =>
    obtain ⟨o, q, hoq⟩ := List.exists_cons_of_ne_nil he.2
    simpa only [Sys.apply, Sys.take, hoq, Sys.useQueue] using hs
  | reply =>
    obtain ⟨o, x, hw⟩ := he
    cases o <;> simpa only [Sys.apply, Sys.reply, hw, Sys.wake] using hs
  | test =>
    obtain ⟨x, hw⟩ := he
    cases x <;> simpa only [Sys.apply, Sys.test, hw, Sys.useQueue] using hs
  | connect | post | close | disconnect | destroy => exact hs

/-- When `CreateInstance` does not fail and what is said fits, the two agree. -/
theorem right_of_good (h : ReachVia machine (Meets c) s) (hg : c.Good) : Right s := by
  have ho : s.aborted = false ∧ Opening c s := by
    refine h.invariant_of (I := Phase) (J := fun s => s.aborted = false ∧ Opening c s)
      (fun _ => phase_reach) ?_ ?_
    · rintro s rfl
      exact ⟨rfl, rfl⟩
    · rintro s a hp ⟨hs, hopen⟩ ⟨-, he⟩ hok
      exact ⟨goes_step hg hopen hp hs he hok, opening_step hg hopen hp he hok⟩
  obtain ⟨hs, ho⟩ := ho
  unfold Opening at ho
  refine ⟨hs, fun hs => ?_, fun hs => ?_, fun hs => ?_⟩ <;> rw [hs] at ho
  · rw [ho.1, ho.2.1]
  · exact ho.2.2
  · exact ⟨⟨_, ho.1, ho.2.1⟩, ho.2.2⟩

/-! ### Where it goes wrong -/

/-- `st_db_connect` up to the end of `Open`. -/
def openRun (c : Setting) : List Step := [.connect c.descLen, .take, .open c.openEnd]

theorem opened_reach (c : Setting) :
    ReachVia machine (Meets c) ((openRun c).foldl machine.apply Sys.start) :=
  (ReachVia.init rfl).foldl (openRun c)
    ⟨⟨⟨rfl, rfl⟩, rfl⟩, ⟨⟨rfl, rfl, nofun⟩, trivial⟩, ⟨⟨rfl, rfl⟩, rfl⟩, trivial⟩

/-- What `Open` says fits, if the program goes on. -/
theorem fits_of_right (h : ∀ s, ReachVia machine (Meets c) s → Right s) : ∀ w ∈ c.openEnd.run.2, w.Fits := by
  have hs := (h _ (opened_reach c)).goes
  simpa [openRun, machine, Sys.apply, Sys.store] using hs

/-- The handle when the thread that connects has been handed back. -/
def answered (c : Setting) : Sys :=
  { Sys.start with
    errCode := c.code, errDesc := c.desc, worker := .replied !c.openEnd.run.1, owner := .woken .connect
    descLen := c.descLen, openEnd := some c.openEnd }

theorem answered_reach (hfit : ∀ w ∈ c.openEnd.run.2, w.Fits) : ReachVia machine (Meets c) (answered c) := by
  have hover : decide (¬ ∀ w ∈ c.openEnd.run.2, w.Fits) = false := by simpa using hfit
  have hr := (opened_reach c).step (a := Step.reply) ⟨hover, _, _, rfl⟩ trivial
  have he : machine.apply ((openRun c).foldl machine.apply Sys.start) .reply =
      { answered c with aborted := decide ¬ ∀ w ∈ c.openEnd.run.2, w.Fits } := rfl
  rw [he, hover] at hr
  exact hr

/-- And there is room for it. -/
theorem desc_of_right (h : ∀ s, ReachVia machine (Meets c) s → Right s) : c.desc.length < c.descLen := by
  by_contra hlt
  have hr := (answered_reach (fits_of_right h)).step (a := Step.resume) ⟨rfl, _, rfl⟩ trivial
  have he : machine.apply (answered c) .resume = { answered c with out := c.code, aborted := true } :=
    if_neg hlt
  have hgo := (h _ hr).goes
  rw [he] at hgo
  cases hgo

/-- With the code 0 the handle is out. -/
theorem connected_reach (h : ∀ s, ReachVia machine (Meets c) s → Right s) (hc : c.code = 0) :
    ReachVia machine (Meets c) { answered c with out := 0, owner := .connected } := by
  have hr := (answered_reach (fits_of_right h)).step (a := Step.resume) ⟨rfl, _, rfl⟩ trivial
  have he : machine.apply (answered c) .resume = { answered c with
      out := c.code, owner := if c.code ≠ 0 then .freeing .connect else .connected } :=
    if_pos (desc_of_right h)
  rw [he, if_neg (not_not.mpr hc), hc] at hr
  exact hr

/-- And a statement may go in any of its ways. -/
theorem outcomes_of_right (h : ∀ s, ReachVia machine (Meets c) s → Right s) (he : c.openEnd = .opened)
    {o : Outcome} (ho : c.outcomes o) : ∀ w ∈ o.writes, w.Fits := by
  have hc : c.code = 0 := by rw [Setting.code, he]; rfl
  have hw : (!c.openEnd.run.1) = false := by rw [he]; rfl
  have hr := connected_reach h hc
  rw [answered, hw] at hr
  have hr := hr.foldl [.test, .post ⟨0, o.event, ""⟩, .take, .work o]
    ⟨⟨⟨rfl, _, rfl⟩, trivial⟩, ⟨⟨rfl, rfl⟩, trivial⟩, ⟨⟨rfl, rfl, nofun⟩, trivial⟩,
      ⟨⟨rfl, _, rfl, rfl⟩, ho⟩, trivial⟩
  have hgo : decide (¬ ∀ w ∈ o.writes, w.Fits) = false := (h _ hr).goes
  simpa using hgo

/-- **A connected handle has a worker**, in every run, just when `CreateInstance` does not fail and every
description fits. -/
theorem connect_right (c : Setting) : (∀ s, ReachVia machine (Meets c) s → Right s) ↔ c.Good := by
  refine ⟨fun h => ?_, fun hg s hs => right_of_good hs hg⟩
  have hfit := fits_of_right h
  have hdesc := desc_of_right h
  have hout (hc : c.code = 0) : some c.openEnd = some .opened := (h _ (connected_reach h hc)).handle rfl
  unfold Setting.Good
  unfold Setting.desc at hdesc
  cases he : c.openEnd with
  | opened =>
    rw [he] at hdesc
    exact ⟨hdesc, fun o ho => outcomes_of_right h he ho⟩
  | failed e =>
    rw [he] at hfit hdesc
    exact ⟨hfit (.desc e.description) (List.mem_cons_of_mem _ List.mem_cons_self), hdesc⟩
  | noConnection | noRecordset =>
    have hx := hout (by rw [Setting.code, he]; rfl)
    rw [he] at hx
    cases hx

/-- `CreateInstance` fails, and the caller looks at the code. -/
def connectRun : List Step := [.connect 128, .take, .open .noConnection, .reply, .test, .resume]

/-- **A handle without a worker**: `CreateInstance` fails, the program goes on, and the handle is out. -/
theorem not_connect_right : ¬ ∀ s, Reach machine s → s.aborted = false → Right s := fun h => by
  have hs : Reach machine Sys.start := .init rfl
  have hr := (h _ (hs.foldl connectRun (by decide +kernel)) (by decide +kernel)).live (by decide +kernel)
  have hw : (connectRun.foldl machine.apply Sys.start).worker = .leaving := by decide +kernel
  rw [hw] at hr
  exact hr

end StNvs.Db.Connection
