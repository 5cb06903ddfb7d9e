import StNvs.Sync.Database

/-! # What a session reports

The loop of `HandleSessionTask` against any outcomes of its calls: the `n`-th call returns `reply n`. The
run-time library ends the program when a text does not fit, and when `WriteToLog` is passed an object.

* `session_iff`: a session reports what happened just when all its texts fit, no update of a name fails and,
  where the user to be created could not be looked up, the insert fails too. -/

namespace StNvs.Sync.Session

open StNvs.Lib.Programs StNvs.Sync.Parse StNvs.Sync.Packet StNvs.Sync.Statements StNvs.Sync.Database

/-- The text of the statement fits its buffers. -/
def Fits (st : Statement) : Prop := st.stored.isSome

instance (st : Statement) : Decidable (Fits st) := inferInstanceAs (Decidable (_ = _))

/-- `n` calls have been made. -/
def serve (reply : ℕ → Reply) : Call → ℕ → Option (Reply × ℕ)
  | .query st, n | .exec st, n => if Fits st then some (reply n, n + 1) else none
  | .fetch _, n => some (reply n, n + 1)
  | .crash, _ => none

abbrev Log := List (Call × Reply)

/-- An entry of the result vector agrees with the record and with what was done for it. -/
structure Agrees (data : SyncPlatformData) (result : SyncPlatformDataResult) (log : Log) : Prop where
  serialNumber : result.serialNumber = data.serialNumber
  userState : result.userState = data.custState
  errCode : result.errCode = "0" ↔
    (data.custState = "0101" ∨ data.custState = "0102" ∨ data.custState = "0103") ∧
      ∃ st r, (Call.exec st, r) ∈ log ∧ r.code = 0

/-- The session comes to its end, and its result vector has one entry for each record, in order, that
agrees with what was done for the record. -/
def Right (reply : ℕ → Reply) (records : List (SyncPlatformData × Tm)) : Prop :=
  ∃ done n, Prog.runEach (serve reply) handleRecord records 0 = some (done, n) ∧
    (handleSessionTask records).run (serve reply) 0 = some (done.map Prod.fst, (done.map Prod.snd).flatten, n) ∧
    List.Forall₂ (fun x y => Agrees x.1 y.1 y.2) records done

/-! ### The condition -/

section

variable (reply : ℕ → Reply)

/-- What a lookup that begins with the `n`-th call returns. -/
def found (n : ℕ) (old : String) : Bool × String :=
  if (reply n).code ≠ 0 ∨ (reply (n + 1)).code ≠ 0 then (false, old)
  else match (reply (n + 1)).rows with
    | [row] => (true, narrow row)
    | _ => (true, old)

/-- The number of the call after a lookup. -/
def after (n : ℕ) : ℕ := if (reply n).code ≠ 0 then n + 1 else n + 2

/-- The number of the call after a record. -/
def next (data : SyncPlatformData) (n : ℕ) : ℕ :=
  if data.custState = "0101" then
    if (found reply n "").2 = "0103" then after reply (after reply n) + 1 else after reply n + 1
  else if data.custState = "0102" then n + 1
  else if data.custState = "0103" then after reply n + 1
  else n

/-- The texts built for a record fit; a user that could not be looked up is not inserted either; and the
update of a name succeeds. -/
def Good (x : SyncPlatformData × Tm) (n : ℕ) : Prop :=
  if x.1.custState = "0101" then
    Fits (.selectUserState x.1.custAccunt) ∧
      if (found reply n "").2 = "0103" then
        Fits (.selectPlatLoginName x.1.custName) ∧ Fits (.updateUserState x.1)
      else Fits (.insertUser x.1 x.2) ∧ ((found reply n "").1 = false → (reply (after reply n)).code ≠ 0)
  else if x.1.custState = "0102" then Fits (.updateUserName x.1) ∧ (reply n).code = 0
  else if x.1.custState = "0103" then Fits (.selectPlatLoginName x.1.custName) ∧ Fits (.updateUserState x.1)
  else True

/-- So it is for each record. -/
def AllGood : List (SyncPlatformData × Tm) → ℕ → Prop
  | [], _ => True
  | x :: records, n => Good reply x n ∧ AllGood records (next reply x.1 n)

end

variable {reply : ℕ → Reply} {n m : ℕ} {st : Statement} {data : SyncPlatformData} {tm : Tm}
  {result : SyncPlatformDataResult} {α : Type}

/-! ### The calls of an operation -/

theorem run_query {k : Reply → Prog Call Reply α} (h : Fits st) : (Prog.call (.query st) k).run (serve reply) n =
    ((k (reply n)).run (serve reply) (n + 1)).map fun y => (y.1, (.query st, reply n) :: y.2.1, y.2.2) :=
  Prog.run_call (if_pos h)

theorem run_exec {k : Reply → Prog Call Reply α} (h : Fits st) : (Prog.call (.exec st) k).run (serve reply) n =
    ((k (reply n)).run (serve reply) (n + 1)).map fun y => (y.1, (.exec st, reply n) :: y.2.1, y.2.2) :=
  Prog.run_call (if_pos h)

theorem run_query_none {k : Reply → Prog Call Reply α} (h : ¬ Fits st) :
    (Prog.call (.query st) k).run (serve reply) n = none := Prog.run_call_none (if_neg h)

theorem run_exec_none {k : Reply → Prog Call Reply α} (h : ¬ Fits st) :
    (Prog.call (.exec st) k).run (serve reply) n = none := Prog.run_call_none (if_neg h)

theorem run_fetch {k : Reply → Prog Call Reply α} {item : String} : (Prog.call (.fetch item) k).run (serve reply) n =
    ((k (reply n)).run (serve reply) (n + 1)).map fun y => (y.1, (.fetch item, reply n) :: y.2.1, y.2.2) :=
  Prog.run_call rfl

/-- No statement is executed. -/
def Reads (log : Log) : Prop := ∀ x ∈ log, ∀ st, x.1 ≠ .exec st

/-- One statement is executed, with this reply, as the last call. -/
def Writes (log : Log) (e : Reply) : Prop := ∃ l st, log = l ++ [(.exec st, e)] ∧ Reads l

theorem Reads.append_writes {l log : Log} {e : Reply} (hl : Reads l) (h : Writes log e) : Writes (l ++ log) e := by
  obtain ⟨l', st, rfl, hl'⟩ := h
  refine ⟨l ++ l', st, by rw [List.append_assoc], fun x hx => ?_⟩
  exact (List.mem_append.1 hx).elim (hl x) (hl' x)

theorem Writes.iff {log : Log} {e : Reply} (h : Writes log e) :
    (∃ st r, (Call.exec st, r) ∈ log ∧ r.code = 0) ↔ e.code = 0 := by
  obtain ⟨l, st, rfl, hl⟩ := h
  constructor
  · rintro ⟨st', r, hmem, hr⟩
    rcases List.mem_append.1 hmem with hmem | hmem
    · exact absurd rfl (hl _ hmem st')
    · obtain ⟨-, rfl⟩ := Prod.mk.inj (List.mem_singleton.1 hmem)
      exact hr
  · exact fun he => ⟨st, e, List.mem_append_right _ List.mem_cons_self, he⟩

/-- What a lookup does. -/
theorem run_lookup (reply : ℕ → Reply) (n : ℕ) (h : Fits st) (item old : String) :
    ∃ log, (lookup st item old).run (serve reply) n = some (found reply n old, log, after reply n) ∧ Reads log := by
  unfold lookup found after
  simp only [Prog.bind_eq, Prog.ask_bind, run_query h]
  by_cases hq : (reply n).code = 0
  · by_cases hf : (reply (n + 1)).code = 0
    · refine ⟨[(.query st, reply n), (.fetch item, reply (n + 1))], ?_, by simp [Reads]⟩
      simp only [hq, hf, ne_eq, not_true_eq_false, if_false, run_fetch, or_self]
      split <;> simp_all
    · refine ⟨[(.query st, reply n), (.fetch item, reply (n + 1))], ?_, by simp [Reads]⟩
      simp [hq, hf, run_fetch]
  · exact ⟨[(.query st, reply n)], by simp [hq], by simp [Reads]⟩

theorem run_lookup_none (h : ¬ Fits st) (item old : String) : (lookup st item old).run (serve reply) n = none :=
  run_query_none h

/-! ### The operations -/

/-- An operation that executes one statement, the last call of it: what it returns, and what it leaves in
the result. -/
def Operates (reply : ℕ → Reply) (p : Prog Call Reply (Bool × SyncPlatformDataResult))
    (result : SyncPlatformDataResult) (n m : ℕ) (ok : Bool) : Prop :=
  ∃ r log, p.run (serve reply) n = some ((ok, r), log, m + 1) ∧ Writes log (reply m) ∧
    r.serialNumber = result.serialNumber ∧ (ok → r.errCode = result.errCode)

/-- The statement at the end of an operation, and what is made of its reply. -/
theorem run_write (h : Fits st) (flag : Bool) (bad : Reply → SyncPlatformDataResult) (good : SyncPlatformDataResult) :
    (Prog.call (.exec st) fun e => if e.code ≠ 0 then pure (false, bad e) else pure (flag, good)).run
      (serve reply) m = some ((flag && decide ((reply m).code = 0),
        if (reply m).code ≠ 0 then bad (reply m) else good), [(.exec st, reply m)], m + 1) := by
  rw [run_exec h]
  by_cases he : (reply m).code = 0 <;> simp [he]

theorem operates_of_run {p : Prog Call Reply (Bool × SyncPlatformDataResult)} {flag : Bool} {l : Log}
    (st : Statement) (bad good : SyncPlatformDataResult)
    (hp : p.run (serve reply) n = some ((flag && decide ((reply m).code = 0),
      if (reply m).code ≠ 0 then bad else good), l ++ [(.exec st, reply m)], m + 1))
    (hl : Reads l) (hbad : bad.serialNumber = result.serialNumber) (hgood : good.serialNumber = result.serialNumber)
    (hcode : good.errCode = result.errCode) :
    Operates reply p result n m (flag && decide ((reply m).code = 0)) := by
  refine ⟨_, _, hp, ⟨l, st, rfl, hl⟩, ?_, fun hok => ?_⟩
  · split
    · exact hbad
    · exact hgood
  · simp only [Bool.and_eq_true, decide_eq_true_eq] at hok
    rw [if_neg (not_not.2 hok.2), hcode]

theorem operates_updateUserByDB (h : Fits (.updateUserName data)) (h0 : (reply n).code = 0) :
    Operates reply (updateUserByDB data result) result n n (true && decide ((reply n).code = 0)) := by
  refine operates_of_run (l := []) (.updateUserName data) result result ?_ (by simp [Reads]) rfl rfl rfl
  unfold updateUserByDB
  rw [Prog.bind_eq, Prog.ask_bind, run_exec h]
  simp [h0]

theorem updateUserByDB_none (h : ¬ (Fits (.updateUserName data) ∧ (reply n).code = 0)) :
    (updateUserByDB data result).run (serve reply) n = none := by
  unfold updateUserByDB
  rw [Prog.bind_eq, Prog.ask_bind]
  by_cases hfits : Fits (.updateUserName data)
  · have h0 : (reply n).code ≠ 0 := fun h0 => h ⟨hfits, h0⟩
    rw [run_exec hfits, if_pos h0, log_updateUser, Prog.run_call_none rfl]
    rfl
  · exact run_exec_none hfits

theorem operates_updateUserStateByDB (reply : ℕ → Reply) (n : ℕ) (result : SyncPlatformDataResult)
    (h1 : Fits (.selectPlatLoginName data.custName))
    (h2 : Fits (.updateUserState data)) : Operates reply (updateUserStateByDB data result) result n (after reply n)
      (true && decide ((reply (after reply n)).code = 0)) := by
  obtain ⟨l, hrun, hl⟩ := run_lookup reply n h1 "PlatLoginName" result.viewName
  refine operates_of_run (.updateUserState data)
    { result with
      viewName := (found reply n result.viewName).2, errCode := "3", desc := (reply (after reply n)).desc }
    { result with viewName := (found reply n result.viewName).2 } ?_ hl rfl rfl rfl
  unfold updateUserStateByDB getPlatName
  rw [Prog.bind_eq, Prog.run_bind, hrun]
  simp only [Option.bind_some, Prog.bind_eq, Prog.ask_bind, log_updateUserState]
  rw [run_write h2 true fun e => { result with
    viewName := (found reply n result.viewName).2, errCode := "3", desc := e.desc }]
  rfl

/-- The user is there, with the state of one that was deleted. -/
theorem operates_createUserByDB_update (tm : Tm) (h : Fits (.selectUserState data.custAccunt))
    (hs : (found reply n "").2 = "0103") (h1 : Fits (.selectPlatLoginName data.custName))
    (h2 : Fits (.updateUserState data)) :
    Operates reply (createUserByDB tm data result) result n (after reply (after reply n))
      (true && decide ((reply (after reply (after reply n))).code = 0)) := by
  obtain ⟨l, hrun, hl⟩ := run_lookup reply n h "UserState" ""
  obtain ⟨r, log, hop, hw, hser, hcode⟩ :=
    operates_updateUserStateByDB reply (after reply n) result h1 h2
  unfold createUserByDB getUserState
  refine ⟨r, l ++ log, ?_, hl.append_writes hw, hser, hcode⟩
  rw [Prog.bind_eq, Prog.run_bind, hrun]
  simp only [Option.bind_some, hs, if_true, hop, Option.map_some]

/-- The user is inserted; what is returned is not only whether that succeeded. -/
theorem operates_createUserByDB_insert (h : Fits (.selectUserState data.custAccunt))
    (hs : (found reply n "").2 ≠ "0103") (h1 : Fits (.insertUser data tm)) :
    Operates reply (createUserByDB tm data result) result n (after reply n)
      ((found reply n "").1 && decide ((reply (after reply n)).code = 0)) := by
  obtain ⟨l, hrun, hl⟩ := run_lookup reply n h "UserState" ""
  let bad (e : Reply) : SyncPlatformDataResult :=
    { result with desc := e.desc, errCode := if e.code % 2 ^ 32 = 0x80040e2f then "1" else "2" }
  refine operates_of_run (.insertUser data tm) (bad (reply (after reply n))) result ?_ hl rfl rfl rfl
  unfold createUserByDB getUserState
  rw [Prog.bind_eq, Prog.run_bind, hrun]
  simp only [Option.bind_some, hs, if_false, Prog.bind_eq, Prog.ask_bind, log_createUser]
  rw [run_write h1 (found reply n "").1 bad result]
  rfl

theorem updateUserStateByDB_none
    (h : ¬ (Fits (.selectPlatLoginName data.custName) ∧ Fits (.updateUserState data))) :
    (updateUserStateByDB data result).run (serve reply) n = none := by
  unfold updateUserStateByDB getPlatName
  rw [Prog.bind_eq, Prog.run_bind]
  by_cases h1 : Fits (.selectPlatLoginName data.custName)
  · obtain ⟨l, hrun, -⟩ := run_lookup reply n h1 "PlatLoginName" result.viewName
    simp only [hrun, Option.bind_some, Prog.bind_eq, Prog.ask_bind, run_exec_none fun h2 => h ⟨h1, h2⟩,
      Option.map_none]
  · rw [run_lookup_none h1]
    rfl

theorem createUserByDB_none (h : ¬ (Fits (.selectUserState data.custAccunt) ∧
    if (found reply n "").2 = "0103" then Fits (.selectPlatLoginName data.custName) ∧ Fits (.updateUserState data)
    else Fits (.insertUser data tm))) : (createUserByDB tm data result).run (serve reply) n = none := by
  unfold createUserByDB getUserState
  rw [Prog.bind_eq, Prog.run_bind]
  by_cases h1 : Fits (.selectUserState data.custAccunt)
  · obtain ⟨l, hrun, -⟩ := run_lookup reply n h1 "UserState" ""
    rw [hrun, Option.bind_some]
    by_cases hs : (found reply n "").2 = "0103"
    · rw [if_pos hs] at h ⊢
      rw [updateUserStateByDB_none fun h2 => h ⟨h1, h2⟩]
      rfl
    · rw [if_neg hs] at h ⊢
      rw [Prog.bind_eq, Prog.ask_bind, run_exec_none fun h2 => h ⟨h1, h2⟩]
      rfl
  · rw [run_lookup_none h1]
    rfl

/-! ### One record -/

variable {x : SyncPlatformData × Tm}

/-- What the loop does with the outcome of an operation. -/
def finish (x : SyncPlatformData × Tm) (operation : Prog Call Reply SyncPlatformDataResult) :
    Prog Call Reply SyncPlatformDataResult :=
  operation.bind fun result => .ret { result with userState := x.1.custState }

/-- An operation as the loop calls it: the entry agrees when what it returns is whether its statement
succeeded. -/
theorem agrees_of_operates {p : Prog Call Reply (Bool × SyncPlatformDataResult)} {flag : Bool} {code : String}
    (hp : Operates reply p { serialNumber := x.1.serialNumber, errCode := "0", desc := "" } n m
      (flag && decide ((reply m).code = 0))) (hcode : code ≠ "0")
    (hstate : x.1.custState = "0101" ∨ x.1.custState = "0102" ∨ x.1.custState = "0103") :
    ∃ r log, (finish x (p.bind fun r => .ret (override code r))).run (serve reply) n = some (r, log, m + 1) ∧
      (Agrees x.1 r log ↔ (flag = false → (reply m).code ≠ 0)) := by
  obtain ⟨r, log, hrun, hw, hser, herr⟩ := hp
  generalize hok : (flag && decide ((reply m).code = 0)) = ok at *
  refine ⟨{ override code (ok, r) with userState := x.1.custState }, log, ?_, ?_⟩
  · simp only [finish, Prog.run_bind, hrun, Option.bind_some, Prog.run_ret, Option.map_some, List.append_nil]
  have hser' : (override code (ok, r)).serialNumber = x.1.serialNumber := by
    rw [override]
    split <;> exact hser
  have herr' : (override code (ok, r)).errCode = "0" ↔ ok = true := by
    rw [override]
    cases ok with
    | true => simp [herr rfl]
    | false => simp [hcode]
  constructor
  · rintro ⟨-, -, hagree⟩ hflag he
    have := herr'.1 (hagree.2 ⟨hstate, hw.iff.2 he⟩)
    rw [← hok, hflag] at this
    nomatch this
  · intro hflag
    refine ⟨hser', rfl, herr'.trans ⟨fun h => ⟨hstate, hw.iff.2 ?_⟩, fun h => ?_⟩⟩
    · rw [← hok, Bool.and_eq_true, decide_eq_true_eq] at h
      exact h.2
    · have he := hw.iff.1 h.2
      have hf : flag = true := by
        by_contra hf
        exact hflag (Bool.eq_false_of_not_eq_true hf) he
      rw [← hok, hf]
      simp [he]

/-- One record: the program ends there, or the entry agrees just when the condition holds. -/
theorem record_iff (reply : ℕ → Reply) (x : SyncPlatformData × Tm) (n : ℕ) :
    ((handleRecord x).run (serve reply) n = none ∧ ¬ Good reply x n) ∨
    ∃ r log, (handleRecord x).run (serve reply) n = some (r, log, next reply x.1 n) ∧
      (Agrees x.1 r log ↔ Good reply x n) := by
  unfold Good next
  by_cases hs1 : x.1.custState = "0101"
  · have heq : handleRecord x = finish x ((createUserByDB x.2 x.1
        { serialNumber := x.1.serialNumber, errCode := "0", desc := "" }).bind fun r => .ret (override "1" r)) := by
      simp only [handleRecord, log_oper]
      rw [if_pos hs1]
      rfl
    rw [heq, if_pos hs1, if_pos hs1]
    by_cases h : Fits (.selectUserState x.1.custAccunt) ∧
        if (found reply n "").2 = "0103" then
          Fits (.selectPlatLoginName x.1.custName) ∧ Fits (.updateUserState x.1)
        else Fits (.insertUser x.1 x.2)
    · right
      by_cases hf : (found reply n "").2 = "0103"
      · rw [if_pos hf] at h ⊢
        obtain ⟨r, log, hrun, hiff⟩ := agrees_of_operates
          (operates_createUserByDB_update x.2 h.1 hf h.2.1 h.2.2) (by decide : "1" ≠ "0") (.inl hs1)
        refine ⟨r, log, hrun, hiff.trans ?_⟩
        rw [if_pos hf]
        exact iff_of_true nofun h
      · rw [if_neg hf] at h ⊢
        obtain ⟨r, log, hrun, hiff⟩ := agrees_of_operates
          (operates_createUserByDB_insert h.1 hf h.2) (by decide : "1" ≠ "0") (.inl hs1)
        refine ⟨r, log, hrun, hiff.trans ?_⟩
        rw [if_neg hf]
        simp only [h, true_and]
    · refine .inl ⟨?_, fun hgood => h ⟨hgood.1, ?_⟩⟩
      · rw [finish, Prog.run_bind, Prog.run_bind, createUserByDB_none h]
        rfl
      · have := hgood.2
        split_ifs at this ⊢
        · exact this
        · exact this.1
  rw [if_neg hs1, if_neg hs1]
  by_cases hs2 : x.1.custState = "0102"
  · have heq : handleRecord x = finish x ((updateUserByDB x.1
        { serialNumber := x.1.serialNumber, errCode := "0", desc := "" }).bind fun r => .ret (override "1" r)) := by
      simp only [handleRecord, log_oper]
      rw [if_neg hs1, if_pos hs2]
      rfl
    rw [heq, if_pos hs2, if_pos hs2]
    by_cases h : Fits (.updateUserName x.1) ∧ (reply n).code = 0
    · obtain ⟨r, log, hrun, hiff⟩ := agrees_of_operates
        (operates_updateUserByDB h.1 h.2) (by decide : "1" ≠ "0") (.inr (.inl hs2))
      exact .inr ⟨r, log, hrun, hiff.trans (iff_of_true nofun h)⟩
    · refine .inl ⟨?_, h⟩
      rw [finish, Prog.run_bind, Prog.run_bind, updateUserByDB_none h]
      rfl
  rw [if_neg hs2, if_neg hs2]
  by_cases hs3 : x.1.custState = "0103"
  · have heq : handleRecord x = finish x ((updateUserStateByDB x.1
        { serialNumber := x.1.serialNumber, errCode := "0", desc := "" }).bind fun r => .ret (override "3" r)) := by
      simp only [handleRecord, log_oper]
      rw [if_neg hs1, if_neg hs2, if_pos hs3]
      rfl
    rw [heq, if_pos hs3, if_pos hs3]
    by_cases h : Fits (.selectPlatLoginName x.1.custName) ∧ Fits (.updateUserState x.1)
    · obtain ⟨r, log, hrun, hiff⟩ := agrees_of_operates
        (operates_updateUserStateByDB _ _ _ h.1 h.2) (by decide : "3" ≠ "0") (.inr (.inr hs3))
      exact .inr ⟨r, log, hrun, hiff.trans (iff_of_true nofun h)⟩
    · refine .inl ⟨?_, h⟩
      rw [finish, Prog.run_bind, Prog.run_bind, updateUserStateByDB_none h]
      rfl
  · rw [if_neg hs3, if_neg hs3]
    refine .inr ⟨⟨x.1.serialNumber, "4", "No Support Cmd", x.1.custState, ""⟩, [], ?_, ?_⟩
    · simp only [handleRecord, log_oper]
      rw [if_neg hs1, if_neg hs2, if_neg hs3]
      rfl
    · refine iff_of_true ⟨rfl, rfl, iff_of_false (by simp) ?_⟩ trivial
      rintro ⟨h, -⟩
      exact h.elim hs1 (·.elim hs2 hs3)

/-- The records from `n` on. -/
theorem each_iff (reply : ℕ → Reply) (records : List (SyncPlatformData × Tm)) (n : ℕ) :
    (∃ done m, Prog.runEach (serve reply) handleRecord records n = some (done, m) ∧
      List.Forall₂ (fun x y => Agrees x.1 y.1 y.2) records done) ↔ AllGood reply records n := by
  induction records generalizing n with
  | nil => exact iff_of_true ⟨[], n, rfl, .nil⟩ trivial
  | cons x records ih =>
    rw [AllGood, ← ih]
    rcases record_iff reply x n with ⟨hnone, hbad⟩ | ⟨r, log, hrun, hiff⟩
    · refine iff_of_false ?_ fun h => hbad h.1
      rintro ⟨done, m, hdone, -⟩
      rw [Prog.runEach, hnone] at hdone
      cases hdone
    · rw [Prog.runEach, hrun, Option.bind_some, ← hiff]
      constructor
      · rintro ⟨done, m, hdone, hall⟩
        obtain ⟨y, hy, heq⟩ := Option.map_eq_some_iff.1 hdone
        obtain ⟨rfl, rfl⟩ := Prod.mk.inj heq
        obtain ⟨hagree, hall⟩ := List.forall₂_cons.1 hall
        exact ⟨hagree, y.1, y.2, hy, hall⟩
      · rintro ⟨hagree, done, m, hdone, hall⟩
        exact ⟨(r, log) :: done, m, by rw [hdone]; rfl, .cons hagree hall⟩

/-- **The sessions that report what happened.** -/
theorem session_iff (reply : ℕ → Reply) (records : List (SyncPlatformData × Tm)) :
    Right reply records ↔ AllGood reply records 0 := by
  rw [← each_iff]
  constructor
  · rintro ⟨done, n, hdone, -, hall⟩
    exact ⟨done, n, hdone, hall⟩
  · rintro ⟨done, n, hdone, hall⟩
    refine ⟨done, n, hdone, ?_, hall⟩
    rw [handleSessionTask, Prog.run_mapM, hdone]
    rfl

/-- A new user: there is no row to move to, and the insert succeeds. -/
def newUser (n : ℕ) : Reply :=
  if n = 0 then { code := 0x800a0bcd - 2 ^ 32, desc := "", rows := [] } else { code := 0, desc := "", rows := [] }

theorem not_session : ¬ Right newUser
    [({ custAccunt := "13800000000", custState := "0101" }, ⟨126, 0, 2, by decide, by decide, by decide⟩)] := by
  rintro ⟨done, n, hdone, -, hall⟩
  obtain ⟨⟨-, hgood⟩, -⟩ := (each_iff _ _ 0).1 ⟨done, n, hdone, hall⟩
  exact hgood.2 rfl rfl

end StNvs.Sync.Session
