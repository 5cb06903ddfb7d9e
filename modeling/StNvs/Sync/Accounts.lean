import StNvs.Sync.Database

/-! # The accounts behind the synchronisation service

The table `HM_User`, keyed by `UserID`, and the recordset of the worker: a query keeps the rows it finds,
and a fetch collects and forgets them. The database is given the texts that are built; what it makes of a
text that is not read as it was meant is up to it (`Sql`). For a query that finds nothing ADO may have an
error of its own, since there is no row to move to.

* `readSql_faithful`: a database that reads the texts.
* `run_lookup_found`: what a lookup finds.
* `changes_iff`: a change of state whose texts are read as they were meant reads and writes the same account
  just when the account's name to log in is that of the account whose number is the customer's name. -/

namespace StNvs.Sync.Accounts

open StNvs.Lib.Programs StNvs.Lib.Quoted StNvs.Sync.Parse StNvs.Sync.Packet StNvs.Sync.Statements
  StNvs.Sync.Database Function

/-! ### The table -/

structure Row where
  userName : List UInt16
  userState : List UInt16
  platLoginName : List UInt16
  deriving DecidableEq

abbrev Table := String → Option Row

/-- The characters of a `std::string` as the table has them. -/
def widen (s : String) : List UInt16 := s.toList.map fun c => UInt16.ofNat c.toNat

/-- The column of a query. -/
def column : Statement → String
  | .selectPlatLoginName _ => "PlatLoginName"
  | .selectUserState _ => "UserState"
  | .insertUser _ _ | .updateUserState _ | .updateUserName _ => ""

/-- The statement is a query. -/
def isSelect : Statement → Bool
  | .selectPlatLoginName _ | .selectUserState _ => true
  | .insertUser _ _ | .updateUserState _ | .updateUserName _ => false

/-- The rows that a query is to find. -/
def rows (table : Table) : Statement → List (List UInt16)
  | .selectPlatLoginName userID => (table userID).toList.map Row.platLoginName
  | .selectUserState userID => (table userID).toList.map Row.userState
  | .insertUser _ _ | .updateUserState _ | .updateUserName _ => []

/-- What a statement is to make of the table. -/
def effect (table : Table) : Statement → Table
  | .updateUserState data =>
    update table data.custAccunt ((table data.custAccunt).map ({ · with userState := widen data.custState }))
  | .updateUserName data =>
    update table data.custAccunt ((table data.custAccunt).map ({ · with userName := widen data.custName }))
  | .insertUser data _ =>
    update table data.custAccunt (some ⟨widen data.custName, widen data.custState, []⟩)
  | .selectPlatLoginName _ | .selectUserState _ => table

/-- A user that is there already is not inserted again. -/
def duplicate (table : Table) : Statement → Bool
  | .insertUser data _ => (table data.custAccunt).isSome
  | _ => false

/-- What the database makes of a text: the column and the rows that a query finds, and the table after another
statement. -/
structure Sql where
  query : Table → List Char → Option (String × List (List UInt16))
  exec : Table → List Char → Option Table

/-- It does what was meant where the text is read as it was meant. -/
structure Sql.Faithful (sql : Sql) : Prop where
  query : ∀ table st text, isSelect st = true → st.Decodes → st.stored = some text →
    sql.query table text = some (column st, rows table st)
  exec : ∀ table st text, isSelect st = false → st.Decodes → st.stored = some text →
    sql.exec table text = if duplicate table st then none else some (effect table st)

/-- The table, and the column and rows that are to be fetched. -/
structure Base where
  table : Table
  recordset : Option (String × List (List UInt16))

/-- The worker; `noRow` is the code for a query that finds nothing. The run-time library ends the program when
a text does not fit. -/
def serve (sql : Sql) (noRow : ℤ) : Call → Base → Option (Reply × Base)
  | .query st, b => st.stored.bind fun text => (sql.query b.table text).map fun x =>
      (⟨if x.2 = [] then noRow else 0, "", []⟩, ⟨b.table, some x⟩)
  | .fetch item, b => match b.recordset with
    | some (col, found) => if col = item then some (⟨0, "", found⟩, ⟨b.table, none⟩) else none
    | none => some (⟨0, "", []⟩, b)
  | .exec st, b => st.stored.bind fun text => (sql.exec b.table text).map fun table =>
      (⟨0, "", []⟩, ⟨table, b.recordset⟩)
  | .crash, _ => none

/-- The record is a change of state: it says so, or it creates an account whose stored state is that of a
deleted one. -/
def IsStateChange (table : Table) (data : SyncPlatformData) : Prop :=
  data.custState = "0103" ∨
    data.custState = "0101" ∧ (table data.custAccunt).map Row.userState = some (widen "0103")

/-- The state of the record's account is changed, and nothing else, and the viewer name is the name to log
in of that account, empty as before if there is no such account. -/
def Changes (sql : Sql) (noRow : ℤ) (b : Base) (x : SyncPlatformData × Tm) : Prop :=
  ∃ r log b', (handleRecord x).run (serve sql noRow) b = some (r, log, b') ∧
    (∀ userID, b'.table userID =
      if userID = x.1.custAccunt then (b.table userID).map ({ · with userState := widen x.1.custState })
      else b.table userID) ∧
    match b.table x.1.custAccunt with
    | some row => widen r.viewName = row.platLoginName
    | none => r.viewName = ""

/-- The name to log in under the customer's name is that under the account. -/
def SameName (table : Table) (data : SyncPlatformData) : Prop :=
  match table data.custName, table data.custAccunt with
  | some found, some row => widen (narrow found.platLoginName) = row.platLoginName
  | some found, none => found.platLoginName = []
  | none, some row => row.platLoginName = []
  | none, none => True

/-- The texts of a change of state are read as they were meant. -/
def Meant (data : SyncPlatformData) : Prop :=
  (Statement.selectPlatLoginName data.custName).Decodes ∧ (Statement.updateUserState data).Decodes

variable {sql : Sql} {noRow : ℤ} {b : Base} {st : Statement} {data : SyncPlatformData} {tm : Tm}
  {result : SyncPlatformDataResult}

/-! ### A database that reads the texts -/

/-- The characters before the first literal. -/
def lead : List (Token Char) → List Char
  | .code c :: ts => c :: lead ts
  | .lit _ :: _ | [] => []

theorem lead_fill (ts : List (Token Char)) (vs : List (List Char)) : lead (fill ts vs) = lead ts := by
  fun_induction fill ts vs with
  | case1 => rfl
  | case2 c ts vs ih => rw [lead, lead, ih]
  | case3 | case4 => rfl

def platLoginNameLead : List Char := "select PlatLoginName from HM_User  where UserID=".toList

def selectUserStateLead : List Char := "select UserState from HM_User  where UserID=".toList

def updateUserStateLead : List Char := "update HM_User set UserState = ".toList

def updateUserNameLead : List Char := "update HM_User set UserName= ".toList

/-- The statement that a text is, by how it begins and with its literals. -/
def readStatement (text : List Char) : Option Statement :=
  (scan '\'' none text).bind fun ts =>
    if lead ts = platLoginNameLead then (lits ts)[0]?.map fun u => .selectPlatLoginName (String.ofList u)
    else if lead ts = selectUserStateLead then (lits ts)[0]?.map fun u => .selectUserState (String.ofList u)
    else if lead ts = updateUserStateLead then
      (lits ts)[0]?.bind fun v => (lits ts)[1]?.map fun u =>
        .updateUserState { custState := String.ofList v, custAccunt := String.ofList u }
    else if lead ts = updateUserNameLead then
      (lits ts)[0]?.bind fun v => (lits ts)[1]?.map fun u =>
        .updateUserName { custName := String.ofList v, custAccunt := String.ofList u }
    else
      (lits ts)[0]?.bind fun u => (lits ts)[3]?.bind fun n => (lits ts)[6]?.map fun v =>
        .insertUser { custAccunt := String.ofList u, custName := String.ofList n, custState := String.ofList v }
          ⟨0, 0, 1, by decide, by decide, by decide⟩

/-- It executes that statement. -/
def readSql : Sql where
  query table text := (readStatement text).bind fun st =>
    if isSelect st then some (column st, rows table st) else none
  exec table text := (readStatement text).bind fun st =>
    if isSelect st || duplicate table st then none else some (effect table st)

/-- What of a statement matters to the table. -/
structure SameEffect (st st' : Statement) : Prop where
  isSelect : isSelect st = isSelect st'
  column : column st = column st'
  rows : ∀ table, rows table st = rows table st'
  duplicate : ∀ table, duplicate table st = duplicate table st'
  effect : ∀ table, effect table st = effect table st'

/-- **A text that is read as it was meant** is the statement that was meant. -/
theorem readStatement_decodes (hd : st.Decodes) {text : List Char} (ht : st.stored = some text) :
    ∃ st', readStatement text = some st' ∧ SameEffect st' st := by
  have hscan : scan '\'' none text = some (fill st.shape st.values) := by
    rw [Statement.Decodes, ht] at hd
    exact hd
  have hlits : lits (fill st.shape st.values) = st.values := lits_fill (wellFormat st).lits.symm
  unfold readStatement
  rw [hscan, Option.bind_some, hlits, lead_fill]
  cases st with
  | selectPlatLoginName u =>
    have hlead : lead (Statement.selectPlatLoginName u).shape = platLoginNameLead :=
      (by decide +kernel : lead ((scan '\'' none selectPlatLoginNameFormat).getD []) = platLoginNameLead)
    rw [hlead, if_pos rfl]
    refine ⟨_, rfl, ?_⟩
    simp only [String.ofList_toList]
    exact ⟨rfl, rfl, fun _ => rfl, fun _ => rfl, fun _ => rfl⟩
  | selectUserState u =>
    have hlead : lead (Statement.selectUserState u).shape = selectUserStateLead :=
      (by decide +kernel : lead ((scan '\'' none selectUserStateFormat).getD []) = selectUserStateLead)
    rw [hlead, if_neg (by decide +kernel), if_pos rfl]
    refine ⟨_, rfl, ?_⟩
    simp only [String.ofList_toList]
    exact ⟨rfl, rfl, fun _ => rfl, fun _ => rfl, fun _ => rfl⟩
  | updateUserState data =>
    have hlead : lead (Statement.updateUserState data).shape = updateUserStateLead :=
      (by decide +kernel : lead ((scan '\'' none updateUserStateFormat).getD []) = updateUserStateLead)
    rw [hlead, if_neg (by decide +kernel), if_neg (by decide +kernel), if_pos rfl]
    refine ⟨_, rfl, ?_⟩
    simp only [String.ofList_toList]
    exact ⟨rfl, rfl, fun _ => rfl, fun _ => rfl, fun _ => rfl⟩
  | updateUserName data =>
    have hlead : lead (Statement.updateUserName data).shape = updateUserNameLead :=
      (by decide +kernel : lead ((scan '\'' none updateUserNameFormat).getD []) = updateUserNameLead)
    rw [hlead, if_neg (by decide +kernel), if_neg (by decide +kernel), if_neg (by decide +kernel), if_pos rfl]
    refine ⟨_, rfl, ?_⟩
    simp only [String.ofList_toList]
    exact ⟨rfl, rfl, fun _ => rfl, fun _ => rfl, fun _ => rfl⟩
  | insertUser data tm =>
    have hlead : lead (Statement.insertUser data tm).shape ∉
        [platLoginNameLead, selectUserStateLead, updateUserStateLead, updateUserNameLead] :=
      (by decide +kernel : lead ((scan '\'' none insertUserFormat).getD []) ∉
        [platLoginNameLead, selectUserStateLead, updateUserStateLead, updateUserNameLead])
    simp only [List.mem_cons, List.not_mem_nil, or_false, not_or] at hlead
    rw [if_neg hlead.1, if_neg hlead.2.1, if_neg hlead.2.2.1, if_neg hlead.2.2.2]
    refine ⟨_, rfl, ?_⟩
    simp only [String.ofList_toList]
    exact ⟨rfl, rfl, fun _ => rfl, fun _ => rfl, fun _ => rfl⟩

theorem readSql_faithful : readSql.Faithful where
  query table st text hs hd ht := by
    obtain ⟨st', hread, hsame⟩ := readStatement_decodes hd ht
    simp only [readSql, hread, Option.bind_some, hsame.isSelect, hs, if_true, hsame.column, hsame.rows]
  exec table st text hs hd ht := by
    obtain ⟨st', hread, hsame⟩ := readStatement_decodes hd ht
    simp only [readSql, hread, Option.bind_some, hsame.isSelect, hs, Bool.false_or, hsame.duplicate, hsame.effect]

/-! ### The calls -/

/-- What a lookup makes of the rows that are found. -/
def looked (found : List (List UInt16)) (old : String) : String :=
  match found with
  | [row] => narrow row
  | _ => old

theorem exists_stored (hd : st.Decodes) : ∃ text, st.stored = some text := by
  obtain ⟨text, htext, -⟩ := Option.bind_eq_some_iff.1 hd
  exact ⟨text, htext⟩

theorem serve_query (hsql : sql.Faithful) (hs : isSelect st = true) (hd : st.Decodes) (b : Base) :
    serve sql noRow (.query st) b =
      some (⟨if rows b.table st = [] then noRow else 0, "", []⟩, ⟨b.table, some (column st, rows b.table st)⟩) := by
  obtain ⟨text, htext⟩ := exists_stored hd
  rw [serve, htext, Option.bind_some, hsql.query b.table st text hs hd htext]
  rfl

theorem serve_fetch (table : Table) (item : String) (found : List (List UInt16)) :
    serve sql noRow (.fetch item) ⟨table, some (item, found)⟩ = some (⟨0, "", found⟩, ⟨table, none⟩) := if_pos rfl

/-- An update is no insert. -/
theorem serve_updateUserState (hsql : sql.Faithful) (hd : (Statement.updateUserState data).Decodes) (b : Base) :
    serve sql noRow (.exec (.updateUserState data)) b =
      some (⟨0, "", []⟩, ⟨effect b.table (.updateUserState data), b.recordset⟩) := by
  obtain ⟨text, htext⟩ := exists_stored hd
  rw [serve, htext, Option.bind_some, hsql.exec b.table _ text rfl hd htext]
  rfl

/-- **What a lookup finds.** -/
theorem run_lookup_found (hsql : sql.Faithful) (st : Statement) (hs : isSelect st = true) (hd : st.Decodes)
    (noRow : ℤ) (old : String) (b : Base) : ∃ y, (lookup st (column st) old).run (serve sql noRow) b = some y ∧
      y.1.2 = looked (rows b.table st) old ∧ y.2.2.table = b.table := by
  unfold lookup looked
  simp only [Prog.bind_eq, Prog.ask_bind]
  rw [Prog.run_call (serve_query hsql hs hd b)]
  generalize rows b.table st = found
  by_cases hcode : (if found = [] then noRow else 0) = 0
  · simp only [hcode, ne_eq, not_true_eq_false, if_false]
    rw [Prog.run_call (serve_fetch b.table (column st) found)]
    rcases found with _ | ⟨row, _ | ⟨row', found⟩⟩ <;> exact ⟨_, rfl, rfl, rfl⟩
  · -- there is no row to move to
    cases found with
    | nil =>
      rw [if_pos rfl] at hcode
      simp only [if_true, ne_eq, hcode, not_false_eq_true]
      exact ⟨_, rfl, rfl, rfl⟩
    | cons row found => exact absurd (if_neg (List.cons_ne_nil row found)) hcode

/-- The text that asks for the state of the account is read as it was meant when the one that changes it is. -/
theorem Meant.selectUserState (h : Meant data) : (Statement.selectUserState data.custAccunt).Decodes := by
  obtain ⟨hclean, hlen⟩ := (decodes_iff _).1 h.2
  refine (decodes_iff _).2 ⟨fun s hs => hclean s (List.mem_cons_of_mem _ hs), ?_⟩
  simp only [Statement.fields, Statement.spare, List.map_cons, List.map_nil, List.sum_cons, List.sum_nil] at hlen ⊢
  omega

/-- What is done for a change of state. -/
theorem run_updateUserStateByDB (hsql : sql.Faithful) (hm : Meant data) (noRow : ℤ)
    (result : SyncPlatformDataResult) (b : Base) :
    ∃ y, (updateUserStateByDB data result).run (serve sql noRow) b = some y ∧ y.1.1 = true ∧
      y.1.2.viewName = looked (rows b.table (.selectPlatLoginName data.custName)) result.viewName ∧
      y.2.2.table = effect b.table (.updateUserState data) := by
  obtain ⟨y, hy, hname, htable⟩ :=
    run_lookup_found hsql (.selectPlatLoginName data.custName) rfl hm.1 noRow result.viewName b
  unfold updateUserStateByDB getPlatName
  rw [Prog.bind_eq, Prog.run_bind, show "PlatLoginName" = column (.selectPlatLoginName data.custName) from rfl, hy,
    Option.bind_some, Prog.bind_eq, Prog.ask_bind, Prog.run_call (serve_updateUserState hsql hm.2 y.2.2)]
  refine ⟨_, rfl, rfl, hname, ?_⟩
  exact congrArg (fun t => effect t (.updateUserState data)) htable

/-- What is done for a change of state, as the record that asks for it is handled. -/
theorem run_handleRecord (hsql : sql.Faithful) (noRow : ℤ) {x : SyncPlatformData × Tm}
    (h : IsStateChange b.table x.1) (hm : Meant x.1) :
    ∃ y, (handleRecord x).run (serve sql noRow) b = some y ∧
      y.1.viewName = looked (rows b.table (.selectPlatLoginName x.1.custName)) "" ∧
      y.2.2.table = effect b.table (.updateUserState x.1) := by
  unfold handleRecord
  simp only [log_oper]
  rcases h with h | ⟨h, hstate⟩
  · obtain ⟨y, hy, hok, hname, htable⟩ := run_updateUserStateByDB hsql hm noRow
      { serialNumber := x.1.serialNumber, errCode := "0", desc := "" } b
    simp only [h, String.reduceEq, if_false, if_true, Prog.run_bind, hy, Option.bind_some, Prog.run_ret,
      Option.map_some]
    refine ⟨_, rfl, ?_, htable⟩
    simp only [override, hok, if_true, hname]
  · obtain ⟨row, hrow, hrs⟩ := Option.map_eq_some_iff.1 hstate
    obtain ⟨z, hz, hfound, hzt⟩ :=
      run_lookup_found hsql (.selectUserState x.1.custAccunt) rfl hm.selectUserState noRow "" b
    have h0103 : z.1.2 = "0103" := by
      rw [hfound, rows, hrow]
      change narrow row.userState = "0103"
      rw [hrs]
      decide +kernel
    obtain ⟨y, hy, hok, hname, htable⟩ := run_updateUserStateByDB hsql hm noRow
      { serialNumber := x.1.serialNumber, errCode := "0", desc := "" } z.2.2
    have hcreate : ∃ log, (createUserByDB x.2 x.1
        { serialNumber := x.1.serialNumber, errCode := "0", desc := "" }).run (serve sql noRow) b =
          some (y.1, log, y.2.2) := by
      unfold createUserByDB getUserState
      rw [Prog.bind_eq, Prog.run_bind, show "UserState" = column (.selectUserState x.1.custAccunt) from rfl, hz,
        Option.bind_some, if_pos h0103, hy]
      exact ⟨_, rfl⟩
    obtain ⟨log, hcreate⟩ := hcreate
    simp only [h, if_true, Prog.run_bind, hcreate, Option.bind_some, Prog.run_ret, Option.map_some]
    refine ⟨_, rfl, ?_, ?_⟩
    · simp only [override, hok, if_true, hname, hzt]
    · rw [hzt] at htable
      exact htable

/-- What an update of the state does to the table. -/
theorem effect_updateUserState (table : Table) (data : SyncPlatformData) (userID : String) :
    effect table (.updateUserState data) userID =
      if userID = data.custAccunt then (table userID).map ({ · with userState := widen data.custState })
      else table userID := by
  change update table data.custAccunt _ userID = _
  by_cases h : userID = data.custAccunt
  · rw [if_pos h, h, update_self]
  · rw [if_neg h, update_of_ne h]

/-- **The changes of state that read and write the same account**, when their texts are read as they were
meant. -/
theorem changes_iff (hsql : sql.Faithful) (noRow : ℤ) {b : Base} {x : SyncPlatformData × Tm}
    (h : IsStateChange b.table x.1) (hm : Meant x.1) : Changes sql noRow b x ↔ SameName b.table x.1 := by
  obtain ⟨y, hy, hname, htable⟩ := run_handleRecord hsql noRow h hm
  have hview : Changes sql noRow b x ↔ match b.table x.1.custAccunt with
      | some row => widen y.1.viewName = row.platLoginName
      | none => y.1.viewName = "" := by
    constructor
    · rintro ⟨r, log, b', hrun, -, hmatch⟩
      rw [hy] at hrun
      obtain rfl := Option.some.inj hrun
      exact hmatch
    · intro hmatch
      refine ⟨y.1, y.2.1, y.2.2, hy, fun userID => ?_, hmatch⟩
      rw [htable]
      exact effect_updateUserState b.table x.1 userID
  rw [hview, hname, SameName, rows]
  have hempty : ∀ w : List UInt16, narrow w = "" ↔ w = [] := fun w => by
    rw [narrow, String.ofList_eq_empty_iff, List.map_eq_nil_iff]
  cases hn : b.table x.1.custName <;> cases ha : b.table x.1.custAccunt <;> simp [looked, hempty, widen, eq_comm]

/-- One account. -/
def oneAccount : Base where
  table userID := if userID = "1001" then some ⟨widen "Zhang", widen "0101", widen "zhang"⟩ else none
  recordset := none

/-- A text that does not fit ends the program. -/
theorem stored_of_changes {x : SyncPlatformData × Tm} (h : x.1.custState = "0103") (hc : Changes sql noRow b x) :
    (Statement.selectPlatLoginName x.1.custName).stored.isSome ∧ (Statement.updateUserState x.1).stored.isSome := by
  obtain ⟨r, log, b', hrun, -⟩ := hc
  have hdone : (updateUserStateByDB x.1
      { serialNumber := x.1.serialNumber, errCode := "0", desc := "" }).run (serve sql noRow) b ≠ none := by
    intro hnone
    simp only [handleRecord, log_oper, h, String.reduceEq, if_false, if_true, Prog.run_bind, hnone,
      Option.bind_none] at hrun
    nomatch hrun
  unfold updateUserStateByDB getPlatName at hdone
  rw [Prog.bind_eq, Prog.run_bind] at hdone
  constructor
  · by_contra hno
    rw [Option.not_isSome_iff_eq_none] at hno
    refine hdone ?_
    unfold lookup
    rw [Prog.bind_eq, Prog.ask_bind, Prog.run_call_none (by rw [serve, hno, Option.bind_none])]
    rfl
  · by_contra hno
    rw [Option.not_isSome_iff_eq_none] at hno
    refine hdone ?_
    refine Option.bind_eq_none_iff.2 fun y _ => ?_
    rw [Prog.bind_eq, Prog.ask_bind, Prog.run_call_none (by rw [serve, hno, Option.bind_none])]
    rfl

instance decidableMeant (data : SyncPlatformData) : Decidable (Meant data) :=
  inferInstanceAs (Decidable (_ ∧ _))

/-- The date does not matter. -/
def day : Tm := ⟨126, 0, 2, by decide, by decide, by decide⟩

/-- A change of state for the account, of a customer of this name. -/
def changeOf (custName : String) : SyncPlatformData × Tm :=
  ({ custAccunt := "1001", custName := custName, custState := "0103" }, day)

/-- A customer who is called as the account is. -/
theorem changes_one : Changes readSql 0 oneAccount (changeOf "1001") := by
  have hm : Meant (changeOf "1001").1 := by decide +kernel
  refine (changes_iff readSql_faithful 0 (.inl rfl) hm).2 ?_
  exact (by decide +kernel : widen (narrow (widen "zhang")) = widen "zhang")

/-- A customer with another name than the number of the account. -/
theorem not_changes : ∃ x : SyncPlatformData × Tm, IsStateChange oneAccount.table x.1 ∧ Meant x.1 ∧
    ¬ Changes readSql 0 oneAccount x := by
  have hm : Meant (changeOf "Zhang").1 := by decide +kernel
  refine ⟨changeOf "Zhang", .inl rfl, hm, ?_⟩
  rintro ⟨r, log, b', hrun, -, hname⟩
  obtain ⟨y, hy, hlooked, -⟩ := run_handleRecord readSql_faithful 0 (b := oneAccount) (.inl rfl) hm
  rw [hrun] at hy
  obtain rfl := Option.some.inj hy
  rw [show r.viewName = "" from hlooked] at hname
  have hwiden : widen "" = widen "zhang" := hname
  exact absurd hwiden (by decide +kernel)

end StNvs.Sync.Accounts
