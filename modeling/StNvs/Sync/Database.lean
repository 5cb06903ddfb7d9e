import StNvs.Lib.Programs
import StNvs.Sync.Statements

/-! # The database functions of the synchronisation service

`DatabaseSync` and the loop of `SyncServer::HandleSessionTask` as programs that make calls: `st_db_query`,
`st_db_fetch` and `st_db_exec`. What stands between two calls happens at once. `_DBSync` has a handle,
since the queries read it without a check. What is logged is left out, but not what `WriteToLog` is passed:
an object where its format says a string is undefined, and the program ends there. -/

namespace StNvs.Sync.Database

open StNvs.Lib.Programs StNvs.Sync.Parse StNvs.Sync.Packet StNvs.Sync.Statements

/-! ### The calls -/

inductive Call
  | query (st : Statement)
  | fetch (item : String)
  | exec (st : Statement)
  | crash

/-- The code that a call returns, `desc`, and the rows that `st_db_fetch` appends. -/
structure Reply where
  code : ℤ
  desc : String
  rows : List (List UInt16)

/-- The characters of a `std::wstring` copied to those of a `std::string`. -/
def narrow (w : List UInt16) : String := String.ofList (w.map fun c => Char.ofNat (c.toNat % 256))

/-! ### `WriteToLog` -/

/-- What is passed through `...`: a number, a C string, or a `std::string` itself. -/
inductive Arg
  | number (n : ℤ)
  | text (s : String)
  | object (s : String)

/-- The directives of a format. -/
def directives : List Char → List Char
  | [] | ['%'] => []
  | '%' :: c :: l => c :: directives l
  | _ :: l => directives l

/-- The directive is for such an argument. -/
def Arg.suits : Arg → Char → Bool
  | .number _, c => c = 'x' || c = 'd'
  | .text _, c => c = 's'
  | .object _, _ => false

/-- The directives of a format suit the arguments. -/
def printable (fmt : List Char) (args : List Arg) : Bool :=
  (directives fmt).length = args.length && (args.zip (directives fmt)).all fun x => x.1.suits x.2

/-- `WriteToLog`, and what comes after it. A text that is too long for its buffer is cut. -/
def writeToLog {α : Type} (fmt : List Char) (args : List Arg) (p : Prog Call Reply α) : Prog Call Reply α :=
  if printable fmt args then p else .call .crash fun _ => p

def createUserLog : List Char := "Create User, ErrCode = %x, ErrDesc = %s".toList

def updateUserStateLog : List Char := "Update User State, ErrCode = %x, ErrDesc = %s".toList

def updateUserLog : List Char := "Update User, ErrCode = %d, ErrDesc = %s".toList

def operLog : List Char := "Oper = %s, ErrCode = %s, ErrDesc = %s".toList

/-! ### `DatabaseSync` -/

/-- What `GetPlatName` and `GetUserState` do. -/
def lookup (st : Statement) (item : String) (old : String) : Prog Call Reply (Bool × String) := do
  let q ← .ask (.query st)
  if q.code ≠ 0 then return (false, old)
  else
    let f ← .ask (.fetch item)
    if f.code ≠ 0 then return (false, old)
    else match f.rows with
      | [row] => return (true, narrow row)
      | _ => return (true, old)

def getPlatName (userID platName : String) : Prog Call Reply (Bool × String) :=
  lookup (.selectPlatLoginName userID) "PlatLoginName" platName

def getUserState (userID userState : String) : Prog Call Reply (Bool × String) :=
  lookup (.selectUserState userID) "UserState" userState

def updateUserStateByDB (data : SyncPlatformData) (result : SyncPlatformDataResult) :
    Prog Call Reply (Bool × SyncPlatformDataResult) := do
  let p ← getPlatName data.custName result.viewName
  let result := { result with viewName := p.2 }
  let e ← .ask (.exec (.updateUserState data))
  if e.code ≠ 0 then
    writeToLog updateUserStateLog [.number e.code, .text result.desc] <|
      return (false, { result with errCode := "3", desc := e.desc })
  else return (true, result)

/-- `tm` is the date at which the statement is built. -/
def createUserByDB (tm : Tm) (data : SyncPlatformData) (result : SyncPlatformDataResult) :
    Prog Call Reply (Bool × SyncPlatformDataResult) := do
  let p ← getUserState data.custAccunt ""
  if p.2 = "0103" then updateUserStateByDB data result
  else
    let e ← .ask (.exec (.insertUser data tm))
    if e.code ≠ 0 then
      let errCode := if e.code % 2 ^ 32 = 0x80040e2f then "1" else "2"
      writeToLog createUserLog [.number e.code, .text e.desc] <|
        return (false, { result with desc := e.desc, errCode := errCode })
    else return (p.1, result)

/-- It passes `result.ErrCode` itself to `WriteToLog`. -/
def updateUserByDB (data : SyncPlatformData) (result : SyncPlatformDataResult) :
    Prog Call Reply (Bool × SyncPlatformDataResult) := do
  let e ← .ask (.exec (.updateUserName data))
  if e.code ≠ 0 then
    writeToLog updateUserLog [.object "3", .text e.desc] <|
      return (false, { result with errCode := "3", desc := e.desc })
  else return (true, result)

/-! ### `HandleSessionTask` -/

/-- The result of an operation, with another code when it failed. -/
def override (errCode : String) (r : Bool × SyncPlatformDataResult) : SyncPlatformDataResult :=
  if r.1 then r.2 else { r.2 with errCode := errCode }

/-- What the loop does with one record. -/
def handleRecord (x : SyncPlatformData × Tm) : Prog Call Reply SyncPlatformDataResult :=
  let data := x.1
  let result : SyncPlatformDataResult := { serialNumber := data.serialNumber, errCode := "0", desc := "" }
  let operation : Prog Call Reply SyncPlatformDataResult :=
    if data.custState = "0101" then (createUserByDB x.2 data result).bind fun r => .ret (override "1" r)
    else if data.custState = "0102" then (updateUserByDB data result).bind fun r => .ret (override "1" r)
    else if data.custState = "0103" then (updateUserStateByDB data result).bind fun r => .ret (override "3" r)
    else .ret { result with errCode := "4", desc := "No Support Cmd" }
  operation.bind fun result =>
    writeToLog operLog [.text data.custState, .text result.errCode, .text result.desc] <|
      .ret { result with userState := data.custState }

/-- The loop, for some records, each with the date at which it is its turn. -/
def handleSessionTask (records : List (SyncPlatformData × Tm)) : Prog Call Reply (List SyncPlatformDataResult) :=
  .mapM handleRecord records

/-! ### What is passed to `WriteToLog` -/

variable {α : Type} {p : Prog Call Reply α} {n : ℤ} {desc : String}

theorem writeToLog_number {fmt : List Char} {c : Char} (h : directives fmt = [c, 's']) (hc : c = 'x' ∨ c = 'd') :
    writeToLog fmt [.number n, .text desc] p = p := by
  refine if_pos ?_
  rw [printable, h]
  rcases hc with rfl | rfl <;> rfl

@[simp] theorem log_createUser : writeToLog createUserLog [.number n, .text desc] p = p :=
  writeToLog_number (by decide +kernel : directives createUserLog = ['x', 's']) (.inl rfl)

@[simp] theorem log_updateUserState : writeToLog updateUserStateLog [.number n, .text desc] p = p :=
  writeToLog_number (by decide +kernel : directives updateUserStateLog = ['x', 's']) (.inl rfl)

@[simp] theorem log_oper {state errCode : String} :
    writeToLog operLog [.text state, .text errCode, .text desc] p = p := by
  have hfmt : directives operLog = ['s', 's', 's'] := by decide +kernel
  refine if_pos ?_
  rw [printable, hfmt]
  rfl

/-- **`UpdateUserByDB` ends the program** when its statement fails. -/
@[simp] theorem log_updateUser {errCode : String} :
    writeToLog updateUserLog [.object errCode, .text desc] p = .call .crash fun _ => p := by
  have hfmt : directives updateUserLog = ['d', 's'] := by decide +kernel
  refine if_neg ?_
  rw [printable, hfmt]
  exact Bool.false_ne_true

end StNvs.Sync.Database
