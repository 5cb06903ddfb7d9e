import StNvs.Lib.Quoted
import StNvs.Sync.Packet

/-! # The statements of the synchronisation service

`DatabaseSync` writes the fields of a record into the texts of its statements with `sprintf_s`, as they
are, between quotes. A text that does not fit is not built (the run-time library ends the program), and
`st_db_exec` and `st_db_query` copy it to the buffer of a request. A character stands for a byte.

* `text_eq`: what is built is the statement with the C strings of the fields in the places of its literals.
* `decodes_iff`: a statement is read back with the fields just when no field has a quote or a `NUL`, and
  the fields fit. -/

namespace StNvs.Sync.Statements

open StNvs.Lib.Quoted StNvs.Sync.Parse

/-! ### The texts -/

/-- What is used of a `struct tm`, with the ranges that `localtime_s` gives. -/
structure Tm where
  year : ℕ
  mon : ℕ
  mday : ℕ
  year_lt : year + 1900 < 10000
  mon_lt : mon < 12
  mday_lt : mday < 32

/-- `%0*d`. -/
def padded (width n : ℕ) : List Char :=
  List.replicate (width - (Nat.toDigits 10 n).length) '0' ++ Nat.toDigits 10 n

/-- `create_user_time`. -/
def createUserTime (tm : Tm) : List Char :=
  padded 4 (tm.year + 1900) ++ '-' :: padded 2 (tm.mon + 1) ++ '-' :: padded 2 tm.mday

def insertUserFormat : List Char :=
  "insert into [HM_User](UserID,AreaID,Address, UserName, ".toList ++
    "CreateUserTime, SerialNumber, UserState) ".toList ++ "values('%s','%s','%s','%s','%s','%s','%s')".toList

def updateUserStateFormat : List Char := "update HM_User set UserState = '%s' where UserID='%s'".toList

def updateUserNameFormat : List Char := "update HM_User set UserName= '%s' where UserID='%s'".toList

def selectPlatLoginNameFormat : List Char := "select PlatLoginName from HM_User  where UserID='%s'".toList

def selectUserStateFormat : List Char := "select UserState from HM_User  where UserID='%s'".toList

inductive Statement
  | insertUser (data : SyncPlatformData) (tm : Tm)
  | updateUserState (data : SyncPlatformData)
  | updateUserName (data : SyncPlatformData)
  | selectPlatLoginName (userID : String)
  | selectUserState (userID : String)

namespace Statement

/-- The format of the text. -/
def format : Statement → List Char
  | .insertUser _ _ => insertUserFormat
  | .updateUserState _ => updateUserStateFormat
  | .updateUserName _ => updateUserNameFormat
  | .selectPlatLoginName _ => selectPlatLoginNameFormat
  | .selectUserState _ => selectUserStateFormat

/-- The values of its literals. -/
def values : Statement → List (List Char)
  | .insertUser data tm => [data.custAccunt.toList, "root".toList, data.linkAddr.toList, data.custName.toList,
      createUserTime tm, data.serialNumber.toList, data.custState.toList]
  | .updateUserState data => [data.custState.toList, data.custAccunt.toList]
  | .updateUserName data => [data.custName.toList, data.custAccunt.toList]
  | .selectPlatLoginName userID | .selectUserState userID => [userID.toList]

/-- The size of `sql`. -/
def room : Statement → ℕ
  | .insertUser _ _ => 512
  | _ => 1024

end Statement

/-- The C string in some characters. -/
def cString (l : List Char) : List Char := l.takeWhile (· ≠ '\x00')

/-- `sprintf` with a format that has no other directive than `%s`. -/
def sprintf : List Char → List (List Char) → List Char
  | [], _ => []
  | '%' :: 's' :: l, a :: as => a ++ sprintf l as
  | c :: l, as => c :: sprintf l as

/-- A text that is copied to a buffer of this size. -/
def copied (size : ℕ) (text : List Char) : Option (List Char) := if text.length < size then some text else none

namespace Statement

/-- `sprintf_s`. -/
def text (st : Statement) : Option (List Char) := copied st.room (sprintf st.format (st.values.map cString))

/-- What stands in the buffer of the request. -/
def stored (st : Statement) : Option (List Char) := st.text.bind (copied 1024)

/-- What the format is as a text, with `%s` for each value. -/
def shape (st : Statement) : List (Token Char) := (scan '\'' none st.format).getD []

/-- The statement reaches the buffer, and what stands there is read as this statement with the values. -/
def Decodes (st : Statement) : Prop :=
  st.stored.bind (scan '\'' none) = some (fill st.shape st.values)

instance (st : Statement) : Decidable st.Decodes := inferInstanceAs (Decidable (_ = _))

/-- The fields of the record that the statement has. -/
def fields : Statement → List String
  | .insertUser data _ => [data.custAccunt, data.linkAddr, data.custName, data.serialNumber, data.custState]
  | .updateUserState data => [data.custState, data.custAccunt]
  | .updateUserName data => [data.custName, data.custAccunt]
  | .selectPlatLoginName userID | .selectUserState userID => [userID]

/-- How long the fields may be together. -/
def spare : Statement → ℕ
  | .insertUser _ _ => 373
  | .updateUserState _ => 974
  | .updateUserName _ => 976
  | .selectPlatLoginName _ => 973
  | .selectUserState _ => 977

end Statement

/-! ### What is built -/

/-- The literals of a format are `%s`, and there is no other `%`. -/
def percent : List (Token Char) → Bool
  | [] => true
  | .code c :: ts => c ≠ '%' ∧ percent ts
  | .lit s :: ts => s = ['%', 's'] ∧ percent ts

theorem sprintf_plain {ts : List (Token Char)} (h : percent ts) {as : List (List Char)}
    (ha : as.length = (lits ts).length) : sprintf (plain '\'' ts) as = plain '\'' (fill ts as) := by
  fun_induction fill ts as with
  | case1 as => cases as <;> rfl
  | case2 c ts as ih =>
    simp only [percent, Bool.decide_and, Bool.and_eq_true, decide_eq_true_eq] at h
    rw [plain, plain, ← ih h.2 ha, sprintf]
    exact fun l a as _ hc => absurd hc h.1
  | case3 => cases ha
  | case4 s ts a as ih =>
    simp only [percent, Bool.decide_and, Bool.and_eq_true, decide_eq_true_eq] at h
    obtain ⟨rfl, h⟩ := h
    have hquote : ∀ (l : List Char) (as : List (List Char)), sprintf ('\'' :: l) as = '\'' :: sprintf l as :=
      fun l as => by cases as <;> rw [sprintf] <;> simp
    rw [plain, plain, hquote, ← ih h (Nat.succ.inj ha)]
    change '\'' :: (a ++ sprintf ('\'' :: plain '\'' ts) as) = _
    rw [hquote]

/-- What there is to check about a format with so many values and characters. -/
def checkFormat (fmt : List Char) (n len : ℕ) : Bool :=
  let ts := (scan '\'' none fmt).getD []
  plain '\'' ts = fmt && shaped '\'' ts && percent ts && (lits ts).length = n && fmt.length = len

/-- The number of characters of a statement without fields, with the directives in it. -/
def Statement.length : Statement → ℕ
  | .insertUser _ _ => 138
  | .updateUserState _ => 53
  | .updateUserName _ => 51
  | .selectPlatLoginName _ => 52
  | .selectUserState _ => 48

theorem checkFormat_format (st : Statement) : checkFormat st.format st.values.length st.length := by
  cases st with
  | insertUser => exact (by decide +kernel : checkFormat insertUserFormat 7 138 = true)
  | updateUserState => exact (by decide +kernel : checkFormat updateUserStateFormat 2 53 = true)
  | updateUserName => exact (by decide +kernel : checkFormat updateUserNameFormat 2 51 = true)
  | selectPlatLoginName => exact (by decide +kernel : checkFormat selectPlatLoginNameFormat 1 52 = true)
  | selectUserState => exact (by decide +kernel : checkFormat selectUserStateFormat 1 48 = true)

/-- A format as a text. -/
structure WellFormat (st : Statement) : Prop where
  plain : plain '\'' st.shape = st.format
  shaped : shaped '\'' st.shape
  percent : percent st.shape
  lits : (lits st.shape).length = st.values.length
  length : st.format.length = st.length

theorem wellFormat (st : Statement) : WellFormat st := by
  have h := checkFormat_format st
  simp only [checkFormat, Bool.and_eq_true, decide_eq_true_eq] at h
  exact ⟨h.1.1.1.1, h.1.1.1.2, h.1.1.2, h.1.2, h.2⟩

theorem room_le (st : Statement) : st.room ≤ 1024 := by
  cases st <;> simp [Statement.room]

theorem copied_eq_some {size : ℕ} {l text : List Char} :
    copied size l = some text ↔ l.length < size ∧ l = text := by
  rw [copied, Option.ite_none_right_eq_some, Option.some.injEq]

/-- **What is built.** -/
theorem text_eq (st : Statement) :
    st.text = copied st.room (plain '\'' (fill st.shape (st.values.map cString))) := by
  have hw := wellFormat st
  have hlen : (st.values.map cString).length = (lits st.shape).length := by
    rw [List.length_map, hw.lits]
  rw [Statement.text, ← sprintf_plain hw.percent hlen, hw.plain]

/-- The request has room for what is built. -/
theorem stored_eq (st : Statement) : st.stored = st.text := by
  rw [Statement.stored, text_eq]
  cases h : copied st.room _ with
  | none => rfl
  | some text =>
    obtain ⟨hlt, rfl⟩ := copied_eq_some.1 h
    exact copied_eq_some.2 ⟨lt_of_lt_of_le hlt (room_le st), rfl⟩

/-! ### What is read back -/

/-- A value that a literal can hold as it is. -/
def Clean (v : List Char) : Prop := '\'' ∉ v ∧ '\x00' ∉ v

theorem cString_length (v : List Char) : (cString v).length ≤ v.length :=
  (List.takeWhile_prefix _).length_le

theorem cString_eq {v : List Char} : (cString v).length = v.length ↔ '\x00' ∉ v := by
  constructor
  · intro h hv
    have heq : cString v = v := (List.takeWhile_prefix _).eq_of_length h
    have := List.mem_takeWhile_imp (heq.symm ▸ hv : '\x00' ∈ cString v)
    simp at this
  · intro h
    have heq : cString v = v := List.takeWhile_eq_self_iff.2 fun c hc => by
      simpa using fun (he : c = '\x00') => h (he ▸ hc)
    rw [heq]

/-- The values need as much room when quotes are doubled as their C strings when they are not. -/
theorem clean_of_length {vs : List (List Char)}
    (h : vs.flatten.length + (vs.map (List.count '\'')).sum ≤ (vs.map cString).flatten.length) :
    ∀ v ∈ vs, Clean v := by
  have hle : ∀ vs : List (List Char), (vs.map cString).flatten.length ≤ vs.flatten.length := by
    intro vs
    induction vs with
    | nil => exact Nat.le_refl _
    | cons v vs ih =>
      simp only [List.map_cons, List.flatten_cons, List.length_append]
      have := cString_length v
      omega
  induction vs with
  | nil => exact fun v hv => absurd hv List.not_mem_nil
  | cons v vs ih =>
    simp only [List.map_cons, List.flatten_cons, List.length_append, List.sum_cons] at h
    have h1 := cString_length v
    have h2 := hle vs
    refine List.forall_mem_cons.2 ⟨⟨?_, cString_eq.1 (by omega)⟩, ih (by omega)⟩
    exact List.count_eq_zero.1 (by omega)

theorem map_cString {vs : List (List Char)} (h : ∀ v ∈ vs, Clean v) : vs.map cString = vs := by
  refine (List.map_congr_left fun v hv => ?_).trans (List.map_id vs)
  exact (List.takeWhile_prefix _).eq_of_length (cString_eq.2 (h v hv).2)

theorem flatten_lits_length {ts : List (Token Char)} (h : percent ts) :
    (lits ts).flatten.length = 2 * (lits ts).length := by
  induction ts with
  | nil => rfl
  | cons t ts ih =>
    cases t with
    | code c =>
      simp only [percent, Bool.decide_and, Bool.and_eq_true, decide_eq_true_eq] at h
      exact ih h.2
    | lit s =>
      simp only [percent, Bool.decide_and, Bool.and_eq_true, decide_eq_true_eq] at h
      obtain ⟨rfl, h⟩ := h
      simp only [lits, List.flatten_cons, List.length_append, List.length_cons, List.length_nil, ih h]
      omega

/-- What is built is as long as the format with the values in place of the directives. -/
theorem plain_length (st : Statement) {vs : List (List Char)} (hvs : vs.length = st.values.length) :
    (plain '\'' (fill st.shape vs)).length + 2 * st.values.length = st.length + vs.flatten.length := by
  have hw := wellFormat st
  have h := plain_fill_length (q := '\'') (hvs.trans hw.lits.symm)
  rw [flatten_lits_length hw.percent, hw.lits, hw.plain, hw.length] at h
  exact h

/-- A statement is read back just when its values are clean and its text fits. -/
theorem decodes_iff_values (st : Statement) : st.Decodes ↔
    (∀ v ∈ st.values, Clean v) ∧ st.length + st.values.flatten.length < st.room + 2 * st.values.length := by
  have hw := wellFormat st
  have hvs : (st.values.map cString).length = st.values.length := List.length_map _
  have hclean : (∀ v ∈ st.values, Clean v) → st.values.map cString = st.values := map_cString
  rw [Statement.Decodes, stored_eq, text_eq]
  constructor
  · intro h
    obtain ⟨text, htext, hscan⟩ := Option.bind_eq_some_iff.1 h
    obtain ⟨hlt, rfl⟩ := copied_eq_some.1 htext
    have hlen := scan_fill (hvs.trans hw.lits.symm) hw.lits.symm hscan
    have hcl := clean_of_length (le_of_eq hlen.symm)
    have hpl := plain_length st hvs
    rw [hclean hcl] at hlt hpl
    exact ⟨hcl, by omega⟩
  · rintro ⟨hcl, hlt⟩
    have hpl := plain_length st (rfl : st.values.length = _)
    rw [hclean hcl, copied, if_pos (by omega)]
    refine scan_plain ((shaped_fill _ _).trans hw.shaped) fun v hv => (hcl v ?_).1
    rwa [lits_fill hw.lits.symm] at hv

/-! ### The fields -/

theorem padded_length (width n : ℕ) (hw : 0 < width) (hn : n < 10 ^ width) : (padded width n).length = width := by
  have h := (Nat.length_toDigits_le_iff (b := 10) (by decide) hw).2 hn
  rw [padded, List.length_append, List.length_replicate]
  omega

theorem isDigit_of_mem_padded {width n : ℕ} {c : Char} (h : c ∈ padded width n) : c.isDigit := by
  rcases List.mem_append.1 h with h | h
  · rw [(List.mem_replicate.1 h).2]
    decide
  · exact Nat.isDigit_of_mem_toDigits (by decide) (by decide) h

/-- The buffer of the date has room, and so has the literal. -/
theorem createUserTime_length (tm : Tm) : (createUserTime tm).length = 10 := by
  have h1 := padded_length 4 (tm.year + 1900) (by decide) tm.year_lt
  have h2 := padded_length 2 (tm.mon + 1) (by decide) (by have := tm.mon_lt; omega)
  have h3 := padded_length 2 tm.mday (by decide) (by have := tm.mday_lt; omega)
  simp only [createUserTime, List.length_append, List.length_cons, h1, h2, h3]

theorem clean_createUserTime (tm : Tm) : Clean (createUserTime tm) := by
  have h : ∀ c : Char, ¬ c.isDigit → c ≠ '-' → c ∉ createUserTime tm := by
    intro c hc hm hmem
    rw [createUserTime, List.mem_append, List.mem_append, List.mem_cons, List.mem_cons] at hmem
    rcases hmem with (hmem | hmem | hmem) | hmem | hmem
    · exact hc (isDigit_of_mem_padded hmem)
    · exact hm hmem
    · exact hc (isDigit_of_mem_padded hmem)
    · exact hm hmem
    · exact hc (isDigit_of_mem_padded hmem)
  exact ⟨h _ (by decide) (by decide), h _ (by decide) (by decide)⟩

/-- The values that are not fields of the record are clean. -/
theorem clean_values (st : Statement) : (∀ v ∈ st.values, Clean v) ↔ ∀ s ∈ st.fields, Clean s.toList := by
  have hroot : Clean "root".toList := ⟨by decide, by decide⟩
  cases st with
  | insertUser data tm =>
    have htime := clean_createUserTime tm
    simp only [Statement.values, Statement.fields, List.forall_mem_cons, hroot, htime, true_and]
    simp
  | updateUserState | updateUserName | selectPlatLoginName | selectUserState =>
    simp [Statement.values, Statement.fields]

theorem values_length (st : Statement) :
    (st.length + st.values.flatten.length < st.room + 2 * st.values.length) ↔
      (st.fields.map String.length).sum ≤ st.spare := by
  cases st with
  | insertUser data tm =>
    have hroot : "root".toList.length = 4 := by decide
    simp only [Statement.length, Statement.values, Statement.room, Statement.fields, Statement.spare,
      List.flatten_cons, List.flatten_nil, List.length_append, List.length_cons, List.length_nil, List.map_cons,
      List.map_nil, List.sum_cons, List.sum_nil, createUserTime_length, hroot, String.length_toList]
    omega
  | updateUserState | updateUserName | selectPlatLoginName | selectUserState =>
    simp only [Statement.length, Statement.values, Statement.room, Statement.fields, Statement.spare,
      List.flatten_cons, List.flatten_nil, List.length_append, List.length_cons, List.length_nil, List.map_cons,
      List.map_nil, List.sum_cons, List.sum_nil, String.length_toList]
    omega

/-- **The statements that are read back as they were meant.** -/
theorem decodes_iff (st : Statement) : st.Decodes ↔
    (∀ s ∈ st.fields, '\'' ∉ s.toList ∧ '\x00' ∉ s.toList) ∧ (st.fields.map String.length).sum ≤ st.spare := by
  rw [decodes_iff_values, clean_values, values_length]
  rfl

/-- A customer with an apostrophe in the name. -/
theorem not_decodes : ¬ (Statement.updateUserName { custAccunt := "13800000000", custName := "O'Brien" }).Decodes := by
  decide +kernel

end StNvs.Sync.Statements
