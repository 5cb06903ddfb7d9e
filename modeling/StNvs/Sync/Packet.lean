import StNvs.Sync.Parse
import StNvs.Sync.ReadInfo
import Mathlib

/-! # The replies of the synchronisation service

`PacketWebService` puts the results into an XML tree, with one cursor that it moves down and up again, has
the tree printed, and sends a header and the text with one `st_write`. The length of the text goes through
a buffer of 10 characters, and one byte more than the message is sent, the `NUL` behind it. A character
stands for a byte.

* `tree_results`: the tree has one `SyncResult` for each result, in order, with its five children.
* `find_blankLine`: where a reader of the message finds the end of the header.
* `packet_iff`: the message is well formed just when the status string itself ends the header. -/

namespace StNvs.Sync.Packet

open StNvs.Lib.Search StNvs.Sync.Parse
open StNvs.Sync.ReadInfo (int32)

/-- The characters of a C string. -/
def cStr (s : String) : List Char := s.toList.takeWhile (· ≠ '\x00')

structure SyncPlatformDataResult where
  serialNumber : String := ""
  errCode : String := ""
  desc : String := ""
  userState : String := ""
  viewName : String := ""
  deriving DecidableEq, Repr

/-! ### The tree -/

/-- `LinkEndChild` at the node that is reached by this way from the top. -/
def linkEndChild (c : Node) : List ℕ → Node → Node
  | [], .mk name text cs => .mk name text (cs ++ [c])
  | i :: way, .mk name text cs => .mk name text (cs.modify i (linkEndChild c way))

/-- The document and `m_pnode` of a `DMXml` that a tree is built with. -/
structure Writer where
  doc : Node
  node : Path

namespace Writer

/-- `NewRoot`. -/
def newRoot (name : String) : Writer := ⟨.mk "" none [.mk name none []], [0]⟩

/-- `NewChild`. -/
def newChild (name : String) (value : Option String) (w : Writer) : Writer :=
  ⟨linkEndChild (.mk name (value.map fun s => String.ofList (cStr s)) []) w.node.reverse w.doc,
    (kids w.doc w.node).length :: w.node⟩

/-- `GetParent`, below the document. -/
def getParent (w : Writer) : Writer := { w with node := w.node.tail }

/-- `NewChild(name, value)->GetParent()`. -/
def leaf (name value : String) (w : Writer) : Writer := (w.newChild name (some value)).getParent

/-- What the loop does with one result. -/
def result (r : SyncPlatformDataResult) (w : Writer) : Writer :=
  let w := w.newChild "SyncResult" none
  let w := w.leaf "StreamNo" r.serialNumber
  let w := w.leaf "Result" r.errCode
  let w := w.leaf "Descr" r.desc
  let w := w.leaf "OPFlag" r.userState
  let w := w.leaf "ViewerName" r.viewName
  w.getParent

end Writer

/-- The tree of the results. -/
def tree (rs : List SyncPlatformDataResult) : Node :=
  (rs.foldl (fun w r => w.result r) (Writer.newRoot "SyncResponseResult")).doc

/-! ### The message -/

/-- `%d` of an `int`. -/
def formatInt : ℤ → List Char
  | .ofNat n => Nat.toDigits 10 n
  | .negSucc n => '-' :: Nat.toDigits 10 (n + 1)

def crlf : List Char := ['\r', '\n']

def blankLine : List Char := ['\r', '\n', '\r', '\n']

/-- `sprintf_s(body_len, " %d\r\n", body.length())`, with 10 characters of room. -/
def bodyLen (n : ℕ) : Option (List Char) :=
  let text := ' ' :: formatInt (int32 n) ++ crlf
  if text.length < 10 then some text else none

def version : List Char := "HTTP/1.1 ".toList

def server : List Char := "Server: HMSyncPlatformServer".toList

def contentType : List Char := "Content-Type: text/html".toList

def acceptRanges : List Char := "Accept-Ranges: byte".toList

def connection : List Char := "Connection: close".toList

def contentLength : List Char := "Content-Length:".toList

/-- The header. -/
def head (status len : List Char) : List Char :=
  version ++ status ++ crlf ++ (server ++ crlf) ++ (contentType ++ crlf) ++ (acceptRanges ++ crlf) ++
    (connection ++ crlf) ++ (contentLength ++ [' ']) ++ len ++ crlf

/-- The body, when the printer gives these texts. -/
def bodyOf (print : Node → String) (rs : List SyncPlatformDataResult) : List Char :=
  if rs ≠ [] then cStr (print (tree rs))
  else "<body>This is HMSyncPlatformServer, Is Running!</body>".toList

/-- `PacketWebService`: what it hands to `st_write`, `msg.length()+1` bytes of `msg.c_str()`. -/
def packetWebService (print : Node → String) (status : String) (rs : List SyncPlatformDataResult) :
    Option (List Char) :=
  let body := bodyOf print rs
  (bodyLen body.length).map fun len => head (cStr status) len ++ body ++ ['\x00']

/-! ### A reader -/

/-- The lines of a header. -/
def lines : List Char → List (List Char)
  | [] => [[]]
  | '\r' :: '\n' :: l => [] :: lines l
  | c :: l => match lines l with
    | [] => [[c]]
    | x :: xs => (c :: x) :: xs

/-- The decimal value in a line, after the name of the field. -/
def value (line : List Char) : Option ℕ :=
  let ds := (line.drop contentLength.length).dropWhile (· = ' ')
  if ds ≠ [] ∧ ∀ c ∈ ds, c.isDigit then some (Nat.ofDigitChars 10 ds 0) else none

/-- The values in the `Content-Length` lines. -/
def lengths (header : List Char) : List (Option ℕ) := ((lines header).filter (contentLength.isPrefixOf ·)).map value

/-- What is sent is a header block that the first blank line ends, and a body of the length that the
`Content-Length` line says. -/
def WellFormed (msg : List Char) : Prop :=
  ∃ i, find blankLine msg = some i ∧ lengths (msg.take i) ≠ [] ∧
    ∀ v ∈ lengths (msg.take i), v = some (msg.length - (i + blankLine.length))

/-- A field of a result, in the tree. -/
def field (name value : String) : Node := .mk name (some (String.ofList (cStr value))) []

/-- A result, in the tree. -/
def resultNode (r : SyncPlatformDataResult) : Node :=
  .mk "SyncResult" none [field "StreamNo" r.serialNumber, field "Result" r.errCode, field "Descr" r.desc,
    field "OPFlag" r.userState, field "ViewerName" r.viewName]

/-- The reply is sent and well formed, and the tree in it is that of the results. -/
structure Right (print : Node → String) (status : String) (rs : List SyncPlatformDataResult) : Prop where
  message : ∃ msg, packetWebService print status rs = some msg ∧ WellFormed msg
  tree : rs ≠ [] → tree rs = .mk "" none [.mk "SyncResponseResult" none (rs.map resultNode)]

variable {cs fs : List Node} {name status : String} {l l' : List Char} {n : ℕ}

/-! ### The tree of the results -/

theorem modify_append_last (f : Node → Node) (x : Node) : (cs ++ [x]).modify cs.length f = cs ++ [f x] := by
  induction cs with
  | nil => rfl
  | cons c cs ih => exact congrArg (c :: ·) ih

/-- The cursor is at the last `SyncResult`. -/
def at_result (cs fs : List Node) : Writer :=
  ⟨.mk "" none [.mk "SyncResponseResult" none (cs ++ [.mk "SyncResult" none fs])], [cs.length, 0]⟩

theorem leaf_result {v : String} : (at_result cs fs).leaf name v = at_result cs (fs ++ [field name v]) := by
  unfold Writer.leaf Writer.newChild Writer.getParent at_result
  simp only [List.tail_cons, Writer.mk.injEq, and_true]
  change Node.mk "" none [Node.mk "SyncResponseResult" none ((cs ++ [_]).modify cs.length _)] = _
  rw [modify_append_last]
  rfl

theorem result_eq (r : SyncPlatformDataResult) :
    Writer.result r ⟨.mk "" none [.mk "SyncResponseResult" none cs], [0]⟩ =
      ⟨.mk "" none [.mk "SyncResponseResult" none (cs ++ [resultNode r])], [0]⟩ := by
  have h0 : Writer.newChild "SyncResult" none ⟨.mk "" none [.mk "SyncResponseResult" none cs], [0]⟩ =
      at_result cs [] := rfl
  unfold Writer.result
  simp only [h0, leaf_result]
  rfl

/-- **The tree of the results.** -/
theorem tree_results (rs : List SyncPlatformDataResult) :
    tree rs = .mk "" none [.mk "SyncResponseResult" none (rs.map resultNode)] := by
  have hfold : ∀ (rs : List SyncPlatformDataResult) (cs : List Node),
      rs.foldl (fun w r => Writer.result r w) ⟨.mk "" none [.mk "SyncResponseResult" none cs], [0]⟩ =
        ⟨.mk "" none [.mk "SyncResponseResult" none (cs ++ rs.map resultNode)], [0]⟩ := by
    intro rs
    induction rs with
    | nil => simp
    | cons r rs ih =>
      intro cs
      rw [List.foldl_cons, result_eq, ih]
      simp
  unfold tree Writer.newRoot
  rw [hfold]
  rfl

/-! ### The header -/

theorem lines_ne_nil (l : List Char) : lines l ≠ [] := by
  fun_cases lines l <;> simp

/-- A character that does not begin a line end is the first of its line. -/
theorem lines_cons {c : Char} (h : c = '\r' → l.head? ≠ some '\n') :
    ∃ x xs, lines l = x :: xs ∧ lines (c :: l) = (c :: x) :: xs := by
  obtain ⟨x, xs, hx⟩ := List.exists_cons_of_ne_nil (lines_ne_nil l)
  refine ⟨x, xs, hx, ?_⟩
  rw [lines]
  · rw [hx]
  · rintro t rfl rfl
    exact h rfl rfl

/-- The lines of two parts with a line end between them. -/
theorem lines_append (l l' : List Char) : lines (l ++ crlf ++ l') = lines l ++ lines l' := by
  induction l using lines.induct with
  | case1 => rfl
  | case2 l ih => exact congrArg ([] :: ·) ih
  | case3 c l hne heq ih => exact absurd heq (lines_ne_nil l)
  | case4 c l hne x xs heq ih =>
    have h1 : c = '\r' → l.head? ≠ some '\n' := fun hc hl => by
      obtain ⟨t, rfl⟩ := List.head?_eq_some_iff.1 hl
      exact hne t hc rfl
    have h2 : c = '\r' → (l ++ crlf ++ l').head? ≠ some '\n' := fun hc hl => by
      cases l with
      | nil => simp [crlf] at hl
      | cons d l => exact h1 hc hl
    obtain ⟨x, xs, hl, hcl⟩ := lines_cons h1
    obtain ⟨y, ys, hl', hcl'⟩ := lines_cons h2
    rw [ih, hl] at hl'
    obtain ⟨rfl, rfl⟩ := List.cons.inj hl'
    change lines (c :: (l ++ crlf ++ l')) = _
    rw [hcl', hcl]
    rfl

theorem lines_of_not_mem (h : '\r' ∉ l) : lines l = [l] := by
  induction l with
  | nil => rfl
  | cons c l ih =>
    obtain ⟨hc, hl⟩ := not_or.1 fun hm => h (List.mem_cons.2 hm)
    obtain ⟨x, xs, hx, hcl⟩ := lines_cons (c := c) (l := l) fun he => absurd he.symm hc
    rw [ih hl] at hx
    obtain ⟨rfl, rfl⟩ := List.cons.inj hx
    exact hcl

/-- What is printed for an `int` is on one line. -/
theorem not_mem_formatInt (x : ℤ) {c : Char} (hc : ¬ c.isDigit) (hm : c ≠ '-') : c ∉ formatInt x := by
  cases x with
  | ofNat n => exact fun h => hc (Nat.isDigit_of_mem_toDigits (by decide) (by decide) h)
  | negSucc n =>
    rintro h
    rcases List.mem_cons.1 h with h | h
    · exact hm h
    · exact hc (Nat.isDigit_of_mem_toDigits (by decide) (by decide) h)

/-- The line of the length is not that of a body with one byte more. -/
theorem value_bodyLen (n : ℕ) : value (contentLength ++ ' ' :: ' ' :: formatInt (int32 n)) ≠ some (n + 1) := by
  have hdrop : (contentLength ++ ' ' :: ' ' :: formatInt (int32 n)).drop contentLength.length =
      ' ' :: ' ' :: formatInt (int32 n) := List.drop_left
  unfold value
  rw [hdrop]
  have hle : int32 n ≤ n := by
    unfold int32
    omega
  cases hx : int32 n with
  | ofNat m =>
    have hd : (' ' :: ' ' :: Nat.toDigits 10 m).dropWhile (· = ' ') = Nat.toDigits 10 m := by
      cases ht : Nat.toDigits 10 m with
      | nil => exact absurd ht Nat.toDigits_ne_nil
      | cons c ds =>
        have hc : c.isDigit := Nat.isDigit_of_mem_toDigits (b := 10) (n := m) (by decide) (by decide) (by simp [ht])
        have hne : c ≠ ' ' := by
          rintro rfl
          exact absurd hc (by decide)
        simp [hne]
    simp only [formatInt, hd]
    rw [Nat.ofDigitChars_ten_toDigits]
    split_ifs
    · rw [hx] at hle
      have : m ≤ n := by simpa using hle
      simp only [ne_eq, Option.some.injEq]
      omega
    · nofun
  | negSucc m =>
    have hd : (' ' :: ' ' :: '-' :: Nat.toDigits 10 (m + 1)).dropWhile (· = ' ') =
        '-' :: Nat.toDigits 10 (m + 1) := by simp
    simp only [formatInt, hd]
    rw [if_neg]
    · nofun
    · exact fun h => absurd (h.2 '-' List.mem_cons_self) (by decide)

/-- The lines of the header after the first, up to the length. -/
def fixed : List Char :=
  server ++ crlf ++ (contentType ++ crlf) ++ (acceptRanges ++ crlf) ++ (connection ++ crlf) ++ contentLength

/-- The status line, with its end. -/
def statusLine (status : String) : List Char := version ++ cStr status ++ crlf

/-- What is sent for a body, after the status line. -/
def rest (body : List Char) : List Char :=
  fixed ++ ' ' :: (' ' :: formatInt (int32 body.length)) ++ blankLine ++ (body ++ ['\x00'])

theorem head_eq (status ds : List Char) : head status (' ' :: ds ++ crlf) =
    version ++ status ++ crlf ++ (fixed ++ ' ' :: (' ' :: ds) ++ blankLine) := by
  have hblank : blankLine = crlf ++ crlf := rfl
  rw [head, fixed, hblank]
  simp only [List.append_assoc, List.cons_append, List.nil_append]

theorem eq_of_bodyLen {text : List Char} (h : bodyLen n = some text) :
    text = ' ' :: formatInt (int32 n) ++ crlf := by
  unfold bodyLen at h
  generalize ' ' :: formatInt (int32 n) ++ crlf = t at h
  exact (Option.some.inj (Option.ite_none_right_eq_some.1 h).2).symm

theorem packet_eq (print : Node → String) (status : String) (rs : List SyncPlatformDataResult) :
    packetWebService print status rs =
      (bodyLen (bodyOf print rs).length).map fun _ => statusLine status ++ rest (bodyOf print rs) := by
  unfold packetWebService
  generalize bodyOf print rs = body
  cases h : bodyLen body.length with
  | none => simp only [h, Option.map_none]
  | some text =>
    dsimp only
    obtain rfl := eq_of_bodyLen h
    rw [h, Option.map_some, Option.map_some, head_eq, statusLine, rest]
    simp only [List.append_assoc]

/-- Lines that have no blank line have none between them. -/
theorem find_append_cons {c : Char} (hc : c ∉ blankLine) (hl : find blankLine l = none)
    (hl' : find blankLine (c :: l') = none) : find blankLine (l ++ c :: l') = none := by
  rw [find_append_of_none (by decide) hc hl, hl', Option.map_none]

theorem find_fixed : find blankLine fixed = none := by
  have happ : fixed = (server ++ crlf) ++ ((contentType ++ crlf) ++ ((acceptRanges ++ crlf) ++
      ((connection ++ crlf) ++ contentLength))) := by
    simp only [fixed, List.append_assoc]
  have h1 : find blankLine (server ++ crlf) = none := by decide +kernel
  have h2 : find blankLine (contentType ++ crlf) = none := by decide +kernel
  have h3 : find blankLine (acceptRanges ++ crlf) = none := by decide +kernel
  have h4 : find blankLine (connection ++ crlf) = none := by decide +kernel
  have h5 : find blankLine contentLength = none := by decide +kernel
  rw [happ]
  refine find_append_cons (c := 'C') (by decide) h1 ?_
  refine find_append_cons (c := 'A') (by decide) h2 ?_
  refine find_append_cons (c := 'C') (by decide) h3 ?_
  exact find_append_cons (c := 'C') (by decide) h4 h5

/-- Where the header ends behind the line of the length. -/
theorem find_header {ds : List Char} (hds : '\r' ∉ ds) (t : List Char) :
    find blankLine (fixed ++ ' ' :: ds ++ blankLine ++ t) = some (fixed ++ ' ' :: ds).length := by
  have hblank : '\r' :: ['\n', '\r', '\n'] = blankLine := rfl
  have hfind : find ('\r' :: ['\n', '\r', '\n']) (' ' :: ds ++ ('\r' :: ['\n', '\r', '\n']) ++ t) =
      some (' ' :: ds).length := find_of_not_mem fun h => (List.mem_cons.1 h).elim (by decide) hds
  rw [hblank, List.cons_append, List.cons_append] at hfind
  rw [List.append_assoc fixed, List.append_assoc fixed, List.cons_append, List.cons_append,
    find_append_of_none (by decide) (by decide) find_fixed, hfind]
  simp only [Option.map_some, List.length_append, Nat.add_comm]

/-- Where the header ends that the status line does not end. -/
theorem find_message {s ds : List Char} (hs : find blankLine s = none) (hds : '\r' ∉ ds) (t : List Char) :
    find blankLine (s ++ (fixed ++ ' ' :: ds) ++ (blankLine ++ t)) = some (s ++ (fixed ++ ' ' :: ds)).length := by
  obtain ⟨x, hx⟩ : ∃ x, fixed = 'S' :: x := ⟨_, rfl⟩
  have hrest := find_header hds t
  rw [hx] at hrest ⊢
  simp only [List.append_assoc, List.cons_append] at hrest ⊢
  rw [find_append_of_none (by decide) (by decide) hs, hrest]
  simp only [Option.map_some, List.length_append, Nat.add_comm]

/-- The line of the length. -/
theorem mem_lines {ds : List Char} (hds : '\r' ∉ ds) (s : List Char) :
    contentLength ++ ds ∈ lines (s ++ (fixed ++ ds)) := by
  have hname : '\r' ∉ contentLength := by decide +kernel
  have hnot : '\r' ∉ contentLength ++ ds := fun h => (List.mem_append.1 h).elim hname hds
  have hsplit : s ++ (fixed ++ ds) =
      s ++ (server ++ crlf ++ (contentType ++ crlf) ++ (acceptRanges ++ crlf) ++ connection) ++ crlf ++
        (contentLength ++ ds) := by
    simp only [fixed, List.append_assoc]
  rw [hsplit, lines_append, lines_of_not_mem hnot]
  exact List.mem_append_right _ List.mem_cons_self

/-- A header that the status line does not end, with another length than that of what comes behind it. -/
theorem not_wellFormed_of_value {s ds t : List Char} (hs : find blankLine s = none) (hds : '\r' ∉ ds)
    (hv : value (contentLength ++ ' ' :: ds) ≠ some t.length) :
    ¬ WellFormed (s ++ (fixed ++ ' ' :: ds) ++ (blankLine ++ t)) := by
  rintro ⟨i, hi, -, hall⟩
  rw [find_message hs hds] at hi
  obtain rfl := Option.some.inj hi
  rw [List.take_left] at hall
  have hmem : contentLength ++ ' ' :: ds ∈
      (lines (s ++ (fixed ++ ' ' :: ds))).filter (contentLength.isPrefixOf ·) :=
    List.mem_filter.2 ⟨mem_lines (fun h => (List.mem_cons.1 h).elim (by decide) hds) s,
      List.isPrefixOf_iff_prefix.2 (List.prefix_append _ _)⟩
  refine hv ((hall _ (List.mem_map_of_mem hmem)).trans (congrArg some ?_))
  simp only [List.length_append]
  omega

/-- The message counts one byte too many when the status line does not end the header. -/
theorem not_wellFormed {s : List Char} (hs : find blankLine s = none) (body : List Char) :
    ¬ WellFormed (s ++ rest body) := by
  have hds : '\r' ∉ ' ' :: formatInt (int32 body.length) := by
    simp [not_mem_formatInt (int32 body.length) (c := '\r') (by decide) (by decide)]
  have hlen : (body ++ ['\x00']).length = body.length + 1 := by rw [List.length_append, List.length_singleton]
  rw [rest, List.append_assoc _ blankLine, ← List.append_assoc s]
  refine not_wellFormed_of_value hs hds ?_
  rw [hlen]
  exact value_bodyLen body.length

theorem formatInt_length (x : ℤ) : (formatInt x).length ≤ 6 ↔ -100000 < x ∧ x < 1000000 := by
  rcases x with m | m
  · have h := Nat.length_toDigits_le_iff (b := 10) (n := m) (k := 6) (by decide) (by decide)
    refine h.trans ?_
    rw [Int.ofNat_eq_natCast]
    omega
  · have h := Nat.length_toDigits_le_iff (b := 10) (n := m + 1) (k := 5) (by decide) (by decide)
    refine Nat.succ_le_succ_iff.trans (h.trans ?_)
    rw [Int.negSucc_eq]
    omega

/-- When the text of the length has room. -/
theorem bodyLen_isSome (n : ℕ) : (bodyLen n).isSome ↔ -100000 < int32 n ∧ int32 n < 1000000 := by
  refine Iff.trans ?_ (formatInt_length (int32 n))
  unfold bodyLen
  generalize formatInt (int32 n) = ds
  have hlen : (' ' :: ds ++ crlf).length = ds.length + 3 := by
    rw [List.length_append, List.length_cons]
    rfl
  by_cases h : (' ' :: ds ++ crlf).length < 10
  · rw [if_pos h]
    exact iff_of_true rfl (by omega)
  · rw [if_neg h]
    exact iff_of_false (by decide) (by omega)

/-- The status string itself ends the header, with the length of all that is sent behind it. -/
def ClosesItself (status : String) (body : List Char) : Prop :=
  ∃ i, find blankLine (statusLine status) = some i ∧ lengths ((statusLine status).take i) ≠ [] ∧
    ∀ v ∈ lengths ((statusLine status).take i),
      v = some ((statusLine status).length + (rest body).length - (i + blankLine.length))

/-- A message is well formed just when the status string itself closes it. -/
theorem wellFormed_iff (status : String) (body : List Char) :
    WellFormed (statusLine status ++ rest body) ↔ ClosesItself status body := by
  cases hs : find blankLine (statusLine status) with
  | none => exact iff_of_false (not_wellFormed hs body) fun ⟨_, hi, _⟩ => nomatch hs.symm.trans hi
  | some i =>
    have hi := find_append (t := rest body) (by decide) hs
    have hlen := find_length hs (by decide)
    have htake : (statusLine status ++ rest body).take i = (statusLine status).take i :=
      List.take_append_of_le_length (Nat.le_of_add_right_le hlen)
    unfold WellFormed ClosesItself
    simp only [hs, hi, Option.some.injEq, exists_eq_left', htake, List.length_append]

/-- **The replies that are well formed.** -/
theorem packet_iff (print : Node → String) (status : String) (rs : List SyncPlatformDataResult) :
    Right print status rs ↔
      (-100000 < int32 (bodyOf print rs).length ∧ int32 (bodyOf print rs).length < 1000000) ∧
        ClosesItself status (bodyOf print rs) := by
  rw [← bodyLen_isSome, ← wellFormed_iff]
  constructor
  · rintro ⟨⟨msg, hmsg, hw⟩, -⟩
    rw [packet_eq] at hmsg
    obtain ⟨text, htext, rfl⟩ := Option.map_eq_some_iff.1 hmsg
    exact ⟨by rw [htext]; rfl, hw⟩
  · rintro ⟨hsome, hw⟩
    obtain ⟨text, htext⟩ := Option.isSome_iff_exists.1 hsome
    exact ⟨⟨_, by rw [packet_eq, htext]; rfl, hw⟩, fun _ => tree_results rs⟩

/-- The reply without results, when all went well. -/
theorem not_packet : ¬ Right (fun _ => "") "200 OK" [] := by
  rintro ⟨⟨msg, hmsg, hw⟩, -⟩
  rw [packet_eq] at hmsg
  obtain ⟨text, -, rfl⟩ := Option.map_eq_some_iff.1 hmsg
  exact not_wellFormed (by decide +kernel) _ hw

end StNvs.Sync.Packet
