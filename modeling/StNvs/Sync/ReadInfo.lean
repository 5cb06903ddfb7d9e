import StNvs.Lib.Search
import Mathlib.Algebra.Ring.Int.Defs
import Mathlib.Algebra.Ring.Nat
import Mathlib.Data.Int.Notation
import Mathlib.Data.List.TakeWhile
import Mathlib.Tactic.Common

/-! # The body of a request

`ReadInfo` reads a request with one `st_read`, looks for the blank line after the header and for the
`Content-Length` in it, reads what is missing with `st_read_fully`, and appends it as a C string. The
transport decides how many bytes each read returns, and the buffer for what is missing is followed by
whatever memory comes after it.

* `contentLen_header`: the length is that after the first `Content-Length:`, which need not be the one that
  begins a line.
* `readInfo_cut`, `readInfo_all`, `readInfo_rest`, `readInfo_more`: the ways it can go.
* `readInfo_iff`: when the body is the one that was sent.
* `gathered_line`: what that comes to when the line with the length is the first place where the words
  stand. -/

namespace StNvs.Sync.ReadInfo

open StNvs.Lib.Search

/-! ### Reads -/

/-- The bytes that a read of at most `n` bytes returns, when the transport would hand over `k`. -/
def clip (n k : ℕ) (stream : List UInt8) : ℕ := max 1 (min k (min n stream.length))

/-- `st_read_fully` of `n` bytes, by reads of these sizes, the last of which gets what is left; `none` if it
waits for ever. -/
def readFully (n : ℕ) (stream : List UInt8) : List ℕ → Option (List UInt8)
  | [] => if n ≤ stream.length then some (stream.take n) else none
  | k :: ks =>
    if n = 0 then some []
    else if stream = [] then none
    else
      let m := clip n k stream
      (readFully (n - m) (stream.drop m) ks).map (stream.take m ++ ·)

theorem readFully_eq {ks : List ℕ} : ∀ {n : ℕ} {stream : List UInt8}, n ≤ stream.length →
    readFully n stream ks = some (stream.take n) := by
  induction ks with
  | nil => exact fun h => if_pos h
  | cons k ks ih =>
    intro n stream h
    unfold readFully
    split_ifs with h0 hs
    · rw [h0, List.take_zero]
    · rw [hs] at h
      exact absurd (Nat.le_zero.1 h) h0
    · have hm : clip n k stream ≤ n := by
        unfold clip
        omega
      have hlen : n - clip n k stream ≤ (stream.drop (clip n k stream)).length := by
        rw [List.length_drop]
        omega
      have hsum : n = clip n k stream + (n - clip n k stream) := by omega
      dsimp only
      rw [ih hlen, Option.map_some]
      conv_rhs => rw [hsum]
      rw [List.take_add]

/-- It waits for ever for what is not sent. -/
theorem readFully_none {ks : List ℕ} : ∀ {n : ℕ} {stream : List UInt8}, stream.length < n →
    readFully n stream ks = none := by
  induction ks with
  | nil => exact fun h => if_neg (Nat.not_le.2 h)
  | cons k ks ih =>
    intro n stream h
    unfold readFully
    split_ifs with h0 hs
    · omega
    · rfl
    · have hm : clip n k stream ≤ stream.length := by
        have := List.length_pos_iff.2 hs
        unfold clip
        omega
      have hlen : (stream.drop (clip n k stream)).length < n - clip n k stream := by
        rw [List.length_drop]
        omega
      dsimp only
      rw [ih hlen]
      rfl

/-! ### Numbers -/

/-- The conversion to `UINT32`. -/
def uint32 (x : ℤ) : ℕ := (x % 2 ^ 32).toNat

/-- The conversion to `INT32` and `int`. -/
def int32 (x : ℤ) : ℤ := (x + 2 ^ 31) % 2 ^ 32 - 2 ^ 31

def isSpace (c : UInt8) : Bool := c = 32 || (9 ≤ c && c ≤ 13)

def isDigit (c : UInt8) : Bool := 48 ≤ c && c ≤ 57

/-- The number that digits spell. -/
def decimal (digits : List UInt8) : ℕ := digits.foldl (fun n d => 10 * n + (d.toNat - 48)) 0

/-- `atoi`; what is too large gives the largest `int`. -/
def atoi (s : List UInt8) : ℤ :=
  match s.dropWhile isSpace with
  | 45 :: s => max (-(decimal (s.takeWhile isDigit) : ℤ)) (-2 ^ 31)
  | 43 :: s => min (decimal (s.takeWhile isDigit) : ℤ) (2 ^ 31 - 1)
  | s => min (decimal (s.takeWhile isDigit) : ℤ) (2 ^ 31 - 1)

/-- `std::string::substr`. -/
def substr (l : List UInt8) (pos : ℕ) (n : ℤ) : List UInt8 := (l.drop pos).take (uint32 n)

/-- A position as `INT32`; `npos` is `-1`. -/
def position (o : Option ℕ) : ℤ := o.elim (-1) fun i => (i : ℤ)

/-! ### `ReadInfo` -/

/-- A carriage return and a line feed. -/
def crlf : List UInt8 := [13, 10]

/-- Two of them. -/
def blankLine : List UInt8 := [13, 10, 13, 10]

/-- `POST` -/
def post : List UInt8 := [80, 79, 83, 84]

/-- `Content-Length` -/
def contentLength : List UInt8 := [67, 111, 110, 116, 101, 110, 116, 45, 76, 101, 110, 103, 116, 104]

/-- The length in a header. -/
def contentLen (header : List UInt8) : Option ℕ :=
  match find (contentLength ++ [58]) header with
  | none => none
  | some pos =>
    if 0 < pos then
      let endpos := position ((find crlf (header.drop pos)).map (pos + ·))
      let phrlen := endpos - pos
      let contlen := substr header pos phrlen
      let colon := position (find [58] contlen)
      some (uint32 (atoi (substr contlen (colon + 1).toNat (phrlen - colon - 1))))
    else none

/-- The bytes of a C string in memory. -/
def cString (memory : List UInt8) : List UInt8 := memory.takeWhile (· ≠ 0)

/-- `ReadInfo`: the body it sets. The first read would get `k` bytes and the others `ks`; `after` is the
memory after the buffer for them. -/
def readInfo (stream : List UInt8) (k : ℕ) (ks : List ℕ) (after : List UInt8) : Option (List UInt8) :=
  if stream = [] then none
  else
    let readLen := clip 2047 k stream
    let webInfo := cString (stream.take readLen)
    match find blankLine webInfo with
    | none => some []
    | some bodyPos =>
      if bodyPos = 0 then some []
      else
        let header := webInfo.take bodyPos
        match contentLen header with
        | none => some []
        | some bodylen =>
          let totalLen := int32 (header.length + bodylen + 4)
          if find post webInfo = none then some []
          else if (readLen : ℤ) < totalLen then
            (readFully (totalLen - readLen).toNat (stream.drop readLen) ks).map fun buf =>
              (webInfo ++ cString (buf ++ after)).drop (bodyPos + 4)
          else some (webInfo.drop (bodyPos + 4))

/-! ### Requests -/

/-- A request: its header, at most 2000 bytes, has a `Content-Length` with the length of the body, and
what is between them is a blank line. The words may stand elsewhere in the header too. -/
structure Request where
  front : List UInt8
  digits : List UInt8
  rest : List UInt8
  body : List UInt8
  starts : post <+: front
  isNumber : digits ≠ [] ∧ ∀ c ∈ digits, isDigit c
  length : decimal digits = body.length
  line : rest = [] ∨ crlf <+: rest
  blank : find blankLine (front ++ (contentLength ++ [58] ++ 32 :: digits) ++ rest ++ blankLine) =
    some (front ++ (contentLength ++ [58] ++ 32 :: digits) ++ rest).length
  short : (front ++ (contentLength ++ [58] ++ 32 :: digits) ++ rest).length ≤ 2000
  text : 0 ∉ body

namespace Request

def header (r : Request) : List UInt8 :=
  r.front ++ (contentLength ++ [58] ++ 32 :: r.digits) ++ r.rest

def stream (r : Request) : List UInt8 := r.header ++ blankLine ++ r.body

end Request

/-- The text after the first `Content-Length:` of a header, up to the end of its line. -/
def lengthText (header : List UInt8) : List UInt8 :=
  (find (contentLength ++ [58]) header).elim [] fun pos =>
    let text := header.drop (pos + 15)
    text.take ((find crlf text).getD text.length)

/-- The length of a request with this header that it announces, header and blank line included, as an
`int`. -/
def announced (header : List UInt8) : ℤ :=
  int32 (header.length + uint32 (atoi (lengthText header)) + 4)

/-- Either the blank line does not come with the first read, and the body is empty; or the header has no zero
byte and comes with it, and the whole request comes and no more is announced; or something is announced
that is still to come, and what the body has after that is what the memory after the buffer holds. -/
def Gathered (r : Request) (k : ℕ) (after : List UInt8) : Prop :=
  let readLen := clip 2047 k r.stream
  if 0 ∈ r.header ∨ readLen < r.header.length + 4 then r.body = []
  else if readLen = r.stream.length then announced r.header ≤ readLen
  else readLen < announced r.header ∧ announced r.header ≤ r.stream.length ∧
    r.stream.drop (announced r.header).toNat = cString after

instance decidableGathered (r : Request) (k : ℕ) (after : List UInt8) : Decidable (Gathered r k after) := by
  unfold Gathered
  infer_instance

variable {r : Request} {k : ℕ} {ks : List ℕ} {after ds : List UInt8}

/-! ### The length -/

theorem atoi_digits (hne : ds ≠ []) (hd : ∀ c ∈ ds, isDigit c) :
    atoi (32 :: ds) = min (decimal ds : ℤ) (2 ^ 31 - 1) := by
  cases ds with
  | nil => exact absurd rfl hne
  | cons d ds =>
    have hd' : isDigit d = true := hd d List.mem_cons_self
    have hspace : isSpace d = false := by
      simp only [isDigit, isSpace, Bool.and_eq_true, decide_eq_true_eq, Bool.or_eq_false_iff,
        decide_eq_false_iff_not, Bool.and_eq_false_iff, UInt8.le_iff_toNat_le, ← UInt8.toNat_inj] at hd' ⊢
      simp at hd' ⊢
      omega
    have htake : (d :: ds).takeWhile isDigit = d :: ds := List.takeWhile_eq_self_iff.2 hd
    have hdrop : (32 :: d :: ds).dropWhile isSpace = d :: ds := by
      rw [List.dropWhile_cons_of_pos (by decide), List.dropWhile_cons_of_neg (by simp [hspace])]
    unfold atoi
    rw [hdrop]
    split
    next s he =>
      obtain ⟨rfl, -⟩ := List.cons.inj he
      exact absurd hd' (by decide)
    next s he =>
      obtain ⟨rfl, -⟩ := List.cons.inj he
      exact absurd hd' (by decide)
    next => rw [htake]

/-- What is cut out after the colon of the line. -/
theorem cut_text {text : List UInt8} {phrlen : ℤ} (hn : text.length ≤ uint32 (phrlen - 15)) :
    substr (contentLength ++ [58] ++ text)
      (position (find [58] (contentLength ++ [58] ++ text)) + 1).toNat
      (phrlen - position (find [58] (contentLength ++ [58] ++ text)) - 1) = text := by
  have hcolon : find [58] (contentLength ++ [58] ++ text) = some 14 :=
    find_of_not_mem (l := contentLength) (by decide)
  have hdrop : (contentLength ++ [58] ++ text).drop 15 = text := rfl
  have hphr : phrlen - 14 - 1 = phrlen - 15 := by omega
  rw [hcolon]
  unfold substr
  change ((contentLength ++ [58] ++ text).drop 15).take (uint32 (phrlen - 14 - 1)) = text
  rw [hdrop, hphr]
  exact List.take_of_length_le hn

/-- `ReadInfo` reads the number after the first `Content-Length:`, unless the header begins with it. -/
theorem contentLen_eq {header : List UInt8} {pos : ℕ} (hshort : header.length ≤ 2000)
    (hf : find (contentLength ++ [58]) header = some pos) (hpos : 0 < pos) :
    contentLen header = some (uint32 (atoi (lengthText header))) := by
  obtain ⟨text, htext⟩ := prefix_find hf
  have hdrop : header.drop (pos + 15) = text := by
    rw [← List.drop_drop, ← htext]
    rfl
  have hlen : pos + 15 + text.length = header.length := by
    have h := congrArg List.length htext
    simp only [contentLength, List.length_append, List.length_cons, List.length_nil, List.length_drop] at h
    omega
  have hcrlf : find crlf (header.drop pos) = (find crlf text).map (· + 15) := by
    rw [← htext]
    exact find_append_of_not_mem (by decide)
  unfold contentLen lengthText
  rw [hf]
  dsimp only [Option.elim_some]
  rw [if_pos hpos, hcrlf, hdrop]
  cases hc : find crlf text with
  | none =>
    have hcut : substr header pos (-1 - pos) = contentLength ++ [58] ++ text := by
      unfold substr
      rw [← htext]
      refine List.take_of_length_le ?_
      simp only [contentLength, List.length_append, List.length_cons, List.length_nil, uint32]
      omega
    have hn : text.length ≤ uint32 (-1 - pos - 15) := by
      unfold uint32
      omega
    have hphr : position (Option.map (pos + ·) (Option.map (· + 15) none)) - pos = -1 - pos := rfl
    rw [hphr, hcut, cut_text hn, Option.getD_none, List.take_length]
  | some j =>
    have hj : j ≤ text.length := by
      have := find_length hc (by decide)
      omega
    have hphr : position (Option.map (pos + ·) (Option.map (· + 15) (some j))) - pos = j + 15 := by
      simp only [Option.map_some, position, Option.elim_some]
      omega
    have hcut : substr header pos (j + 15) = contentLength ++ [58] ++ text.take j := by
      have hnum : uint32 (j + 15) = (contentLength ++ [58]).length + j := by
        simp only [contentLength, List.length_append, List.length_cons, List.length_nil, uint32]
        omega
      unfold substr
      rw [← htext, hnum, List.take_length_add_append]
    have hn : (text.take j).length ≤ uint32 ((j : ℤ) + 15 - 15) := by
      rw [List.length_take]
      unfold uint32
      omega
    rw [hphr, hcut, cut_text hn, Option.getD_some]

theorem contentLen_header (r : Request) :
    contentLen r.header = some (uint32 (atoi (lengthText r.header))) := by
  have hline : contentLength ++ [58] <+: r.header.drop r.front.length := by
    rw [Request.header, List.append_assoc, List.drop_left]
    simp only [List.append_assoc]
    exact List.prefix_append _ _
  obtain ⟨pos, hf⟩ := Option.ne_none_iff_exists'.1 (find_ne_none hline)
  refine contentLen_eq r.short hf (Nat.pos_of_ne_zero ?_)
  rintro rfl
  -- the header begins with `POST`
  have hpost : post <+: r.header := by
    refine r.starts.trans ?_
    rw [Request.header, List.append_assoc]
    exact List.prefix_append _ _
  have hpre := List.prefix_of_prefix_length_le hpost (prefix_find hf) (by decide)
  exact absurd hpre (by decide)

/-- The line that the request has, when the words stand nowhere before it. -/
theorem lengthText_line (hf : find (contentLength ++ [58]) r.header = some r.front.length) :
    lengthText r.header = 32 :: r.digits := by
  have hdrop : r.header.drop (r.front.length + 15) = 32 :: r.digits ++ r.rest := by
    rw [← List.drop_drop, Request.header, List.append_assoc, List.drop_left]
    rfl
  have hnot : 13 ∉ 32 :: r.digits := fun h => by
    rcases List.mem_cons.1 h with h | h
    · exact absurd h (by decide)
    · exact absurd (r.isNumber.2 13 h) (by decide)
  unfold lengthText
  rw [hf]
  dsimp only [Option.elim_some]
  rw [hdrop]
  rcases r.line with hrest | ⟨u, hu⟩
  · rw [hrest, List.append_nil, crlf, find_none_of_not_mem hnot, Option.getD_none, List.take_length]
  · rw [← hu, crlf, ← List.append_assoc, find_of_not_mem hnot, Option.getD_some, List.append_assoc,
      List.take_left]

theorem announced_line (hf : find (contentLength ++ [58]) r.header = some r.front.length) :
    announced r.header = int32 (r.header.length + (min r.body.length (2 ^ 31 - 1) : ℕ) + 4) := by
  have hnum : uint32 (min (r.body.length : ℤ) (2 ^ 31 - 1)) = min r.body.length (2 ^ 31 - 1) := by
    unfold uint32
    omega
  rw [announced, lengthText_line hf, atoi_digits r.isNumber.1 r.isNumber.2, r.length, hnum]

/-! ### What the first read brings -/

theorem cString_of_not_mem {l : List UInt8} (h : 0 ∉ l) : cString l = l :=
  List.takeWhile_eq_self_iff.2 fun c hc => by
    simp only [ne_eq, decide_eq_true_eq]
    rintro rfl
    exact h hc

theorem cString_append {l : List UInt8} (h : 0 ∉ l) : cString (l ++ after) = l ++ cString after :=
  List.takeWhile_append_of_pos fun c hc => by
    simp only [ne_eq, decide_eq_true_eq]
    rintro rfl
    exact h hc

theorem zero_not_mem_cString {l : List UInt8} : 0 ∉ cString l := fun h =>
  absurd (List.mem_takeWhile_imp h) (by decide)

theorem stream_length : r.stream.length = r.header.length + 4 + r.body.length := by
  rw [Request.stream, List.length_append, List.length_append]
  rfl

theorem clip_le : clip 2047 k r.stream ≤ r.stream.length := by
  have := stream_length (r := r)
  unfold clip
  omega

theorem stream_take {m : ℕ} (hm : r.header.length + 4 ≤ m) :
    r.stream.take m = r.header ++ blankLine ++ r.body.take (m - (r.header.length + 4)) := by
  have hlen : (r.header ++ blankLine).length = r.header.length + 4 := by simp [blankLine]
  rw [Request.stream, List.take_append, List.take_of_length_le (by rw [hlen]; exact hm), hlen]

theorem zero_not_mem_stream (h0 : 0 ∉ r.header) : 0 ∉ r.stream := by
  intro h
  rcases List.mem_append.1 h with h | h
  · exact (List.mem_append.1 h).elim h0 (by decide)
  · exact r.text h

/-- When the blank line is not in what was read, the body stays empty. -/
theorem readInfo_cut (h : 0 ∈ r.header ∨ clip 2047 k r.stream < r.header.length + 4) :
    readInfo r.stream k ks after = some [] := by
  have hne : r.stream ≠ [] := fun he => by
    have := stream_length (r := r)
    rw [he, List.length_nil] at this
    omega
  obtain ⟨m, hm, hweb⟩ : ∃ m, m < r.header.length + 4 ∧
      cString (r.stream.take (clip 2047 k r.stream)) = r.stream.take m := by
    have hpre : cString (r.stream.take (clip 2047 k r.stream)) <+: r.stream :=
      (List.takeWhile_prefix _).trans (List.take_prefix _ _)
    refine ⟨_, ?_, List.prefix_iff_eq_take.1 hpre⟩
    rcases h with h | h
    · by_contra hlen
      have hhead : r.header <+: cString (r.stream.take (clip 2047 k r.stream)) := by
        refine List.prefix_of_prefix_length_le ⟨blankLine ++ r.body, ?_⟩ hpre (by omega)
        rw [Request.stream, List.append_assoc]
      exact zero_not_mem_cString (hhead.subset h)
    · refine lt_of_le_of_lt (List.takeWhile_prefix _).length_le ?_
      rw [List.length_take]
      omega
  have hfind : find blankLine (r.stream.take m) = none :=
    find_take (by decide) (find_append (by decide) r.blank) hm
  unfold readInfo
  dsimp only
  rw [if_neg hne, hweb, hfind]

/-- Otherwise the header is read, and what comes after it is if the length says so. -/
theorem readInfo_header (h0 : 0 ∉ r.header) (hR : r.header.length + 4 ≤ clip 2047 k r.stream) :
    readInfo r.stream k ks after =
      let readLen := clip 2047 k r.stream
      if (readLen : ℤ) < announced r.header then
        (readFully (announced r.header - readLen).toNat (r.stream.drop readLen) ks).map fun buf =>
          (r.stream.take readLen ++ cString (buf ++ after)).drop (r.header.length + 4)
      else some ((r.stream.take readLen).drop (r.header.length + 4)) := by
  have hne : r.stream ≠ [] := fun he => by
    have := stream_length (r := r)
    rw [he, List.length_nil] at this
    omega
  have hweb : cString (r.stream.take (clip 2047 k r.stream)) = r.stream.take (clip 2047 k r.stream) :=
    cString_of_not_mem fun h => zero_not_mem_stream h0 (List.mem_of_mem_take h)
  have hfind : find blankLine (r.stream.take (clip 2047 k r.stream)) = some r.header.length := by
    rw [stream_take hR]
    exact find_append (by decide) r.blank
  have hpost : find post (r.stream.take (clip 2047 k r.stream)) = some 0 := by
    refine find_self (r.starts.trans ?_)
    rw [stream_take hR, Request.header]
    simp only [List.append_assoc]
    exact List.prefix_append _ _
  have hhead : (r.stream.take (clip 2047 k r.stream)).take r.header.length = r.header := by
    rw [stream_take hR, List.append_assoc, List.take_left]
  have hpos : r.header.length ≠ 0 := by
    have := r.starts.length_le
    simp only [post, Request.header, List.length_append, List.length_cons] at this ⊢
    omega
  unfold readInfo
  dsimp only
  rw [if_neg hne, hweb, hfind]
  dsimp only
  rw [if_neg hpos, hhead, contentLen_header]
  dsimp only
  rw [hpost, if_neg (by simp)]
  rfl

/-! ### When the body is the one that was sent -/

theorem stream_drop : r.stream.drop (r.header.length + 4) = r.body := by
  have hhead : (r.header ++ blankLine).length = r.header.length + 4 := List.length_append
  rw [← hhead, Request.stream, List.drop_left]

/-- Nothing more is read when no more is announced than has been read. -/
theorem readInfo_all (h0 : 0 ∉ r.header) (hR : r.header.length + 4 ≤ clip 2047 k r.stream)
    (hle : announced r.header ≤ clip 2047 k r.stream) :
    readInfo r.stream k ks after =
      some ((r.stream.take (clip 2047 k r.stream)).drop (r.header.length + 4)) := by
  rw [readInfo_header h0 hR]
  dsimp only
  rw [if_neg (Int.not_lt.2 hle)]

/-- The rest of what is announced, as a C string, ends where the memory after its buffer has a zero. -/
theorem readInfo_rest (h0 : 0 ∉ r.header) (hR : r.header.length + 4 ≤ clip 2047 k r.stream)
    (hlt : clip 2047 k r.stream < announced r.header) (hle : announced r.header ≤ r.stream.length) :
    readInfo r.stream k ks after =
      some ((r.stream.take (announced r.header).toNat).drop (r.header.length + 4) ++ cString after) := by
  obtain ⟨m, hm⟩ := Int.eq_ofNat_of_zero_le (a := announced r.header) (by omega)
  rw [hm] at hlt hle
  have hsub : ((m : ℤ) - clip 2047 k r.stream).toNat = m - clip 2047 k r.stream := by omega
  have hbuf : 0 ∉ (r.stream.drop (clip 2047 k r.stream)).take (m - clip 2047 k r.stream) := fun h =>
    zero_not_mem_stream h0 (List.mem_of_mem_drop (List.mem_of_mem_take h))
  have hsum : r.stream.take (clip 2047 k r.stream) ++
      (r.stream.drop (clip 2047 k r.stream)).take (m - clip 2047 k r.stream) = r.stream.take m := by
    have hadd : clip 2047 k r.stream + (m - clip 2047 k r.stream) = m := by omega
    rw [← List.take_add, hadd]
  have hlen : r.header.length + 4 ≤ (r.stream.take m).length := by
    rw [List.length_take]
    omega
  rw [readInfo_header h0 hR]
  dsimp only
  rw [hm, if_pos hlt, hsub, readFully_eq (by rw [List.length_drop]; omega), Option.map_some,
    cString_append hbuf, ← List.append_assoc, hsum, List.drop_append_of_le_length hlen, Int.toNat_natCast]

/-- What is announced beyond the end of the request is waited for. -/
theorem readInfo_more (h0 : 0 ∉ r.header) (hR : r.header.length + 4 ≤ clip 2047 k r.stream)
    (hlt : r.stream.length < announced r.header) : readInfo r.stream k ks after = none := by
  have hclip : clip 2047 k r.stream ≤ r.stream.length := clip_le
  rw [readInfo_header h0 hR]
  dsimp only
  rw [if_pos (by omega), readFully_none (by rw [List.length_drop]; omega)]
  rfl

/-- **`ReadInfo` sets the body that was sent exactly when it is gathered**: the first read brings the header,
what is announced is what was sent, and what is read later is followed by a zero. -/
theorem readInfo_iff (r : Request) (k : ℕ) (ks : List ℕ) (after : List UInt8) :
    readInfo r.stream k ks after = some r.body ↔ Gathered r k after := by
  have hclip : clip 2047 k r.stream ≤ r.stream.length := clip_le
  unfold Gathered
  dsimp only
  split_ifs with hcut hall
  · rw [readInfo_cut hcut, Option.some.injEq, eq_comm]
  all_goals
    obtain ⟨h0, hR⟩ := not_or.1 hcut
    rw [Nat.not_lt] at hR
  · constructor
    · intro h
      by_contra hlt
      rw [readInfo_more h0 hR (by omega)] at h
      cases h
    · intro hle
      rw [readInfo_all h0 hR hle, hall, List.take_length, stream_drop]
  · have hbody := stream_drop (r := r)
    constructor
    · intro h
      rcases Int.lt_or_le (clip 2047 k r.stream) (announced r.header) with hlt | hle
      · rcases Int.lt_or_le r.stream.length (announced r.header) with hmore | hle
        · rw [readInfo_more h0 hR hmore] at h
          cases h
        · refine ⟨hlt, hle, ?_⟩
          rw [readInfo_rest h0 hR hlt hle, Option.some.injEq] at h
          have hsplit := congrArg (List.drop (r.header.length + 4))
            (List.take_append_drop (announced r.header).toNat r.stream)
          rw [List.drop_append_of_le_length (by rw [List.length_take]; omega), hbody, ← h] at hsplit
          exact List.append_cancel_left hsplit
      · -- the body would be shorter than the one that was sent
        rw [readInfo_all h0 hR hle, Option.some.injEq, ← hbody] at h
        have hl := congrArg List.length h
        rw [List.length_drop, List.length_take, List.length_drop] at hl
        omega
    · rintro ⟨hlt, hle, hafter⟩
      rw [readInfo_rest h0 hR hlt hle, ← hafter, ← hbody]
      rw [← List.drop_append_of_le_length (by rw [List.length_take]; omega), List.take_append_drop]

/-- When the words stand nowhere before the line: the header has no zero byte and comes with the first read,
and so does the body, or the rest of it is followed by a zero byte and the request is not too long; an
empty body needs nothing. -/
theorem gathered_line (hf : find (contentLength ++ [58]) r.header = some r.front.length) :
    Gathered r k after ↔ r.body = [] ∨ 0 ∉ r.header ∧ r.header.length + 4 ≤ clip 2047 k r.stream ∧
      (r.stream.length ≤ clip 2047 k r.stream ∨ r.stream.length < 2 ^ 31 ∧ cString after = []) := by
  have hclip : clip 2047 k r.stream ≤ r.stream.length ∧ clip 2047 k r.stream ≤ 2047 := by
    refine ⟨clip_le, ?_⟩
    unfold clip
    omega
  have hlen := stream_length (r := r)
  have hshort : r.header.length ≤ 2000 := r.short
  have hempty : r.body = [] ↔ r.body.length = 0 := List.length_eq_zero_iff.symm
  have hann := announced_line hf
  unfold Gathered
  dsimp only
  split_ifs with hcut hall
  · constructor
    · exact .inl
    · rintro (h | ⟨h0, hR, -⟩)
      · exact h
      · exact hcut.elim (absurd · h0) fun h => absurd h (Nat.not_lt.2 hR)
  all_goals
    obtain ⟨h0, hR⟩ := not_or.1 hcut
    rw [Nat.not_lt] at hR
  · have hle : announced r.header ≤ clip 2047 k r.stream := by
      rw [hann]
      unfold int32
      omega
    exact ⟨fun _ => .inr ⟨h0, hR, .inl hall.ge⟩, fun _ => hle⟩
  · constructor
    · rintro ⟨hlt, hle, hafter⟩
      have hann' : announced r.header = r.stream.length := by
        rw [hann] at hlt hle ⊢
        unfold int32 at hlt hle ⊢
        omega
      rw [hann', Int.toNat_natCast, List.drop_length] at hafter
      refine .inr ⟨h0, hR, .inr ⟨?_, hafter.symm⟩⟩
      rw [hann] at hann'
      unfold int32 at hann'
      omega
    · rintro (h | ⟨-, -, h | ⟨hshort', hafter⟩⟩)
      · rw [hempty] at h
        omega
      · omega
      · have hann' : announced r.header = r.stream.length := by
          rw [hann]
          unfold int32
          omega
        rw [hann', Int.toNat_natCast, List.drop_length]
        exact ⟨by omega, Int.le_refl _, hafter.symm⟩

/-- `POST /`, a length of one, and one byte. -/
def shortPost : Request where
  front := post ++ [32, 47, 13, 10]
  digits := [49]
  rest := []
  body := [97]
  starts := by decide
  isNumber := by decide +kernel
  length := by decide
  line := by decide
  blank := by decide
  short := by decide
  text := by decide

/-- When the first read stops inside the header, and when the rest of the body is not followed by a zero, the
body is another one. -/
theorem body_depends_on_reads :
    readInfo shortPost.stream 10 [] [0] = some [] ∧
    readInfo shortPost.stream 29 [] [98, 0] = some [97, 98] ∧
    readInfo shortPost.stream 100 [] [98, 0] = some shortPost.body := by
  decide +kernel

end StNvs.Sync.ReadInfo
