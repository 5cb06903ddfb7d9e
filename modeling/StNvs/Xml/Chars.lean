import Mathlib

/-! # Characters and texts of XML

What the parser and the printer of `tinyxml` do below the level of nodes. A text ends with a terminator; a
pointer into it is `NULL` or what is left of it. A character is a byte. The loops take fuel, and a pointer
behind the terminator ends the parse (`Stop`).

* `encodeString`: the references that are written; `getChar`, `getEntity`: how they are read.
* `readText`: a text up to its end tag, with its white space kept or condensed. -/

namespace StNvs.Xml.Chars

/-- `TiXmlEncoding`. -/
inductive Encoding
  | unknown | utf8 | legacy
  deriving DecidableEq, Repr

abbrev Ptr := Option (List Char)

/-- Why there is no result: the fuel is used up, or the parser has left the text. -/
inductive Stop
  | fuel | overrun
  deriving DecidableEq, Repr

/-- A property of the characters of a list is decided along the list. -/
instance decidableForallMem {p : Char → Prop} [DecidablePred p] {l : List Char} :
    Decidable (∀ c ∈ l, p c) := List.decidableBAll p l

/-! ### Classes of characters -/

/-- `IsWhiteSpace`, with `isspace` of the C locale. -/
def isWhiteSpace (c : Char) : Bool := c = ' ' ∨ 9 ≤ c.toNat ∧ c.toNat ≤ 13

def isAlpha (c : Char) : Bool := if c.toNat < 127 then c.isAlpha else true

def isAlphaNum (c : Char) : Bool := if c.toNat < 127 then c.isAlphanum else true

/-- What a name goes on with. -/
def isNameChar (c : Char) : Bool := isAlphaNum c ∨ c = '_' ∨ c = '-' ∨ c = '.' ∨ c = ':'

/-- What a name begins with. -/
def isNameStart (c : Char) : Bool := isAlpha c ∨ c = '_'

/-- `utf8ByteTable`: how many bytes a character has, from the first of them. -/
def utf8ByteTable (c : Char) : ℕ :=
  if c.toNat < 0xc2 then 1 else if c.toNat < 0xe0 then 2 else if c.toNat < 0xf0 then 3
  else if c.toNat < 0xf5 then 4 else 1

/-- The lead bytes, and two characters that are none, all skipped with the white space. -/
def isMark (a b c : Char) : Bool :=
  a.toNat = 0xef ∧ (b.toNat = 0xbb ∧ c.toNat = 0xbf ∨ b.toNat = 0xbf ∧ (c.toNat = 0xbe ∨ c.toNat = 0xbf))

/-! ### The parser -/

/-- The loop of `SkipWhiteSpace`. -/
def skip (enc : Encoding) : List Char → List Char
  | a :: b :: c :: l =>
    if enc = .utf8 ∧ isMark a b c then skip enc l
    else if isWhiteSpace a then skip enc (b :: c :: l) else a :: b :: c :: l
  | a :: l => if isWhiteSpace a then skip enc l else a :: l
  | [] => []

/-- `SkipWhiteSpace`. -/
def skipWhiteSpace (enc : Encoding) : Ptr → Ptr
  | none | some [] => none
  | some (c :: l) => some (skip enc (c :: l))

/-- `ReadName`. -/
def readName : Ptr → List Char × Ptr
  | some (c :: l) =>
    if isNameStart c then ((c :: l).takeWhile isNameChar, some ((c :: l).dropWhile isNameChar)) else ([], none)
  | none | some [] => ([], none)

/-- `StringEqual`; the tags are not empty. -/
def stringEqual (ignoreCase : Bool) (tag l : List Char) : Bool :=
  if ignoreCase then (tag.map Char.toLower).isPrefixOf (l.map Char.toLower) else tag.isPrefixOf l

/-- `ConvertUTF32ToUTF8`. -/
def convertUTF32ToUTF8 (n : ℕ) : List Char :=
  if n < 0x80 then [Char.ofNat n]
  else if n < 0x800 then [Char.ofNat (0xc0 + n / 64), Char.ofNat (0x80 + n % 64)]
  else if n < 0x10000 then
    [Char.ofNat (0xe0 + n / 4096), Char.ofNat (0x80 + n / 64 % 64), Char.ofNat (0x80 + n % 64)]
  else if n < 0x200000 then
    [Char.ofNat (0xf0 + n / 262144), Char.ofNat (0x80 + n / 4096 % 64), Char.ofNat (0x80 + n / 64 % 64),
      Char.ofNat (0x80 + n % 64)]
  else []

/-- The digits of the two kinds of references. -/
def decDigit (c : Char) : Option ℕ := if '0' ≤ c ∧ c ≤ '9' then some (c.toNat - '0'.toNat) else none

def hexDigit (c : Char) : Option ℕ :=
  if '0' ≤ c ∧ c ≤ '9' then some (c.toNat - '0'.toNat)
  else if 'a' ≤ c ∧ c ≤ 'f' then some (c.toNat - 'a'.toNat + 10)
  else if 'A' ≤ c ∧ c ≤ 'F' then some (c.toNat - 'A'.toNat + 10)
  else none

/-- The number in front of the semicolon, read from its end to the first `mark`, in 32 bits. -/
def readNumber (base : ℕ) (mark : Char) (digit : Char → Option ℕ) : List Char → ℕ → ℕ → Option ℕ
  | [], _, ucs => some ucs
  | c :: l, mult, ucs =>
    if c = mark then some ucs
    else
      match digit c with
      | some d => readNumber base mark digit l (mult * base % 2 ^ 32) ((ucs + mult * d) % 2 ^ 32)
      | none => none

/-- A reference by number, whose digits are in `q`. -/
def getNumber (enc : Encoding) (base : ℕ) (mark : Char) (digit : Char → Option ℕ) (q : List Char) :
    List Char × Ptr :=
  if ';' ∈ q then
    match readNumber base mark digit (q.takeWhile (· ≠ ';')).reverse 1 0 with
    | some ucs =>
      (if enc = .utf8 then convertUTF32ToUTF8 ucs else [Char.ofNat (ucs % 256)],
        some ((q.dropWhile (· ≠ ';')).drop 1))
    | none => ([], none)
  else ([], none)

/-- `TiXmlBase::entity`. -/
def entity : List (List Char × Char) :=
  [("&amp;".toList, '&'), ("&lt;".toList, '<'), ("&gt;".toList, '>'), ("&quot;".toList, '"'),
    ("&apos;".toList, '\'')]

/-- `GetEntity`, at an ampersand; one that is not part of a reference is skipped. -/
def getEntity (enc : Encoding) (l : List Char) : List Char × Ptr :=
  match l with
  | _ :: '#' :: 'x' :: q => getNumber enc 16 'x' hexDigit q
  | _ :: '#' :: c :: q => getNumber enc 10 '#' decDigit (c :: q)
  | _ =>
    match entity.find? fun e => e.1.isPrefixOf l with
    | some e => ([e.2], some (l.drop e.1.length))
    | none => ([], some (l.drop 1))

/-- `GetChar`. -/
def getChar (enc : Encoding) : List Char → Except Stop (List Char × Ptr)
  | [] => .error .overrun
  | c :: l =>
    let length := if enc = .utf8 then utf8ByteTable c else 1
    if length = 1 then .ok (if c = '&' then getEntity enc (c :: l) else ([c], some l))
    else if (c :: l).length < length then .error .overrun
    else .ok ((c :: l).take length, some ((c :: l).drop length))

/-- The loop of `ReadText` that keeps the white space. -/
def readKept (enc : Encoding) (endTag : List Char) : ℕ → Ptr → Except Stop (List Char × Ptr)
  | 0, _ => .error .fuel
  | _ + 1, none => .ok ([], none)
  | _ + 1, some [] => .ok ([], some [])
  | n + 1, some (c :: l) =>
    if stringEqual false endTag (c :: l) then .ok ([], some (c :: l))
    else do
      let (cs, p) ← getChar enc (c :: l)
      let (text, p) ← readKept enc endTag n p
      .ok (cs ++ text, p)

/-- The loop that makes one blank of white space between characters. -/
def readCondensed (enc : Encoding) (endTag : List Char) : ℕ → Bool → Ptr → Except Stop (List Char × Ptr)
  | 0, _, _ => .error .fuel
  | _ + 1, _, none => .ok ([], none)
  | _ + 1, _, some [] => .ok ([], some [])
  | n + 1, whitespace, some (c :: l) =>
    if stringEqual false endTag (c :: l) then .ok ([], some (c :: l))
    else if isWhiteSpace c then readCondensed enc endTag n true (some l)
    else do
      let (cs, p) ← getChar enc (c :: l)
      let (text, p) ← readCondensed enc endTag n false p
      .ok ((if whitespace then [' '] else []) ++ cs ++ text, p)

/-- How much of the text is left. -/
def left (p : Ptr) : ℕ := (p.map List.length).getD 0

/-- Behind the end tag; `NULL` where the text ends. -/
def afterTag (endTag : List Char) : Ptr → Ptr
  | none | some [] => none
  | some (c :: l) =>
    match (c :: l).drop endTag.length with
    | [] => none
    | d :: l => some (d :: l)

/-- `ReadText`; what ends the text is compared with its case. -/
def readText (enc : Encoding) (trimWhiteSpace : Bool) (endTag : List Char) (p : Ptr) :
    Except Stop (List Char × Ptr) := do
  let (text, p) ←
    (if trimWhiteSpace then
      let p := skipWhiteSpace enc p
      readCondensed enc endTag (left p + 1) false p
    else readKept enc endTag (left p + 1) p)
  .ok (text, afterTag endTag p)

/-! ### The printer -/

/-- What is written for a character. -/
def escape (c : Char) : List Char :=
  if c = '&' then "&amp;".toList
  else if c = '<' then "&lt;".toList
  else if c = '>' then "&gt;".toList
  else if c = '"' then "&quot;".toList
  else if c = '\'' then "&apos;".toList
  else if c.toNat < 32 then
    "&#x".toList ++ [(Nat.digitChar (c.toNat / 16)).toUpper, (Nat.digitChar (c.toNat % 16)).toUpper, ';']
  else [c]

/-- The loop of `EncodeString`. What looks like a reference by number is passed through, up to a semicolon
or the last character; that is where it is in when `raw` is set. -/
def encodeFrom : Bool → List Char → List Char
  | _, [] => []
  | raw, c :: l =>
    if (raw ∨ "&#x".toList.isPrefixOf (c :: l)) ∧ l ≠ [] then c :: encodeFrom (l.head? ≠ some ';') l
    else escape c ++ encodeFrom false l

/-- `EncodeString`. -/
def encodeString (str : List Char) : List Char := encodeFrom false str

end StNvs.Xml.Chars
