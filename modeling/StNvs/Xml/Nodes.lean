import StNvs.Xml.Chars

/-! # Documents: the printer and the parser

`TiXmlPrinter` visits a tree and writes it, one node a line, but for an element with nothing in it but a
text. `TiXmlDocument::Parse` reads nodes until something is no node; each node's `Parse` has its own errors,
of which the document keeps the first. Where the nodes were in the text is not kept: the calls of `Stamp`, which
count rows and columns, are left out here and have a module of their own (`Xml.Location`), which says when they
end. -/

namespace StNvs.Xml.Nodes

open StNvs.Xml.Chars

/-- A name and a value. -/
abbrev Attribute := List Char × List Char

/-- The nodes of a document. -/
inductive XmlNode
  | element (value : List Char) (attributes : List Attribute) (children : List XmlNode)
  | text (cdata : Bool) (value : List Char)
  | declaration (version encoding standalone : List Char)
  | comment (value : List Char)
  | unknown (value : List Char)

/-! ### The printer -/

/-- `TiXmlPrinter`. -/
structure Printer where
  depth : ℕ
  simpleTextPrint : Bool
  buffer : List Char

/-- `TiXmlAttribute::Print`. -/
def printAttribute (a : Attribute) : List Char :=
  if '"' ∈ a.2 then encodeString a.1 ++ "='".toList ++ encodeString a.2 ++ "'".toList
  else encodeString a.1 ++ "=\"".toList ++ encodeString a.2 ++ "\"".toList

/-- The attributes from the first on: `Next` takes one without name and value for the end. -/
def attributesFrom : List Attribute → List Attribute
  | [] => []
  | a :: as => a :: as.takeWhile (· ≠ ([], []))

/-- `TiXmlDeclaration::Print`, one part. -/
def printPart (name value : List Char) : List Char :=
  if value = [] then [] else name ++ "=\"".toList ++ value ++ "\" ".toList

/-- `TiXmlDeclaration::Print`. -/
def printDeclaration (version encoding standalone : List Char) : List Char :=
  "<?xml ".toList ++ printPart "version".toList version ++ printPart "encoding".toList encoding ++
    printPart "standalone".toList standalone ++ "?>".toList

/-- The element has one child, a text that is no `CDATA`. -/
def isSimple : List XmlNode → Bool
  | [.text false _] => true
  | _ => false

namespace Printer

def put (s : List Char) (p : Printer) : Printer := { p with buffer := p.buffer ++ s }

def doIndent (p : Printer) : Printer := p.put (List.replicate p.depth "    ".toList).flatten

def doLineBreak (p : Printer) : Printer := p.put "\n".toList

/-- `VisitEnter`, at an element. -/
def visitEnter (value : List Char) (attributes : List Attribute) (children : List XmlNode) (p : Printer) : Printer :=
  let p := p.doIndent.put ('<' :: value)
  let p := p.put ((attributesFrom attributes).flatMap fun a => ' ' :: printAttribute a)
  let p :=
    if children.isEmpty then (p.put " />".toList).doLineBreak
    else
      let p := p.put ">".toList
      if isSimple children then { p with simpleTextPrint := true } else p.doLineBreak
  { p with depth := p.depth + 1 }

/-- `VisitExit`, at an element. -/
def visitExit (value : List Char) (children : List XmlNode) (p : Printer) : Printer :=
  let p := { p with depth := p.depth - 1 }
  if children.isEmpty then p
  else
    let p := if p.simpleTextPrint then { p with simpleTextPrint := false } else p.doIndent
    (p.put ("</".toList ++ value ++ ">".toList)).doLineBreak

/-- `Visit`, at a text. -/
def visitText (cdata : Bool) (value : List Char) (p : Printer) : Printer :=
  if cdata then (p.doIndent.put ("<![CDATA[".toList ++ value ++ "]]>".toList)).doLineBreak
  else if p.simpleTextPrint then p.put (encodeString value)
  else (p.doIndent.put (encodeString value)).doLineBreak

mutual

/-- `Accept`. -/
def accept : XmlNode → Printer → Printer
  | .element value attributes children, p =>
    visitExit value children (acceptAll children (visitEnter value attributes children p))
  | .text cdata value, p => p.visitText cdata value
  | .declaration version encoding standalone, p =>
    (p.doIndent.put (printDeclaration version encoding standalone)).doLineBreak
  | .comment value, p => (p.doIndent.put ("<!--".toList ++ value ++ "-->".toList)).doLineBreak
  | .unknown value, p => (p.doIndent.put ("<".toList ++ value ++ ">".toList)).doLineBreak

def acceptAll : List XmlNode → Printer → Printer
  | [], p => p
  | x :: xs, p => acceptAll xs (accept x p)

end

end Printer

/-- What `TiXmlPrinter` writes for a document. -/
def print (document : List XmlNode) : List Char := (Printer.acceptAll document ⟨0, false, []⟩).buffer

/-! ### Errors -/

/-- The errors of a document. -/
inductive Error
  | parsingElement | failedToReadElementName | readingElementValue | readingAttributes | parsingEmpty
  | readingEndTag | parsingUnknown | parsingComment | parsingDeclaration | documentEmpty | parsingCdata
  deriving DecidableEq, Repr

/-- `SetError`: the first error stays. -/
def setError (err : Error) (error : Option Error) : Option Error := some (error.getD err)

/-- What a parser returns: what it has read, where it stopped, and the error of the document. -/
abbrev Read (α : Type) := α × Ptr × Option Error

/-! ### The parser: attributes, declarations, and nodes without nodes in them -/

/-- The loop that reads a value without quotes; `NULL` where it comes to one. -/
def readUnquoted : List Char → List Char × Ptr
  | [] => ([], some [])
  | c :: l =>
    if isWhiteSpace c ∨ c = '/' ∨ c = '>' then ([], some (c :: l))
    else if c = '\'' ∨ c = '"' then ([], none)
    else
      let (value, p) := readUnquoted l
      (c :: value, p)

/-- The value of an attribute, behind the `=`. -/
def readAttributeValue (enc : Encoding) (name : List Char) (p : Ptr) (error : Option Error) :
    Except Stop (Read Attribute) :=
  match skipWhiteSpace enc p with
  | none | some [] => .ok ((name, []), none, setError .readingAttributes error)
  | some (c :: l) =>
    if c = '\'' ∨ c = '"' then do
      let (value, p) ← readText enc false [c] (some l)
      .ok ((name, value), p, error)
    else
      match readUnquoted (c :: l) with
      | (value, none) => .ok ((name, value), none, setError .readingAttributes error)
      | (value, some l) => .ok ((name, value), some l, error)

/-- `TiXmlAttribute::Parse`. -/
def attributeParse (enc : Encoding) (p : Ptr) (error : Option Error) : Except Stop (Read Attribute) :=
  match skipWhiteSpace enc p with
  | none | some [] => .ok (([], []), none, error)
  | some (c :: l) =>
    match readName (some (c :: l)) with
    | (name, none) | (name, some []) => .ok ((name, []), none, setError .readingAttributes error)
    | (name, some (d :: l)) =>
      match skipWhiteSpace enc (some (d :: l)) with
      | some ('=' :: l) => readAttributeValue enc name (some l) error
      | _ => .ok ((name, []), none, setError .readingAttributes error)

/-- The loop of `TiXmlDeclaration::Parse`; its attributes have no document to report errors to. -/
def declarationLoop (enc : Encoding) : ℕ → List Char → List Char → List Char → Ptr → Except Stop (XmlNode × Ptr)
  | 0, _, _, _, _ => .error .fuel
  | _ + 1, version, encoding, standalone, none => .ok (.declaration version encoding standalone, none)
  | _ + 1, version, encoding, standalone, some [] => .ok (.declaration version encoding standalone, none)
  | n + 1, version, encoding, standalone, some (c :: l) =>
    if c = '>' then .ok (.declaration version encoding standalone, some l)
    else
      let l := skip enc (c :: l)
      if stringEqual true "version".toList l then do
        let (a, p, _) ← attributeParse enc (some l) none
        declarationLoop enc n a.2 encoding standalone p
      else if stringEqual true "encoding".toList l then do
        let (a, p, _) ← attributeParse enc (some l) none
        declarationLoop enc n version a.2 standalone p
      else if stringEqual true "standalone".toList l then do
        let (a, p, _) ← attributeParse enc (some l) none
        declarationLoop enc n version encoding a.2 p
      else declarationLoop enc n version encoding standalone (some (l.dropWhile fun c => c ≠ '>' ∧ ¬ isWhiteSpace c))

/-- `TiXmlDeclaration::Parse`. -/
def declarationParse (enc : Encoding) (p : Ptr) (error : Option Error) : Except Stop (Read XmlNode) :=
  match skipWhiteSpace enc p with
  | none | some [] => .ok (.declaration [] [] [], none, setError .parsingDeclaration error)
  | some (c :: l) =>
    if stringEqual true "<?xml".toList (c :: l) then do
      let l := (c :: l).drop 5
      let (x, p) ← declarationLoop enc (l.length + 1) [] [] [] (some l)
      .ok (x, p, error)
    else .ok (.declaration [] [] [], none, setError .parsingDeclaration error)

/-- The loops that read up to a tag. -/
def upTo (tag : List Char) : List Char → List Char × List Char
  | [] => ([], [])
  | c :: l =>
    if stringEqual false tag (c :: l) then ([], c :: l)
    else
      let (value, l) := upTo tag l
      (c :: value, l)

/-- `TiXmlComment::Parse`. -/
def commentParse (enc : Encoding) (p : Ptr) (error : Option Error) : Read XmlNode :=
  match skipWhiteSpace enc p with
  | none | some [] => (.comment [], none, setError .parsingComment error)
  | some (c :: l) =>
    if stringEqual false "<!--".toList (c :: l) then
      let (value, l) := upTo "-->".toList ((c :: l).drop 4)
      (.comment value, some (l.drop 3), error)
    else (.comment [], none, setError .parsingComment error)

/-- `TiXmlUnknown::Parse`. -/
def unknownParse (enc : Encoding) (p : Ptr) (error : Option Error) : Read XmlNode :=
  match skipWhiteSpace enc p with
  | some ('<' :: l) =>
    (.unknown (l.takeWhile (· ≠ '>')), some ((l.dropWhile (· ≠ '>')).drop 1), error)
  | _ => (.unknown [], none, setError .parsingUnknown error)

/-- `TiXmlText::Parse`, of a `CDATA`. -/
def cdataParse (enc : Encoding) (l : List Char) (error : Option Error) : Except Stop (Read XmlNode) :=
  if stringEqual false "<![CDATA[".toList l then do
    let (value, l) := upTo "]]>".toList (l.drop 9)
    let (_, p) ← readText enc false "]]>".toList (some l)
    .ok (.text true value, p, error)
  else .ok (.text true [], none, setError .parsingCdata error)

/-- `TiXmlText::Parse`, of a text. -/
def textParse (enc : Encoding) (l : List Char) : Except Stop (List Char × Ptr) := do
  let (value, p) ← readText enc true "<".toList (some l)
  match p with
  | none | some [] => .ok (value, none)
  | some (c :: l) => .ok (value, some ('<' :: c :: l))

/-- `Blank`. -/
def blank (value : List Char) : Bool := value.all isWhiteSpace

/-! ### The parser: elements -/

/-- What `Identify` takes a node for. -/
inductive Kind
  | declaration | comment | cdata | unknown | element
  deriving DecidableEq, Repr

/-- `Identify`. -/
def identify (enc : Encoding) (p : Ptr) : Option Kind :=
  match skipWhiteSpace enc p with
  | some ('<' :: l) =>
    if stringEqual true "<?xml".toList ('<' :: l) then some .declaration
    else if stringEqual false "<!--".toList ('<' :: l) then some .comment
    else if stringEqual false "<![CDATA[".toList ('<' :: l) then some .cdata
    else if stringEqual false "<!".toList ('<' :: l) then some .unknown
    else if l.head?.any isNameStart then some .element
    else some .unknown
  | _ => none

/-- Where the attributes of an element end: it has no content, or the content follows, or there was an
error. -/
inductive Tag
  | closed (p : Ptr)
  | opened (l : List Char)
  | failed

/-- The loop of `TiXmlElement::Parse` over the attributes. -/
def readAttributes (enc : Encoding) : ℕ → List Attribute → Ptr → Option Error →
    Except Stop (List Attribute × Tag × Option Error)
  | 0, _, _, _ => .error .fuel
  | _ + 1, as, none, error => .ok (as, .closed none, error)
  | _ + 1, as, some [], error => .ok (as, .closed (some []), error)
  | n + 1, as, some (c :: l), error =>
    match skip enc (c :: l) with
    | [] => .ok (as, .failed, setError .readingAttributes error)
    | '/' :: '>' :: l => .ok (as, .closed (some l), error)
    | '/' :: _ => .ok (as, .failed, setError .parsingEmpty error)
    | '>' :: l => .ok (as, .opened l, error)
    | d :: l => do
      let (a, p, error) ← attributeParse enc (some (d :: l)) error
      match p with
      | none | some [] => .ok (as, .failed, setError .parsingElement error)
      | some (d :: l) =>
        if as.any (·.1 = a.1) then .ok (as, .failed, setError .parsingElement error)
        else readAttributes enc n (as ++ [a]) (some (d :: l)) error

/-- The end of `TiXmlElement::Parse`, at the end tag. -/
def readEndTag (enc : Encoding) (name : List Char) (p : Ptr) (error : Option Error) : Ptr × Option Error :=
  match p with
  | none | some [] => (none, setError .readingEndTag error)
  | some (c :: l) =>
    if stringEqual false ("</".toList ++ name) (c :: l) then
      match skipWhiteSpace enc (some ((c :: l).drop (name.length + 2))) with
      | some ('>' :: l) => (some l, error)
      | _ => (none, setError .readingEndTag error)
    else (none, setError .readingEndTag error)

/-- `TiXmlElement::Parse`, up to its content. -/
def readTag (enc : Encoding) (p : Ptr) (error : Option Error) :
    Except Stop (List Char × List Attribute × Tag × Option Error) :=
  match skipWhiteSpace enc p with
  | some ('<' :: l) =>
    match readName (skipWhiteSpace enc (some l)) with
    | (name, none) | (name, some []) => .ok (name, [], .failed, setError .failedToReadElementName error)
    | (name, some (c :: l)) => do
      let (as, tag, error) ← readAttributes enc (l.length + 2) [] (some (c :: l)) error
      .ok (name, as, tag, error)
  | _ => .ok ([], [], .failed, setError .parsingElement error)

mutual

/-- `Parse`, of a node that `Identify` has made. -/
def parseNode (enc : Encoding) : ℕ → Kind → List Char → Option Error → Except Stop (Read XmlNode)
  | 0, _, _, _ => .error .fuel
  | _ + 1, .declaration, l, error => declarationParse enc (some l) error
  | _ + 1, .comment, l, error => .ok (commentParse enc (some l) error)
  | _ + 1, .cdata, l, error => cdataParse enc l error
  | _ + 1, .unknown, l, error => .ok (unknownParse enc (some l) error)
  | n + 1, .element, l, error => do
    let (name, as, tag, error) ← readTag enc (some l) error
    match tag with
    | .failed => .ok (.element name as [], none, error)
    | .closed p => .ok (.element name as [], p, error)
    | .opened l => do
      let (children, p, error) ← readValue enc n (skipWhiteSpace enc (some l)) error
      let (p, error) := readEndTag enc name p error
      .ok (.element name as children, p, error)

/-- `TiXmlElement::ReadValue`, behind white space; a blank text is dropped. -/
def readValue (enc : Encoding) : ℕ → Ptr → Option Error → Except Stop (Read (List XmlNode))
  | 0, _, _ => .error .fuel
  | _ + 1, none, error => .ok ([], none, setError .readingElementValue error)
  | _ + 1, some [], error => .ok ([], some [], error)
  | n + 1, some (c :: l), error =>
    if c ≠ '<' then do
      let (value, p) ← textParse enc (c :: l)
      let (xs, p, error) ← readValue enc n (skipWhiteSpace enc p) error
      .ok (if blank value then xs else .text false value :: xs, p, error)
    else if stringEqual false "</".toList (c :: l) then .ok ([], some (c :: l), error)
    else
      match identify enc (some (c :: l)) with
      | none => .ok ([], none, error)
      | some kind => do
        let (x, p, error) ← parseNode enc n kind (c :: l) error
        let (xs, p, error) ← readValue enc n (skipWhiteSpace enc p) error
        .ok (x :: xs, p, error)

end

/-! ### The parser: documents -/

/-- The encoding behind a node: a declaration says what it is, if it was not known. -/
def nextEncoding (enc : Encoding) : XmlNode → Encoding
  | .declaration _ encoding _ =>
    if enc ≠ .unknown then enc
    else if encoding = [] then .utf8
    else if stringEqual true "UTF-8".toList encoding ∨ stringEqual true "UTF8".toList encoding then .utf8
    else .legacy
  | _ => enc

/-- The loop of `TiXmlDocument::Parse`. -/
def documentLoop : ℕ → Encoding → Ptr → Option Error → Except Stop (Read (List XmlNode))
  | 0, _, _, _ => .error .fuel
  | _ + 1, _, none, error => .ok ([], none, error)
  | _ + 1, _, some [], error => .ok ([], some [], error)
  | n + 1, enc, some (c :: l), error =>
    match identify enc (some (c :: l)) with
    | none => .ok ([], some (c :: l), error)
    | some kind => do
      let (x, p, error) ← parseNode enc (2 * l.length + 2) kind (c :: l) error
      let enc := nextEncoding enc x
      let (xs, p, error) ← documentLoop n enc (skipWhiteSpace enc p) error
      .ok (x :: xs, p, error)

/-- The encoding a text begins with. -/
def firstEncoding : List Char → Encoding
  | a :: b :: c :: _ => if a.toNat = 0xef ∧ b.toNat = 0xbb ∧ c.toNat = 0xbf then .utf8 else .unknown
  | _ => .unknown

/-- `TiXmlDocument::Parse`, of a text. -/
def parse (text : List Char) : Except Stop (Read (List XmlNode)) :=
  if text = [] then .ok ([], none, some .documentEmpty)
  else do
    let enc := firstEncoding text
    let (xs, p, error) ← documentLoop (text.length + 1) enc (skipWhiteSpace enc (some text)) none
    if xs.isEmpty then .ok ([], none, setError .documentEmpty error) else .ok (xs, p, error)

end StNvs.Xml.Nodes
