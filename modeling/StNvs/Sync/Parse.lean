import Mathlib.Data.List.Basic
import Mathlib.Data.Nat.Notation

/-! # The requests of the synchronisation service

`ParseWebService` walks through the XML tree of a request with one cursor, `DMXml`: `ParseData` moves it
to the fields of a `SyncData` record and back, and the loop around it moves it to the next record. When
a field is missing the way back starts from `m_pre_pnode`, the element found last.

* `parseData_found`, `parseData_lost`: where `ParseData` leaves the cursor.
* `parse_iff`: the parser visits the records of the root, each once and in order, and collects those that
  are complete, just when every record has a `StreamNo` (or there is nothing after the one that has not). -/

namespace StNvs.Sync.Parse

/-! ### Trees -/

/-- A node of the document, or the document: its `Value`, its `GetText`, and the nodes in it. Nodes are found
by their `Value`, whatever they are: a tree that the service walks through holds those of every kind, and one
that is no element has no `GetText` and no nodes in it. The document begins with its root, since the cursor
never comes to what is in front. -/
inductive Node
  | mk (name : String) (text : Option String) (children : List Node)

def Node.name : Node → String
  | .mk name _ _ => name

def Node.text : Node → Option String
  | .mk _ text _ => text

def Node.children : Node → List Node
  | .mk _ _ children => children

/-- A node's place in the document: its number among its siblings, that of its parent, and so on. -/
abbrev Path := List ℕ

def Node.at (doc : Node) : Path → Option Node
  | [] => some doc
  | i :: p => (doc.at p).bind (·.children[i]?)

def kids (doc : Node) (p : Path) : List Node := ((doc.at p).map Node.children).getD []

/-- Where the nodes of a name are, counting from `k`. -/
def positions (name : String) : List Node → ℕ → List ℕ
  | [], _ => []
  | n :: l, k => if n.name = name then k :: positions name l (k + 1) else positions name l (k + 1)

/-- The first node of a name from the `k`-th on. -/
def nextNamed (l : List Node) (name : String) (k : ℕ) : Option ℕ := (positions name (l.drop k) k).head?

/-- `FirstChild(name)`. -/
def firstChild (doc : Node) (p : Path) (name : String) : Option Path :=
  (nextNamed (kids doc p) name 0).map (· :: p)

/-- `NextSibling(name)`. -/
def nextSibling (doc : Node) (name : String) : Path → Option Path
  | [] => none
  | i :: p => (nextNamed (kids doc p) name (i + 1)).map (· :: p)

/-- `Parent`. -/
def parent : Path → Option Path
  | [] => none
  | _ :: p => some p

/-! ### The cursor -/

/-- `m_pnode` and `m_pre_pnode` of a `DMXml`. -/
structure Cursor where
  node : Option Path
  pre : Option Path
  deriving DecidableEq, Repr

namespace Cursor

/-- `CheckNodeValid`. -/
def checkNodeValid (c : Cursor) : Bool := c.node.isSome

/-- `GetParent`. -/
def getParent (c : Cursor) : Cursor :=
  match c.node with
  | some p => { c with node := parent p }
  | none => { c with node := c.pre.bind parent }

/-- `FindElement`. -/
def findElement (doc : Node) (name : String) (c : Cursor) : Cursor :=
  match c.node with
  | none => c
  | some p =>
    match firstChild doc p name with
    | none => { c with node := none }
    | some q => ⟨some q, some q⟩

/-- `FindAllElement`: whether it found something, and the cursor. -/
def findAllElement (doc : Node) (name : String) (c : Cursor) : Bool × Cursor :=
  let c := { c with node := c.node.bind (nextSibling doc name) }
  (c.node.isSome, c)

end Cursor

/-! ### `SMUSync` -/

structure SyncPlatformData where
  serialNumber : String := ""
  custID : String := ""
  custAccunt : String := ""
  custName : String := ""
  custState : String := ""
  areaID : String := ""
  linkAddr : String := ""
  deriving DecidableEq, Repr

/-- A field of a record: the element it is read from, and where it is stored. -/
structure Field where
  name : String
  store : SyncPlatformData → String → SyncPlatformData

def streamNo : Field := ⟨"StreamNo", fun d x => { d with serialNumber := x }⟩

section
-- `UnicodeToAscii` of `Utf8ToUnicode`, which the system does
variable (conv : String → String) (doc : Node)

/-- The fields after the first. -/
def others : List Field :=
  [⟨"OPFlag", fun d x => { d with custState := x }⟩, ⟨"CustID", fun d x => { d with custID := x }⟩,
    ⟨"CustAccount", fun d x => { d with custAccunt := x }⟩,
    ⟨"CustName", fun d x => { d with custName := conv x }⟩,
    ⟨"InstalledAddress", fun d x => { d with linkAddr := conv x }⟩]

/-- `FindElement` and `GetValueText`; an element without text ends the program. -/
def parseField (f : Field) (c : Cursor) (d : SyncPlatformData) : Option (Cursor × SyncPlatformData) :=
  let c := c.findElement doc f.name
  match c.node with
  | none => some (c, d)
  | some p => ((doc.at p).bind Node.text).map fun x => (c, f.store d x)

/-- The fields after the first, each looked for from the parent of the one before. -/
def parseFields : List Field → Cursor → SyncPlatformData → Option (Bool × Cursor × SyncPlatformData)
  | [], c, d => some (true, c, d)
  | f :: fs, c, d => do
    let (c, d) ← parseField doc f c.getParent d
    if c.checkNodeValid then parseFields fs c d else some (false, c, d)

/-- `ParseData`. -/
def parseData (c : Cursor) (d : SyncPlatformData) : Option (Bool × Cursor × SyncPlatformData) := do
  let (c, d) ← parseField doc streamNo c d
  let (flag, c, d) ← if c.checkNodeValid then parseFields doc (others conv) c d else some (false, c, d)
  some (flag, c.getParent, d)

/-- The cursor and `data_vec`; no function reads `visits`, the nodes `ParseData` was called at. -/
structure State where
  cursor : Cursor
  dataVec : List SyncPlatformData
  visits : List (Option Path)
  deriving DecidableEq, Repr

/-- `ParseData` of the record at the cursor. -/
def parseRecord (s : State) : Option State := do
  let (flag, c, d) ← parseData conv doc s.cursor {}
  some ⟨c, if flag then s.dataVec ++ [d] else s.dataVec, s.visits ++ [s.cursor.node]⟩

/-- The loop of `ParseWebService`, for `fuel` rounds at most. -/
def parseLoop : ℕ → State → Option State
  | 0, _ => none
  | fuel + 1, s => do
    let (found, c) := s.cursor.findAllElement doc "SyncData"
    if found then (parseRecord conv doc { s with cursor := c }).bind (parseLoop fuel)
    else some { s with cursor := c }

/-- `GetRoot`: the document begins with it. -/
def getRoot (c : Cursor) : Cursor := { c with node := (doc.children[0]?).map fun _ => [0] }

/-- `ParseWebService`, once the tree is there: what it returns, and how it ended. -/
def parseWebService (fuel : ℕ) : Option (Bool × State) :=
  let c := getRoot doc ⟨none, none⟩
  if c.checkNodeValid then
    let c := c.findElement doc "SyncData"
    if c.checkNodeValid then
      ((parseRecord conv doc ⟨c, [], []⟩).bind (parseLoop conv doc fuel)).map (true, ·)
    else some (false, ⟨c, [], []⟩)
  else some (false, ⟨c, [], []⟩)

/-! ### What is asked of it -/

/-- The `SyncData` children of the root. -/
def records : List Path := (positions "SyncData" (kids doc [0]) 0).map (· :: [0])

/-- The record at a node, if it has all the fields. -/
def recordAt (p : Path) : Option SyncPlatformData :=
  (streamNo :: others conv).foldlM
    (fun d f => ((firstChild doc p f.name).bind fun q => (doc.at q).bind Node.text).map (f.store d)) {}

/-- The field elements of the record at `p` have text in them. -/
def TextAt (p : Path) : Prop :=
  ∀ f ∈ streamNo :: others conv, ∀ q ∈ firstChild doc p f.name, ((doc.at q).bind Node.text).isSome

/-- Every record has a `StreamNo`; or there is one record, and no element that the cursor could go on to
from the root. -/
def Numbered : Prop :=
  (∀ p ∈ records doc, (firstChild doc p "StreamNo").isSome) ∨
    (records doc).length = 1 ∧ nextSibling doc "SyncData" [0] = none

end

variable {conv : String → String} {doc : Node} {name : String} {l : List Node} {i j k fuel : ℕ}
  {rest : List ℕ} {p q : Path} {f : Field} {fs : List Field} {c : Cursor} {d : SyncPlatformData}
  {s s' : State}

/-! ### Names and numbers -/

theorem positions_cons : ∀ {l : List Node} {k : ℕ}, positions name l k = i :: rest →
    k ≤ i ∧ rest = positions name (l.drop (i + 1 - k)) (i + 1)
  | n :: l, k, h => by
    unfold positions at h
    split at h
    · obtain ⟨rfl, rfl⟩ := List.cons.inj h
      exact ⟨Nat.le_refl _, by simp⟩
    · obtain ⟨hle, hr⟩ := positions_cons h
      refine ⟨Nat.le_of_succ_le hle, ?_⟩
      rw [hr, show i + 1 - k = (i + 1 - (k + 1)) + 1 by omega, List.drop_succ_cons]

/-- After a node of the name come those found from the next number on. -/
theorem positions_next (h : positions name (l.drop k) k = i :: rest) :
    positions name (l.drop (i + 1)) (i + 1) = rest := by
  obtain ⟨hle, hr⟩ := positions_cons h
  rw [hr, List.drop_drop, show k + (i + 1 - k) = i + 1 by omega]

theorem firstChild_parent (h : firstChild doc p name = some q) : parent q = some p := by
  obtain ⟨i, -, rfl⟩ := Option.map_eq_some_iff.1 h
  rfl

/-! ### One record -/

theorem parseField_found {x : String} (hc : c.node = some p) (hq : firstChild doc p f.name = some q)
    (hx : (doc.at q).bind Node.text = some x) :
    parseField doc f c d = some (⟨some q, some q⟩, f.store d x) := by
  simp [parseField, Cursor.findElement, hc, hq, hx]

theorem parseField_lost (hc : c.node = some p) (hq : firstChild doc p f.name = none) :
    parseField doc f c d = some ({ c with node := none }, d) := by
  simp [parseField, Cursor.findElement, hc, hq]

/-- The way up leads to `p`, from the cursor and from the element found last. -/
structure Cursor.Below (c : Cursor) (p : Path) : Prop where
  up : c.getParent.node = some p
  pre : c.pre.bind parent = some p

/-- The record at `p` as far as the fields `fs` go. -/
def collect (doc : Node) (p : Path) (fs : List Field) (d : SyncPlatformData) : Option SyncPlatformData :=
  fs.foldlM (fun d f => ((firstChild doc p f.name).bind fun q => (doc.at q).bind Node.text).map (f.store d))
    d

theorem parseFields_below (h : c.Below p)
    (ht : ∀ f ∈ fs, ∀ q ∈ firstChild doc p f.name, ((doc.at q).bind Node.text).isSome) :
    ∃ flag c' d', parseFields doc fs c d = some (flag, c', d') ∧ c'.Below p ∧
      collect doc p fs d = if flag then some d' else none := by
  induction fs generalizing c d with
  | nil => exact ⟨true, c, d, rfl, h, rfl⟩
  | cons f fs ih =>
    obtain ⟨hf, hfs⟩ := List.forall_mem_cons.1 ht
    cases hq : firstChild doc p f.name with
    | none =>
      refine ⟨false, { c.getParent with node := none }, d, ?_, ⟨?_, ?_⟩, ?_⟩
      · simp [parseFields, parseField_lost h.up hq, Cursor.checkNodeValid]
      all_goals cases hn : c.node <;> simp [Cursor.getParent, hn, collect, hq, h.pre]
    | some q =>
      obtain ⟨x, hx⟩ := Option.isSome_iff_exists.1 (hf q hq)
      have hb : Cursor.Below ⟨some q, some q⟩ p := ⟨firstChild_parent hq, firstChild_parent hq⟩
      obtain ⟨flag, c', d', he, hb', hr⟩ := ih (d := f.store d x) hb hfs
      refine ⟨flag, c', d', ?_, hb', ?_⟩
      · simp [parseFields, parseField_found h.up hq hx, Cursor.checkNodeValid, he]
      · rw [← hr, collect, List.foldlM_cons, hq, Option.bind_some, hx]
        rfl

/-- A record with a `StreamNo`: the cursor comes back to it. -/
theorem parseData_found (hc : c.node = some p) (hs : (firstChild doc p "StreamNo").isSome)
    (ht : TextAt conv doc p) :
    ∃ flag c' d', parseData conv doc c {} = some (flag, c', d') ∧ c'.node = some p ∧
      c'.pre.bind parent = some p ∧ recordAt conv doc p = if flag then some d' else none := by
  obtain ⟨q, hq⟩ := Option.isSome_iff_exists.1 hs
  obtain ⟨hn, hfs⟩ := List.forall_mem_cons.1 ht
  obtain ⟨x, hx⟩ := Option.isSome_iff_exists.1 (hn q hq)
  have hb : Cursor.Below ⟨some q, some q⟩ p := ⟨firstChild_parent hq, firstChild_parent hq⟩
  obtain ⟨flag, c', d', he, hb', hr⟩ := parseFields_below (d := streamNo.store {} x) hb hfs
  have hq' : firstChild doc p streamNo.name = some q := hq
  refine ⟨flag, c'.getParent, d', ?_, hb'.up, ?_, ?_⟩
  · simp [parseData, parseField_found hc hq' hx, Cursor.checkNodeValid, he]
  · cases hn : c'.node <;> simpa [Cursor.getParent, hn] using hb'.pre
  · rw [← hr, recordAt, collect, List.foldlM_cons, hq', Option.bind_some, hx]
    rfl

/-- A record without: the cursor goes to the parent of the element found last. -/
theorem parseData_lost (hc : c.node = some p) (hs : firstChild doc p "StreamNo" = none) :
    parseData conv doc c {} = some (false, ⟨c.pre.bind parent, c.pre⟩, {}) := by
  have hs' : firstChild doc p streamNo.name = none := hs
  simp [parseData, parseField_lost hc hs', Cursor.checkNodeValid, Cursor.getParent]

/-! ### The loop -/

/-- The cursor has come back to the record it was at. -/
structure State.Back (s : State) (p : Path) : Prop where
  node : s.cursor.node = some p
  pre : s.cursor.pre.bind parent = some p

theorem parseRecord_found (hc : s.cursor.node = some p) (hs : (firstChild doc p "StreamNo").isSome)
    (ht : TextAt conv doc p) :
    ∃ s', parseRecord conv doc s = some s' ∧ s'.Back p ∧ s'.visits = s.visits ++ [some p] ∧
      s'.dataVec = s.dataVec ++ (recordAt conv doc p).toList := by
  obtain ⟨flag, c', d', he, hn, hp, hr⟩ := parseData_found hc hs ht
  refine ⟨_, by rw [parseRecord, he]; rfl, ⟨hn, hp⟩, by rw [hc], ?_⟩
  cases flag <;> simp [hr]

theorem parseRecord_lost (hc : s.cursor.node = some p) (hs : firstChild doc p "StreamNo" = none) :
    parseRecord conv doc s =
      some ⟨⟨s.cursor.pre.bind parent, s.cursor.pre⟩, s.dataVec, s.visits ++ [some p]⟩ := by
  rw [parseRecord, parseData_lost hc hs, ← hc]
  rfl

/-- The numbers of the records after the `i`-th child of the root. -/
def later (doc : Node) (i : ℕ) : List ℕ := positions "SyncData" ((kids doc [0]).drop (i + 1)) (i + 1)

theorem nextSibling_later : nextSibling doc "SyncData" [i, 0] = (later doc i).head?.map (· :: [0]) := rfl

theorem later_cons (h : later doc i = j :: rest) : later doc j = rest := positions_next h

theorem parseLoop_last (h : s.cursor.node.bind (nextSibling doc "SyncData") = none) :
    parseLoop conv doc (fuel + 1) s = some { s with cursor := { s.cursor with node := none } } := by
  simp [parseLoop, Cursor.findAllElement, h]

theorem parseLoop_next (h : s.cursor.node.bind (nextSibling doc "SyncData") = some p) :
    parseLoop conv doc (fuel + 1) s =
      (parseRecord conv doc { s with cursor := { s.cursor with node := some p } }).bind
        (parseLoop conv doc fuel) := by
  simp [parseLoop, Cursor.findAllElement, h]

/-- If all records to come have a `StreamNo`, the loop visits them and ends. -/
theorem parseLoop_all (h : later doc i = rest) (hb : s.Back [i, 0])
    (hs : ∀ j ∈ rest, (firstChild doc [j, 0] "StreamNo").isSome)
    (ht : ∀ j ∈ rest, TextAt conv doc [j, 0]) :
    ∃ s', parseLoop conv doc (rest.length + 1) s = some s' ∧
      s'.visits = s.visits ++ rest.map (fun j => some [j, 0]) ∧
      s'.dataVec = s.dataVec ++ rest.filterMap fun j => recordAt conv doc [j, 0] := by
  induction rest generalizing i s with
  | nil =>
    have hn : s.cursor.node.bind (nextSibling doc "SyncData") = none := by
      rw [hb.node, Option.bind_some, nextSibling_later, h]
      rfl
    exact ⟨_, parseLoop_last hn, by simp, by simp⟩
  | cons j rest ih =>
    have hn : s.cursor.node.bind (nextSibling doc "SyncData") = some [j, 0] := by
      rw [hb.node, Option.bind_some, nextSibling_later, h]
      rfl
    obtain ⟨hs, hss⟩ := List.forall_mem_cons.1 hs
    obtain ⟨ht, hts⟩ := List.forall_mem_cons.1 ht
    obtain ⟨s₁, he₁, hb₁, hv₁, hd₁⟩ :=
      parseRecord_found (s := { s with cursor := { s.cursor with node := some [j, 0] } }) rfl hs ht
    obtain ⟨s₂, he₂, hv₂, hd₂⟩ := ih (later_cons h) hb₁ hss hts
    refine ⟨s₂, ?_, ?_, ?_⟩
    · rw [parseLoop_next hn, he₁]
      exact he₂
    · rw [hv₂, hv₁]
      simp
    · rw [hd₂, hd₁]
      cases hr : recordAt conv doc [j, 0] <;> simp [hr]

/-- A record without `StreamNo` after another record: the cursor goes back to that one, for ever. -/
theorem parseLoop_stuck (h : later doc i = j :: rest) (hb : s.Back [i, 0])
    (hs : firstChild doc [j, 0] "StreamNo" = none) : parseLoop conv doc fuel s = none := by
  induction fuel generalizing s with
  | zero => rfl
  | succ fuel ih =>
    have hn : s.cursor.node.bind (nextSibling doc "SyncData") = some [j, 0] := by
      rw [hb.node, Option.bind_some, nextSibling_later, h]
      rfl
    rw [parseLoop_next hn, parseRecord_lost rfl hs]
    exact ih ⟨hb.pre, hb.pre⟩

/-- If the loop ends, the records to come have a `StreamNo`. -/
theorem parseLoop_numbered (he : parseLoop conv doc fuel s = some s') (h : later doc i = rest)
    (hb : s.Back [i, 0]) (ht : ∀ j ∈ rest, TextAt conv doc [j, 0]) :
    ∀ j ∈ rest, (firstChild doc [j, 0] "StreamNo").isSome := by
  induction rest generalizing i s fuel with
  | nil => simp
  | cons j rest ih =>
    obtain ⟨ht, hts⟩ := List.forall_mem_cons.1 ht
    cases hs : firstChild doc [j, 0] "StreamNo" with
    | none => exact absurd he (by simp [parseLoop_stuck h hb hs])
    | some q =>
      cases fuel with
      | zero => exact absurd he (by simp [parseLoop])
      | succ fuel =>
        have hn : s.cursor.node.bind (nextSibling doc "SyncData") = some [j, 0] := by
          rw [hb.node, Option.bind_some, nextSibling_later, h]
          rfl
        obtain ⟨s₁, he₁, hb₁, -⟩ := parseRecord_found
          (s := { s with cursor := { s.cursor with node := some [j, 0] } }) rfl (hs ▸ rfl) ht
        rw [parseLoop_next hn, he₁] at he
        exact List.forall_mem_cons.2 ⟨hs ▸ rfl, ih he (later_cons h) hb₁ hts⟩

/-- `ParseData` was called where it was called before, and perhaps elsewhere. -/
theorem parseLoop_visits (he : parseLoop conv doc fuel s = some s') : s.visits <+: s'.visits := by
  induction fuel generalizing s with
  | zero => exact absurd he (by simp [parseLoop])
  | succ fuel ih =>
    cases hn : s.cursor.node.bind (nextSibling doc "SyncData") with
    | none =>
      rw [parseLoop_last hn] at he
      obtain rfl := Option.some.inj he
      exact List.prefix_refl _
    | some p =>
      rw [parseLoop_next hn] at he
      obtain ⟨s₁, h₁, he⟩ := Option.bind_eq_some_iff.1 he
      obtain ⟨⟨flag, c, d⟩, -, hs₁⟩ := Option.bind_eq_some_iff.1 h₁
      obtain rfl := Option.some.inj hs₁
      exact (List.prefix_append _ _).trans (ih he)

/-! ### The whole request -/

/-- The parser ended, `ParseData` was called at the records, once each and in order, and the complete ones
were collected. -/
def Parsed (conv : String → String) (doc : Node) : Prop :=
  ∃ fuel s, parseWebService conv doc fuel = some (true, s) ∧ s.visits = (records doc).map some ∧
    s.dataVec = (records doc).filterMap (recordAt conv doc)

/-- The state in which `ParseData` is called first. -/
def first (i : ℕ) : State := ⟨⟨some [i, 0], some [i, 0]⟩, [], []⟩

theorem parseWebService_first (h : positions "SyncData" (kids doc [0]) 0 = i :: rest) :
    parseWebService conv doc fuel =
      ((parseRecord conv doc (first i)).bind (parseLoop conv doc fuel)).map (true, ·) := by
  have hroot : getRoot doc ⟨none, none⟩ = ⟨some [0], none⟩ := by
    unfold getRoot
    cases hc : doc.children[0]? with
    | none => simp [kids, Node.at, hc, positions] at h
    | some n => rfl
  have hf : firstChild doc [0] "SyncData" = some [i, 0] := by simp [firstChild, nextNamed, h]
  simp only [parseWebService, hroot, Cursor.checkNodeValid, Cursor.findElement, hf, Option.isSome_some,
    if_true]
  rfl

/-- A request whose records all have a `StreamNo`. -/
theorem parsed_of_all (h : positions "SyncData" (kids doc [0]) 0 = i :: rest)
    (hs : ∀ j ∈ i :: rest, (firstChild doc [j, 0] "StreamNo").isSome)
    (ht : ∀ j ∈ i :: rest, TextAt conv doc [j, 0]) : Parsed conv doc := by
  obtain ⟨hs, hss⟩ := List.forall_mem_cons.1 hs
  obtain ⟨ht, hts⟩ := List.forall_mem_cons.1 ht
  have hl : later doc i = rest := positions_next (k := 0) (by simpa using h)
  obtain ⟨s₁, he₁, hb₁, hv₁, hd₁⟩ := parseRecord_found (s := first i) rfl hs ht
  obtain ⟨s₂, he₂, hv₂, hd₂⟩ := parseLoop_all hl hb₁ hss hts
  refine ⟨rest.length + 1, s₂, ?_, ?_, ?_⟩
  · rw [parseWebService_first h, he₁, Option.bind_some, he₂]
    rfl
  · rw [hv₂, hv₁, records, h]
    simp [first, Function.comp_def]
  · rw [hd₂, hd₁, records, h]
    cases hr : recordAt conv doc [i, 0] <;> simp [first, hr, List.filterMap_map]

/-- A request with one record, without a `StreamNo`, after which nothing comes. -/
theorem parsed_of_one (h : positions "SyncData" (kids doc [0]) 0 = [i])
    (hs : firstChild doc [i, 0] "StreamNo" = none) (hn : nextSibling doc "SyncData" [0] = none) :
    Parsed conv doc := by
  refine ⟨1, ⟨⟨none, some [i, 0]⟩, [], [some [i, 0]]⟩, ?_, ?_, ?_⟩
  · rw [parseWebService_first h, parseRecord_lost (p := [i, 0]) rfl hs, Option.bind_some,
      parseLoop_last (by simpa [first, parent] using hn)]
    rfl
  · simp [records, h]
  · simp [records, h, recordAt, streamNo, hs]

theorem parsed_of_numbered (hr : records doc ≠ []) (ht : ∀ p ∈ records doc, TextAt conv doc p)
    (hn : Numbered doc) : Parsed conv doc := by
  cases h : positions "SyncData" (kids doc [0]) 0 with
  | nil => exact absurd (by rw [records, h]; rfl) hr
  | cons i rest =>
    have hm : ∀ j ∈ i :: rest, [j, 0] ∈ records doc := fun j hj => by
      rw [records, h]
      exact List.mem_map_of_mem hj
    rcases hn with hall | ⟨hone, hlast⟩
    · exact parsed_of_all h (fun j hj => hall _ (hm j hj)) fun j hj => ht _ (hm j hj)
    · have hnil : rest = [] := by simpa [records, h] using hone
      subst hnil
      cases hs : firstChild doc [i, 0] "StreamNo" with
      | none => exact parsed_of_one h hs hlast
      | some q =>
        refine parsed_of_all h (fun j hj => ?_) fun j hj => ht _ (hm j hj)
        rw [List.mem_singleton.1 hj, hs]
        rfl

theorem numbered_of_parsed (hr : records doc ≠ []) (ht : ∀ p ∈ records doc, TextAt conv doc p)
    (hp : Parsed conv doc) : Numbered doc := by
  cases h : positions "SyncData" (kids doc [0]) 0 with
  | nil => exact absurd (by rw [records, h]; rfl) hr
  | cons i rest =>
    obtain ⟨fuel, s, he, hv, -⟩ := hp
    rw [parseWebService_first h] at he
    obtain ⟨s', hb, hs'⟩ := Option.map_eq_some_iff.1 he
    obtain rfl := (Prod.mk.inj hs').2
    obtain ⟨s₁, h₁, he⟩ := Option.bind_eq_some_iff.1 hb
    have hl : later doc i = rest := positions_next (k := 0) (by simpa using h)
    have hm : ∀ j ∈ i :: rest, TextAt conv doc [j, 0] := fun j hj => by
      refine ht _ ?_
      rw [records, h]
      exact List.mem_map_of_mem hj
    cases hs : firstChild doc [i, 0] "StreamNo" with
    | some q =>
      obtain ⟨ht, hts⟩ := List.forall_mem_cons.1 hm
      obtain ⟨s₂, h₂, hb₂, -⟩ := parseRecord_found (s := first i) rfl (hs ▸ rfl) ht
      obtain rfl := Option.some.inj (h₁.symm.trans h₂)
      refine .inl fun p hp => ?_
      rw [records, h] at hp
      obtain ⟨j, hj, rfl⟩ := List.mem_map.1 hp
      rcases List.mem_cons.1 hj with rfl | hj
      · exact hs ▸ rfl
      · exact parseLoop_numbered he hl hb₂ hts j hj
    | none =>
      -- the cursor is at the root now, and does not come to its children any more
      obtain rfl := Option.some.inj ((parseRecord_lost (p := [i, 0]) rfl hs).symm.trans h₁)
      cases fuel with
      | zero => exact absurd he (by simp [parseLoop])
      | succ fuel =>
        cases hn : nextSibling doc "SyncData" [0] with
        | none =>
          rw [parseLoop_last (by simpa [first, parent] using hn)] at he
          obtain rfl := Option.some.inj he
          refine .inr ⟨?_, hn⟩
          simpa [first] using (congrArg List.length hv).symm
        | some q =>
          rw [parseLoop_next (p := q) (by simpa [first, parent] using hn)] at he
          obtain ⟨s₂, h₂, he⟩ := Option.bind_eq_some_iff.1 he
          obtain ⟨⟨flag, c, d⟩, -, hs₂⟩ := Option.bind_eq_some_iff.1 h₂
          obtain rfl := Option.some.inj hs₂
          have hpre := parseLoop_visits he
          rw [hv, records, h] at hpre
          obtain ⟨k, -, rfl⟩ := Option.map_eq_some_iff.1 hn
          cases rest <;> simp [first] at hpre

/-- **Requests are parsed** as they should be just when every record has a `StreamNo`, or there is one
record and nothing that comes after the root. -/
theorem parse_iff (hr : records doc ≠ []) (ht : ∀ p ∈ records doc, TextAt conv doc p) :
    Parsed conv doc ↔ Numbered doc :=
  ⟨numbered_of_parsed hr ht, parsed_of_numbered hr ht⟩

instance decidableTextAt (p : Path) : Decidable (TextAt conv doc p) :=
  inferInstanceAs (Decidable (∀ f ∈ streamNo :: others conv, ∀ q ∈ firstChild doc p f.name,
    ((doc.at q).bind Node.text).isSome))

instance decidableNumbered : Decidable (Numbered doc) := inferInstanceAs (Decidable (_ ∨ _))

/-- A document with these records. -/
def request (rs : List (List (String × String))) : Node :=
  .mk "" none [.mk "SyncRequest" none
    (rs.map fun r => .mk "SyncData" none (r.map fun f => .mk f.1 (some f.2) []))]

/-- A complete record and one without `OPFlag`. -/
def numberedRequest : Node :=
  request [[("StreamNo", "1"), ("OPFlag", "A"), ("CustID", "7"), ("CustAccount", "a"), ("CustName", "n"),
    ("InstalledAddress", "x")], [("StreamNo", "2"), ("CustID", "8")]]

theorem numberedRequest_parsed : Parsed id numberedRequest :=
  (parse_iff (by decide +kernel) (by decide +kernel)).2 (by decide +kernel)

/-- The second record has no `StreamNo`. -/
def lostRequest : Node := request [[("StreamNo", "1")], [("OPFlag", "A")]]

/-- The parser visits the second record again and again. -/
theorem parser_stuck : ¬ ∀ (conv : String → String) (doc : Node), records doc ≠ [] →
    (∀ p ∈ records doc, TextAt conv doc p) → Parsed conv doc := by
  intro hall
  have hr : records lostRequest ≠ [] := by decide +kernel
  have ht : ∀ p ∈ records lostRequest, TextAt id lostRequest p := by decide +kernel
  exact absurd (numbered_of_parsed hr ht (hall id lostRequest hr ht)) (by decide +kernel)

end StNvs.Sync.Parse
