import StNvs.Sync.Packet
import StNvs.Xml.RoundTrip

/-! # The trees of the synchronisation service, as texts

`DMXml` builds a tree of elements with `TinyXML`, `Encode` prints it and `Decode` parses it; the service walks
through the nodes of such a tree by their `Value`, the texts among them. Here the two are put together: what
one side of a connection builds, the other one finds, with its texts tidied.

* `reply_decoded`: the body of a reply decodes to the tree of the results.
* `request_received`: the records of an encoded request are parsed as they were meant, where no text reads
  like the name of an element that is looked for. -/

namespace StNvs.Xml.Service

open StNvs.Xml.Chars StNvs.Xml.Texts StNvs.Xml.Nodes StNvs.Xml.Bounds StNvs.Xml.RoundTrip
open StNvs.Sync.Parse StNvs.Sync.Packet

variable {n : Node} {ns : List Node} {doc : Node} {s : String} {p : Path} {name : String}

/-! ### From one tree to the other -/

mutual

/-- The element that `NewChild` makes: a text node, and behind it what was linked later. -/
def toXml : Node → XmlNode
  | .mk name text children =>
    .element name.toList [] ((text.map fun s => XmlNode.text false s.toList).toList ++ toXmls children)

def toXmls : List Node → List XmlNode
  | [] => []
  | n :: ns => toXml n :: toXmls ns

end

/-- `GetText`: the first child, if it is a text. -/
def getText : List XmlNode → Option String
  | .text _ s :: _ => some (String.ofList s)
  | _ => none

/-- A node that is no element. -/
def other (value : String) : Node := .mk value none []

mutual

/-- A node, as the service sees it; a declaration has no `Value`. -/
def ofXml : XmlNode → Node
  | .element name _ xs => .mk (String.ofList name) (getText xs) (ofXmls xs)
  | .text _ value => other (String.ofList value)
  | .declaration _ _ _ => other ""
  | .comment value => other (String.ofList value)
  | .unknown value => other (String.ofList value)

def ofXmls : List XmlNode → List Node
  | [] => []
  | x :: xs => ofXml x :: ofXmls xs

end

def isElement : XmlNode → Bool
  | .element _ _ _ => true
  | .text _ _ | .declaration _ _ _ | .comment _ | .unknown _ => false

/-- What `NewRoot` puts in front of the root. -/
def newRootDeclaration : XmlNode := .declaration "1.0".toList "utf-8".toList "no".toList

/-- `Encode`. -/
def encode (doc : Node) : String := String.ofList (print (newRootDeclaration :: toXmls doc.children))

/-- `Decode`: the document from its root on, whether there was an error or not. -/
def decode (context : List Char) : Except Stop Node :=
  (parse context).map fun x => .mk "" none (ofXmls (x.1.dropWhile fun x => !isElement x))

/-! ### What becomes of a tree -/

/-- A text that was printed and parsed; one that is nothing but white space is gone. -/
def tidyText (s : String) : Option String :=
  if blank (readBack s.toList) then none else some (String.ofList (readBack s.toList))

mutual

/-- An element that was printed and parsed: what is left of its text is the first of the nodes in it. -/
def tidy : Node → Node
  | .mk name text children =>
    .mk name (text.bind tidyText) (((text.bind tidyText).map other).toList ++ tidies children)

def tidies : List Node → List Node
  | [] => []
  | n :: ns => tidy n :: tidies ns

end

/-- Each element has a name, and a text that can be read back. -/
def Sound (doc : Node) : Prop := PrintableAll .utf8 (toXmls doc.children)

instance : Decidable (Sound doc) := decPrintableAll .utf8 (toXmls doc.children)

theorem isText_toXml (n : Node) : isText (toXml n) = false := by
  cases n
  rfl

/-- Elements are not dropped. -/
theorem settleAll_toXmls (n : Node) (ns : List Node) :
    settleAll (toXmls (n :: ns)) = settle (toXml n) :: settleAll (toXmls ns) := by
  rw [toXmls, settleAll, gone_of_not_text (isText_toXml n)]
  rfl

theorem getText_toXmls (ns : List Node) : getText (settleAll (toXmls ns)) = none := by
  cases ns with
  | nil => rfl
  | cons n ns =>
    rw [settleAll_toXmls]
    cases n
    rfl

mutual

/-- **An element** comes back tidied. -/
theorem ofXml_settle : ∀ n : Node, ofXml (settle (toXml n)) = tidy n
  | .mk name text children => by
    have hkids := ofXmls_settle children
    rw [toXml, settle, ofXml, tidy, String.ofList_toList]
    cases text with
    | none =>
      rw [Option.map_none, Option.toList_none, List.nil_append, getText_toXmls, hkids]
      rfl
    | some s =>
      rw [Option.map_some, Option.toList_some, List.singleton_append, settleAll, Option.bind_some, tidyText, gone]
      cases hb : blank (readBack s.toList) with
      | true =>
        simp only [if_true, getText_toXmls, hkids, Option.map_none, Option.toList_none, List.nil_append]
      | false =>
        simp only [Bool.false_eq_true, if_false, settle, getText, ofXmls, ofXml, hkids, Option.map_some,
          Option.toList_some, List.singleton_append]

theorem ofXmls_settle : ∀ ns : List Node, ofXmls (settleAll (toXmls ns)) = tidies ns
  | [] => rfl
  | n :: ns => by
    have hn := ofXml_settle n
    have hns := ofXmls_settle ns
    rw [settleAll_toXmls, ofXmls, hn, hns, tidies]

end

/-- The root is an element. -/
theorem dropWhile_toXmls (ns : List Node) :
    (settleAll (toXmls ns)).dropWhile (fun x => !isElement x) = settleAll (toXmls ns) := by
  cases ns with
  | nil => rfl
  | cons n ns =>
    rw [settleAll_toXmls]
    cases n
    rfl

theorem printableDocument_toXmls : ∀ {ns : List Node}, PrintableAll .utf8 (toXmls ns) →
    PrintableDocument .utf8 (toXmls ns)
  | [], _ => trivial
  | n :: ns, h => by
    refine ⟨h.1, isText_toXml n, ?_⟩
    have hnext : nextEncoding .utf8 (toXml n) = .utf8 := by
      cases n
      rfl
    rw [hnext]
    exact printableDocument_toXmls h.2.2

theorem decode_print (h : PrintableAll .utf8 (toXmls ns)) :
    decode (print (newRootDeclaration :: toXmls ns)) = .ok (.mk "" none (tidies ns)) := by
  have hdoc : PrintableDocument .unknown (newRootDeclaration :: toXmls ns) :=
    ⟨by decide +kernel, rfl, printableDocument_toXmls h⟩
  rw [decode, print_eq, parse_pretty (List.cons_ne_nil _ _) hdoc]
  have hsettle : settleAll (newRootDeclaration :: toXmls ns) = newRootDeclaration :: settleAll (toXmls ns) := rfl
  rw [hsettle]
  change Except.ok (Node.mk "" none (ofXmls ((settleAll (toXmls ns)).dropWhile fun x => !isElement x))) = _
  rw [dropWhile_toXmls, ofXmls_settle]

/-! ### The end of a C string -/

theorem nul_escape {c : Char} (h : '\x00' ∈ escape c) : c = '\x00' := by
  unfold escape at h
  split_ifs at h with h1 h2 h3 h4 h5 h6
  · exact absurd h (by decide)
  · exact absurd h (by decide)
  · exact absurd h (by decide)
  · exact absurd h (by decide)
  · exact absurd h (by decide)
  · have hdig : ∀ n < 32, '\x00' ∉
        "&#x".toList ++ [(Nat.digitChar (n / 16)).toUpper, (Nat.digitChar (n % 16)).toUpper, ';'] := by
      decide
    exact absurd h (hdig _ h6)
  · exact (List.mem_singleton.mp h).symm

theorem nul_encodeFrom : ∀ (l : List Char) (raw : Bool), '\x00' ∈ encodeFrom raw l → '\x00' ∈ l
  | [], _, h => absurd h List.not_mem_nil
  | c :: l, raw, h => by
    unfold encodeFrom at h
    split_ifs at h
    · rcases List.mem_cons.mp h with h | h
      · exact h ▸ List.mem_cons_self
      · exact List.mem_cons_of_mem c (nul_encodeFrom l _ h)
    · rcases List.mem_append.mp h with h | h
      · exact nul_escape h ▸ List.mem_cons_self
      · exact List.mem_cons_of_mem c (nul_encodeFrom l _ h)

mutual

/-- No `NUL` in a name or a text. -/
def NulFree : Node → Prop
  | .mk name text children => '\x00' ∉ name.toList ∧ (∀ s ∈ text, '\x00' ∉ s.toList) ∧ NulFrees children

def NulFrees : List Node → Prop
  | [] => True
  | n :: ns => NulFree n ∧ NulFrees ns

end

mutual

def decNulFree : ∀ n : Node, Decidable (NulFree n)
  | .mk name text children =>
    have := decNulFrees children
    inferInstanceAs (Decidable ('\x00' ∉ name.toList ∧ (∀ s ∈ text, '\x00' ∉ s.toList) ∧ NulFrees children))

def decNulFrees : ∀ ns : List Node, Decidable (NulFrees ns)
  | [] => .isTrue trivial
  | n :: ns =>
    have := decNulFree n
    have := decNulFrees ns
    inferInstanceAs (Decidable (NulFree n ∧ NulFrees ns))

end

instance decidableNulFrees : Decidable (NulFrees ns) := decNulFrees ns

theorem nul_indent (d : ℕ) : '\x00' ∉ indent d := fun h => absurd (indent_white d _ h) (by decide)

theorem nul_content {xs : List XmlNode} {d : ℕ} {value inner : List Char} (hv : '\x00' ∉ value)
    (hi : '\x00' ∉ inner) (hs : ∀ t, xs = [.text false t] → '\x00' ∉ t) : '\x00' ∉ content d value inner xs := by
  have hend : '\x00' ∉ endTag value := by
    simp only [endTag, List.mem_append, not_or]
    exact ⟨⟨by decide, hv⟩, by decide⟩
  rcases children_cases xs with rfl | ⟨t, rfl⟩ | ⟨-, -, hc⟩
  · exact (by decide : '\x00' ∉ " />".toList)
  · have ht : '\x00' ∉ encodeString t := fun h => hs t rfl (nul_encodeFrom t false h)
    simp only [content, List.mem_append, List.mem_cons, not_or]
    exact ⟨⟨by decide, ht⟩, hend⟩
  · rw [hc]
    simp only [List.mem_append, not_or]
    exact ⟨⟨⟨by decide, hi⟩, nul_indent d⟩, hend⟩

mutual

/-- The printer writes no `NUL`. -/
theorem nul_pretty (d : ℕ) : ∀ n : Node, NulFree n → '\x00' ∉ pretty d (toXml n)
  | .mk name text children, h => by
    obtain ⟨hname, htext, hkids⟩ := h
    have hxs := nul_prettyAll (d + 1) children hkids
    have hin : '\x00' ∉ prettyAll (d + 1)
        ((text.map fun s => XmlNode.text false s.toList).toList ++ toXmls children) := by
      cases text with
      | none => exact hxs
      | some s =>
        have hs : '\x00' ∉ encodeString s.toList := fun h => htext s rfl (nul_encodeFrom s.toList false h)
        simp only [Option.map_some, Option.toList_some, List.singleton_append, prettyAll, pretty, Bool.false_eq_true,
          if_false, List.mem_append, not_or]
        exact ⟨⟨⟨nul_indent _, hs⟩, by decide⟩, hxs⟩
    rw [toXml, pretty]
    simp only [List.mem_append, List.mem_cons, not_or]
    refine ⟨⟨⟨by decide, hname⟩, List.not_mem_nil⟩, nul_content hname hin fun t ht => ?_⟩
    cases text with
    | none =>
      cases children with
      | nil => cases ht
      | cons n ns =>
        have hn := isText_toXml n
        rw [(List.cons.inj ht).1] at hn
        cases hn
    | some s =>
      obtain rfl := (XmlNode.text.inj (List.cons.inj ht).1).2
      exact htext s rfl

theorem nul_prettyAll (d : ℕ) : ∀ ns : List Node, NulFrees ns → '\x00' ∉ prettyAll d (toXmls ns)
  | [], _ => List.not_mem_nil
  | n :: ns, h => by
    have hn := nul_pretty d n h.1
    have hns := nul_prettyAll d ns h.2
    simp only [toXmls, prettyAll, List.mem_append, not_or]
    exact ⟨⟨⟨nul_indent d, hn⟩, by decide⟩, hns⟩

end

theorem nul_print (h : NulFrees ns) : '\x00' ∉ print (newRootDeclaration :: toXmls ns) := by
  have hdecl : '\x00' ∉ indent 0 ++ pretty 0 newRootDeclaration ++ "\n".toList := by decide
  have hns := nul_prettyAll 0 ns h
  rw [print_eq, prettyAll, List.mem_append, not_or]
  exact ⟨hdecl, hns⟩

/-- `strdup` of what the printer has written keeps all of it. -/
theorem cStr_encode (h : NulFrees doc.children) :
    cStr (encode doc) = print (newRootDeclaration :: toXmls doc.children) := by
  rw [cStr, encode, String.toList_ofList]
  refine List.takeWhile_eq_self_iff.mpr fun c hc => decide_eq_true ?_
  rintro rfl
  exact nul_print h hc

/-! ### Replies -/

/-- What the service puts into a result. -/
def fieldsOf (r : SyncPlatformDataResult) : List String := [r.serialNumber, r.errCode, r.desc, r.userState, r.viewName]

/-- The fields of the results can be read back. -/
def SoundResults (rs : List SyncPlatformDataResult) : Prop :=
  ∀ r ∈ rs, ∀ s ∈ fieldsOf r, Printable .utf8 (.text false (cStr s))

instance {rs : List SyncPlatformDataResult} : Decidable (SoundResults rs) :=
  inferInstanceAs (Decidable (∀ r ∈ rs, ∀ s ∈ fieldsOf r, Printable .utf8 (.text false (cStr s))))

theorem nul_cStr (s : String) : '\x00' ∉ cStr s := by
  intro h
  have hne := List.all_eq_true.mp (List.all_takeWhile (p := fun c => decide (c ≠ '\x00')) (l := s.toList)) _ h
  exact absurd hne (by decide)

theorem nulFree_resultNode (r : SyncPlatformDataResult) : NulFree (resultNode r) := by
  have hfield : ∀ name value, '\x00' ∉ name.toList → NulFree (field name value) := by
    intro name value hname
    refine ⟨hname, fun s hs => ?_, trivial⟩
    cases hs
    rw [String.toList_ofList]
    exact nul_cStr value
  exact ⟨by decide, fun _ h => (by cases h), hfield _ _ (by decide), hfield _ _ (by decide), hfield _ _ (by decide),
    hfield _ _ (by decide), hfield _ _ (by decide), trivial⟩

theorem tidies_eq (ns : List Node) : tidies ns = ns.map tidy := by
  induction ns with
  | nil => rfl
  | cons n ns ih => rw [tidies, ih, List.map_cons]

theorem nulFrees_of_forall (h : ∀ n ∈ ns, NulFree n) : NulFrees ns := by
  induction ns with
  | nil => trivial
  | cons n ns ih => exact ⟨h n List.mem_cons_self, ih fun m hm => h m (List.mem_cons_of_mem n hm)⟩

/-- Elements are printed beside each other as each of them is. -/
theorem printableAll_toXmls (h : ∀ n ∈ ns, Printable .utf8 (toXml n)) : PrintableAll .utf8 (toXmls ns) := by
  induction ns with
  | nil => trivial
  | cons n ns ih =>
    refine ⟨h n List.mem_cons_self, fun hx => ?_, ih fun m hm => h m (List.mem_cons_of_mem n hm)⟩
    rw [isText_toXml] at hx
    cases hx

theorem printable_field {value : String} (hname : PrintableName .utf8 name.toList)
    (h : Printable .utf8 (.text false (cStr value))) : Printable .utf8 (toXml (field name value)) := by
  rw [field, toXml, Option.map_some, String.toList_ofList]
  exact ⟨hname, by decide, h, fun _ => rfl, trivial⟩

theorem printable_resultNode {r : SyncPlatformDataResult}
    (h : ∀ s ∈ fieldsOf r, Printable .utf8 (.text false (cStr s))) :
    Printable .utf8 (toXml (resultNode r)) := by
  refine ⟨by decide, by decide, printableAll_toXmls ?_⟩
  simp only [List.forall_mem_cons]
  exact ⟨printable_field (by decide) (h _ (by simp [fieldsOf])), printable_field (by decide) (h _ (by simp [fieldsOf])),
    printable_field (by decide) (h _ (by simp [fieldsOf])), printable_field (by decide) (h _ (by simp [fieldsOf])),
    printable_field (by decide) (h _ (by simp [fieldsOf])), fun _ hn => absurd hn List.not_mem_nil⟩

/-- **Replies**: the body of a reply with results decodes to one element for each result, in order, with their
fields tidied. -/
theorem reply_decoded {rs : List SyncPlatformDataResult} (hne : rs ≠ []) (h : SoundResults rs) :
    decode (bodyOf encode rs) =
      .ok (.mk "" none [.mk "SyncResponseResult" none (rs.map fun r => tidy (resultNode r))]) := by
  have hkids : ∀ n ∈ rs.map resultNode, Printable .utf8 (toXml n) ∧ NulFree n := by
    intro n hn
    obtain ⟨r, hr, rfl⟩ := List.mem_map.mp hn
    exact ⟨printable_resultNode (h r hr), nulFree_resultNode r⟩
  have hsound : PrintableAll .utf8 (toXmls [.mk "SyncResponseResult" none (rs.map resultNode)]) := by
    refine printableAll_toXmls fun n hn => ?_
    rw [List.mem_singleton.mp hn]
    exact ⟨by decide, by decide, printableAll_toXmls fun m hm => (hkids m hm).1⟩
  have hnul : NulFrees [.mk "SyncResponseResult" none (rs.map resultNode)] :=
    ⟨⟨by decide, fun _ ht => (by cases ht), nulFrees_of_forall fun m hm => (hkids m hm).2⟩, trivial⟩
  have htree := tree_results rs
  have hbody : bodyOf encode rs = print (newRootDeclaration ::
      toXmls [.mk "SyncResponseResult" none (rs.map resultNode)]) := by
    rw [bodyOf, if_pos hne, htree]
    exact cStr_encode hnul
  rw [hbody, decode_print hsound]
  simp only [tidies, tidy, Option.bind_none, Option.map_none, Option.toList_none, List.nil_append,
    tidies_eq, List.map_map]
  rfl

/-- A result whose description has spare blanks and whose viewer has no name, and one that failed. -/
theorem reply_decoded_viewer :
    decode (bodyOf encode [⟨"7", "0", " a  b", "1", ""⟩, ⟨"8", "-1", "<no>", "", "v"⟩]) =
      .ok (.mk "" none [.mk "SyncResponseResult" none [
        .mk "SyncResult" none [.mk "StreamNo" (some "7") [other "7"], .mk "Result" (some "0") [other "0"],
          .mk "Descr" (some "a b") [other "a b"], .mk "OPFlag" (some "1") [other "1"], .mk "ViewerName" none []],
        .mk "SyncResult" none [.mk "StreamNo" (some "8") [other "8"], .mk "Result" (some "-1") [other "-1"],
          .mk "Descr" (some "<no>") [other "<no>"], .mk "OPFlag" none [],
          .mk "ViewerName" (some "v") [other "v"]]]]) :=
  reply_decoded (List.cons_ne_nil _ _) (by decide +kernel)

/-! ### Nodes and their places -/

/-- The first node of a name. -/
def named (name : String) (ns : List Node) : Option Node := ns.find? fun n => n.name = name

/-- The nodes at the numbers of a name are those of the name. -/
theorem map_positions (name : String) : ∀ (l front : List Node),
    (positions name l front.length).map (fun i => (front ++ l)[i]?) = (l.filter fun n => n.name = name).map some
  | [], _ => rfl
  | n :: l, front => by
    have ih := map_positions name l (front ++ [n])
    rw [List.append_assoc, List.singleton_append, List.length_append, List.length_singleton] at ih
    rw [positions]
    split_ifs with hn
    · rw [List.filter_cons_of_pos (by simpa using hn), List.map_cons, List.map_cons, ih]
      simp
    · rw [List.filter_cons_of_neg (by simpa using hn), ih]

theorem at_cons (doc : Node) (p : Path) (i : ℕ) : doc.at (i :: p) = (kids doc p)[i]? := by
  rw [Node.at, kids]
  cases doc.at p <;> rfl

theorem at_records (doc : Node) :
    (records doc).map doc.at = ((kids doc [0]).filter fun n => n.name = "SyncData").map some := by
  have h := map_positions "SyncData" (kids doc [0]) []
  rw [List.nil_append, List.length_nil] at h
  rw [records, List.map_map, ← h]
  exact List.map_congr_left fun i _ => at_cons doc [0] i

theorem at_firstChild (doc : Node) (p : Path) (name : String) :
    (firstChild doc p name).bind doc.at = named name (kids doc p) := by
  have h := map_positions name (kids doc p) []
  rw [List.nil_append, List.length_nil] at h
  rw [firstChild, nextNamed, List.drop_zero, named, ← List.head?_filter]
  have hhead := congrArg List.head? h
  rw [List.head?_map, List.head?_map] at hhead
  cases hp : (positions name (kids doc p) 0).head? with
  | none =>
    rw [hp] at hhead
    cases hf : ((kids doc p).filter fun n => n.name = name).head? with
    | none => rfl
    | some n =>
      rw [hf] at hhead
      cases hhead
  | some i =>
    rw [hp, Option.map_some] at hhead
    cases hf : ((kids doc p).filter fun n => n.name = name).head? with
    | none =>
      rw [hf] at hhead
      cases hhead
    | some n =>
      rw [hf] at hhead
      rw [Option.map_some, Option.bind_some, at_cons]
      exact Option.some.inj hhead

/-! ### Requests -/

theorem tidy_children (n : Node) :
    (tidy n).children = ((n.text.bind tidyText).map other).toList ++ n.children.map tidy := by
  cases n
  rw [tidy, tidies_eq]
  rfl

theorem tidy_name (n : Node) : (tidy n).name = n.name := by
  cases n
  rfl

theorem tidy_text (n : Node) : (tidy n).text = n.text.bind tidyText := by
  cases n
  rfl

/-- The text of an element is not found where nodes of another name are looked for. -/
theorem filter_tidy {n : Node} (h : n.text.bind tidyText ≠ some name) :
    (tidy n).children.filter (fun m => m.name = name) = (n.children.filter fun m => m.name = name).map tidy := by
  have hown : ((n.text.bind tidyText).map other).toList.filter (fun m => m.name = name) = [] := by
    cases ht : n.text.bind tidyText with
    | none => rfl
    | some s =>
      have hs : s ≠ name := fun he => h (ht.trans (congrArg some he))
      exact List.filter_cons_of_neg fun hx => hs (of_decide_eq_true hx)
  rw [tidy_children, List.filter_append, hown, List.nil_append, List.filter_map]
  congr 1
  exact List.filter_congr fun m _ => by rw [Function.comp_apply, tidy_name]

theorem named_tidy {n : Node} (h : n.text.bind tidyText ≠ some name) :
    named name (tidy n).children = (named name n.children).map tidy := by
  rw [named, named, ← List.head?_filter, ← List.head?_filter, filter_tidy h, List.head?_map]

theorem named_map (name : String) (ns : List Node) : named name (ns.map tidy) = (named name ns).map tidy := by
  rw [named, named, List.find?_map]
  congr 2
  funext m
  rw [Function.comp_apply, tidy_name]

/-- The records of a request. -/
def sent (ns : List Node) : List Node :=
  ((ns.head?.map Node.children).getD []).filter fun n => n.name = "SyncData"

/-- What is collected of a record in which there are these nodes, if it has the fields. -/
def gather (fs : List Field) (ns : List Node) (d : SyncPlatformData) : Option SyncPlatformData :=
  fs.foldlM (fun d f => ((named f.name ns).bind Node.text).map (f.store d)) d

def recordOf (conv : String → String) (ns : List Node) : Option SyncPlatformData :=
  gather (streamNo :: others conv) ns {}

/-- The records can be read: each has a `StreamNo`, or there is one and no other element it could be taken
for, there is more than white space in their fields, and the texts that are not in a field do not read like the
name of an element that is looked for there. -/
structure Legible (conv : String → String) (ns : List Node) : Prop where
  records : sent ns ≠ []
  numbered : (∀ n ∈ sent ns, (named "StreamNo" n.children).isSome) ∨
    (sent ns).length = 1 ∧ ∀ n ∈ ns.tail, n.name ≠ "SyncData"
  fields : ∀ n ∈ sent ns, ∀ f ∈ streamNo :: others conv, ∀ m ∈ named f.name n.children,
    (m.text.bind tidyText).isSome
  root : ∀ n ∈ ns.head?, n.text.bind tidyText ≠ some "SyncData"
  own : ∀ n ∈ sent ns, ∀ f ∈ streamNo :: others conv, n.text.bind tidyText ≠ some f.name

variable {conv : String → String}

theorem gather_congr {ns ns' : List Node} (fs : List Field) (d : SyncPlatformData)
    (h : ∀ f ∈ fs, named f.name ns = named f.name ns') : gather fs ns d = gather fs ns' d := by
  induction fs generalizing d with
  | nil => rfl
  | cons f fs ih =>
    obtain ⟨hf, hfs⟩ := List.forall_mem_cons.mp h
    rw [gather, gather, List.foldlM_cons, List.foldlM_cons, hf]
    exact congrArg _ (funext fun d' => ih d' hfs)

theorem collect_eq (fs : List Field) (d : SyncPlatformData) : collect doc p fs d = gather fs (kids doc p) d := by
  unfold collect gather
  congr 1
  funext d f
  rw [← at_firstChild, Option.bind_assoc]

/-- What is collected of a record is found in it, wherever the record is. -/
theorem recordAt_eq (conv : String → String) (doc : Node) (p : Path) :
    recordAt conv doc p = recordOf conv (kids doc p) := collect_eq _ _

theorem recordOf_tidy {n : Node} (h : ∀ f ∈ streamNo :: others conv, n.text.bind tidyText ≠ some f.name) :
    recordOf conv (tidy n).children = recordOf conv (n.children.map tidy) :=
  gather_congr _ _ fun f hf => (named_tidy (h f hf)).trans (named_map f.name n.children).symm

/-- The document that is decoded. -/
def received (ns : List Node) : Node := .mk "" none (tidies ns)

theorem kids_received (ns : List Node) :
    kids (received ns) [0] = (ns.head?.map fun n => (tidy n).children).getD [] := by
  rw [kids, at_cons]
  cases ns with
  | nil => rfl
  | cons n ns => rfl

/-- **The records** of the document are those that were put in. -/
theorem records_received (h : Legible conv ns) :
    (records (received ns)).map (received ns).at = (sent ns).map fun n => some (tidy n) := by
  rw [at_records, kids_received, sent]
  cases ns with
  | nil => rfl
  | cons n ns =>
    have hf := filter_tidy (h.root n rfl)
    simp only [List.head?_cons, Option.map_some, Option.getD_some]
    rw [hf, List.map_map]
    rfl

theorem length_received (h : Legible conv ns) : (records (received ns)).length = (sent ns).length := by
  have hlen := congrArg List.length (records_received h)
  rwa [List.length_map, List.length_map] at hlen

/-- The element of a field is found in the record that was put in. -/
theorem firstChild_received (h : Legible conv ns) (hp : p ∈ records (received ns)) :
    ∃ n ∈ sent ns, ∀ f ∈ streamNo :: others conv,
      (firstChild (received ns) p f.name).bind (received ns).at = (named f.name n.children).map tidy := by
  have hm : (received ns).at p ∈ (sent ns).map fun n => some (tidy n) := by
    rw [← records_received h]
    exact List.mem_map_of_mem hp
  obtain ⟨n, hn, hat⟩ := List.mem_map.mp hm
  have hk : kids (received ns) p = (tidy n).children := by
    rw [kids, ← hat]
    rfl
  refine ⟨n, hn, fun f hf => ?_⟩
  rw [at_firstChild, hk, named_tidy (h.own n hn f hf)]

/-- A node that is found is there. -/
theorem at_of_firstChild {q : Path} (h : firstChild doc p name = some q) : (doc.at q).isSome := by
  obtain ⟨i, hi, rfl⟩ := Option.map_eq_some_iff.mp h
  have hmem : i ∈ positions name (kids doc p) 0 := List.mem_of_head? (by simpa [nextNamed] using hi)
  have hmap := map_positions name (kids doc p) []
  rw [List.nil_append, List.length_nil] at hmap
  have hat : (kids doc p)[i]? ∈ ((kids doc p).filter fun n => n.name = name).map some := by
    rw [← hmap]
    exact List.mem_map_of_mem (f := fun i => (kids doc p)[i]?) hmem
  obtain ⟨n, -, hn⟩ := List.mem_map.mp hat
  rw [at_cons, ← hn]
  rfl

theorem textAt_received (h : Legible conv ns) (hp : p ∈ records (received ns)) : TextAt conv (received ns) p := by
  obtain ⟨n, hn, hfound⟩ := firstChild_received h hp
  intro f hf q hq
  have hat := hfound f hf
  obtain ⟨m', hm'⟩ := Option.isSome_iff_exists.mp (at_of_firstChild (Option.mem_def.mp hq))
  rw [Option.mem_def.mp hq, Option.bind_some, hm'] at hat
  obtain ⟨m, hm, rfl⟩ := Option.map_eq_some_iff.mp hat.symm
  rw [hm', Option.bind_some, tidy_text]
  exact h.fields n hn f hf m hm

theorem positions_eq_nil {l : List Node} {k : ℕ} (h : ∀ n ∈ l, n.name ≠ name) : positions name l k = [] := by
  induction l generalizing k with
  | nil => rfl
  | cons n l ih =>
    obtain ⟨hn, hl⟩ := List.forall_mem_cons.mp h
    rw [positions, if_neg hn, ih hl]

theorem numbered_received (h : Legible conv ns) : Numbered (received ns) := by
  rcases h.numbered with hall | ⟨hone, hlast⟩
  · refine .inl fun p hp => ?_
    obtain ⟨n, hn, hfound⟩ := firstChild_received h hp
    have hat := hfound streamNo List.mem_cons_self
    cases hf : firstChild (received ns) p "StreamNo" with
    | some q => rfl
    | none =>
      obtain ⟨m, hm⟩ := Option.isSome_iff_exists.mp (hall n hn)
      have hnone : firstChild (received ns) p streamNo.name = none := hf
      have hsome : named streamNo.name n.children = some m := hm
      rw [hnone, hsome] at hat
      cases hat
  · refine .inr ⟨(length_received h).trans hone, ?_⟩
    have hkids : kids (received ns) [] = ns.map tidy := by
      rw [← tidies_eq]
      rfl
    rw [nextSibling, nextNamed, hkids, ← List.map_drop, List.drop_one, positions_eq_nil]
    · rfl
    · intro m hm
      obtain ⟨n, hn, rfl⟩ := List.mem_map.mp hm
      rw [tidy_name]
      exact hlast n hn

/-- **Requests**: when an encoded request is decoded and its records can be read, the service visits the records
that were put in, in order, and collects the complete ones with their fields tidied. -/
theorem request_received (hs : Sound (.mk "" none ns)) (hnul : NulFrees ns) (h : Legible conv ns) :
    ∃ doc fuel s, decode (cStr (encode (.mk "" none ns))) = .ok doc ∧
      parseWebService conv doc fuel = some (true, s) ∧
      s.visits.map (fun p => p.bind doc.at) = (sent ns).map (fun n => some (tidy n)) ∧
      s.dataVec = (sent ns).filterMap fun n => recordOf conv (n.children.map tidy) := by
  have hne : records (received ns) ≠ [] := by
    rw [← List.length_pos_iff, length_received h, List.length_pos_iff]
    exact h.records
  obtain ⟨fuel, s, hp, hv, hd⟩ := parsed_of_numbered hne (fun p hp => textAt_received h hp) (numbered_received h)
  refine ⟨received ns, fuel, s, ?_, hp, ?_, ?_⟩
  · rw [cStr_encode (show NulFrees (Node.mk "" none ns).children from hnul)]
    exact decode_print hs
  · rw [hv, List.map_map, ← records_received h]
    rfl
  · calc s.dataVec = (records (received ns)).filterMap (recordAt conv (received ns)) := hd
      _ = ((records (received ns)).map (received ns).at).filterMap
            (fun x => recordOf conv ((x.map Node.children).getD [])) := by
          rw [List.filterMap_map]
          exact List.filterMap_congr fun p _ => recordAt_eq conv (received ns) p
      _ = (sent ns).filterMap fun n => recordOf conv (n.children.map tidy) := by
          rw [records_received h, List.filterMap_map]
          exact List.filterMap_congr fun n hn => recordOf_tidy (h.own n hn)

/-- A complete record whose name has spare blanks and whose account reads like an element, and one without
`OPFlag`. -/
def spareRequest : Node :=
  request [[("StreamNo", "1"), ("OPFlag", "A"), ("CustID", "7"), ("CustAccount", "CustName"), ("CustName", " n  m "),
    ("InstalledAddress", "<x>")], [("StreamNo", "2"), ("CustID", "8")]]

theorem spareRequest_received : ∃ doc fuel s, decode (cStr (encode spareRequest)) = .ok doc ∧
    parseWebService id doc fuel = some (true, s) ∧
    s.visits.map (fun p => p.bind doc.at) = (sent spareRequest.children).map (fun n => some (tidy n)) ∧
    s.dataVec = (sent spareRequest.children).filterMap fun n => recordOf id (n.children.map tidy) :=
  request_received (by decide +kernel) (by decide +kernel)
    ⟨by decide +kernel, .inl (by decide +kernel), by decide +kernel, by decide +kernel, by decide +kernel⟩

end StNvs.Xml.Service
