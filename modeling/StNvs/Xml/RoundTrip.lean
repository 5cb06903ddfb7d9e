import StNvs.Xml.Bounds

/-! # What is printed is read back

The printer goes through a tree with a buffer, a depth and a flag; what it appends for a node depends on the
depth alone (`accept_eq`). Read back, an element has its attributes as they were, a text has its blanks
condensed, and a text with nothing but white space is gone (`settle`).

* `parse_print`: a printable document that is printed and parsed is the document without its spare blanks. -/

namespace StNvs.Xml.RoundTrip

open StNvs.Xml.Chars StNvs.Xml.Texts StNvs.Xml.Nodes StNvs.Xml.Bounds

variable {enc : Encoding} {c d : Char} {l m r s cs ws name value : List Char} {error : Option Error} {n : ℕ}

/-! ### What the printer appends -/

def indent (d : ℕ) : List Char := (List.replicate d "    ".toList).flatten

def printAttributes (as : List Attribute) : List Char := (attributesFrom as).flatMap fun a => ' ' :: printAttribute a

def endTag (value : List Char) : List Char := "</".toList ++ value ++ ">".toList

/-- What is appended for the content of an element, and for the end tag. -/
def content (d : ℕ) (value inner : List Char) : List XmlNode → List Char
  | [] => " />".toList
  | [.text false s] => '>' :: encodeString s ++ endTag value
  | _ => ">\n".toList ++ inner ++ indent d ++ endTag value

mutual

/-- What is appended for a node at a depth, without its indentation and its line break. -/
def pretty (d : ℕ) : XmlNode → List Char
  | .element value as xs => '<' :: value ++ printAttributes as ++ content d value (prettyAll (d + 1) xs) xs
  | .text cdata value => if cdata then "<![CDATA[".toList ++ value ++ "]]>".toList else encodeString value
  | .declaration version encoding standalone => printDeclaration version encoding standalone
  | .comment value => "<!--".toList ++ value ++ "-->".toList
  | .unknown value => "<".toList ++ value ++ ">".toList

def prettyAll (d : ℕ) : List XmlNode → List Char
  | [] => []
  | x :: xs => indent d ++ pretty d x ++ "\n".toList ++ prettyAll d xs

end

/-- What an element can hold: nothing, a text, or something else. -/
theorem children_cases (xs : List XmlNode) : xs = [] ∨ (∃ s, xs = [.text false s]) ∨
    xs.isEmpty = false ∧ isSimple xs = false ∧
      ∀ d value inner, content d value inner xs = ">\n".toList ++ inner ++ indent d ++ endTag value := by
  match xs with
  | [] => exact .inl rfl
  | [.text false s] => exact .inr (.inl ⟨s, rfl⟩)
  | [.text true _] => exact .inr (.inr ⟨rfl, rfl, fun _ _ _ => rfl⟩)
  | [.element _ _ _] => exact .inr (.inr ⟨rfl, rfl, fun _ _ _ => rfl⟩)
  | [.declaration _ _ _] => exact .inr (.inr ⟨rfl, rfl, fun _ _ _ => rfl⟩)
  | [.comment _] => exact .inr (.inr ⟨rfl, rfl, fun _ _ _ => rfl⟩)
  | [.unknown _] => exact .inr (.inr ⟨rfl, rfl, fun _ _ _ => rfl⟩)
  | x :: y :: xs => exact .inr (.inr ⟨rfl, by simp [isSimple], by simp [content]⟩)

open Printer

mutual

/-- A node is appended to the buffer; the depth and the flag are as they were. -/
theorem accept_eq (d : ℕ) : ∀ (x : XmlNode) (b : List Char),
    accept x ⟨d, false, b⟩ = ⟨d, false, b ++ (indent d ++ pretty d x ++ "\n".toList)⟩
  | .element value as xs, b => by
    rcases children_cases xs with rfl | ⟨s, rfl⟩ | ⟨hne, hsimple, hcontent⟩
    · simp [accept, acceptAll, visitEnter, visitExit, doIndent, doLineBreak, put, pretty, content, indent,
        printAttributes]
    · simp [accept, acceptAll, visitEnter, visitExit, doIndent, doLineBreak, put, pretty, content, indent,
        printAttributes, isSimple, visitText, endTag]
    · have hin : visitEnter value as xs ⟨d, false, b⟩ =
          ⟨d + 1, false, b ++ (indent d ++ ('<' :: value ++ printAttributes as ++ ">\n".toList))⟩ := by
        simp [visitEnter, hne, hsimple, doIndent, doLineBreak, put, indent, printAttributes]
      rw [accept, hin, acceptAll_eq (d + 1) xs, pretty, hcontent]
      simp [visitExit, hne, doIndent, doLineBreak, put, indent, endTag]
  | .text true value, b => by simp [accept, visitText, doIndent, doLineBreak, put, pretty, indent]
  | .text false value, b => by simp [accept, visitText, doIndent, doLineBreak, put, pretty, indent]
  | .declaration version encoding standalone, b => by simp [accept, doIndent, doLineBreak, put, pretty, indent]
  | .comment value, b => by simp [accept, doIndent, doLineBreak, put, pretty, indent]
  | .unknown value, b => by simp [accept, doIndent, doLineBreak, put, pretty, indent]

theorem acceptAll_eq (d : ℕ) : ∀ (xs : List XmlNode) (b : List Char),
    acceptAll xs ⟨d, false, b⟩ = ⟨d, false, b ++ prettyAll d xs⟩
  | [], b => by simp [acceptAll, prettyAll]
  | x :: xs, b => by
    rw [acceptAll, accept_eq d x b, acceptAll_eq d xs, prettyAll]
    simp only [List.append_assoc]

end

theorem print_eq (document : List XmlNode) : print document = prettyAll 0 document := by
  rw [print, acceptAll_eq, List.nil_append]

/-! ### Names and attributes -/

theorem isNameChar_ge (h : isNameChar c = true) : 45 ≤ c.toNat := by
  have hc : isAlphaNum c = true ∨ c = '_' ∨ c = '-' ∨ c = '.' ∨ c = ':' := of_decide_eq_true h
  rcases hc with hc | rfl | rfl | rfl | rfl
  · unfold isAlphaNum at hc
    split_ifs at hc with hlow
    · simp only [Char.isAlphanum, Char.isAlpha, Char.isUpper, Char.isLower, Char.isDigit, Bool.or_eq_true,
        Bool.and_eq_true, decide_eq_true_eq, ge_iff_le, UInt32.le_iff_toNat_le] at hc
      have hv : c.val.toNat = c.toNat := rfl
      rw [hv] at hc
      have hA : 'A'.val.toNat = 65 := rfl
      have ha : 'a'.val.toNat = 97 := rfl
      have h0 : '0'.val.toNat = 48 := rfl
      omega
    · omega
  · decide
  · decide
  · decide
  · decide

theorem not_isNameChar (hd : d.toNat < 45 ∨ d = '/' ∨ d = '=' ∨ d = '>' ∨ d = '<' ∨ d = ';') :
    isNameChar d = false := by
  rcases hd with hd | rfl | rfl | rfl | rfl | rfl
  · by_contra h
    have hge := isNameChar_ge (by simpa using h)
    omega
  · decide
  · decide
  · decide
  · decide
  · decide

theorem not_special_name (h : isNameChar c = true) : ¬ Special c := by
  have hge := isNameChar_ge h
  rintro (rfl | rfl | rfl | rfl | rfl | hc)
  · exact absurd h (by decide)
  · exact absurd h (by decide)
  · exact absurd h (by decide)
  · exact absurd h (by decide)
  · exact absurd h (by decide)
  · omega

theorem not_white_name (h : isNameChar c = true) : isWhiteSpace c = false := by
  have hge := isNameChar_ge h
  refine decide_eq_false ?_
  rintro (rfl | hc)
  · exact absurd h (by decide)
  · omega

/-- A name that is not taken for a lead mark. -/
def PrintableName (enc : Encoding) (name : List Char) : Prop := IsName name ∧ Unmarked enc name

instance : Decidable (PrintableName enc name) := inferInstanceAs (Decidable (IsName name ∧ Unmarked enc name))

theorem isName_cons (h : IsName name) : ∃ c l, name = c :: l ∧ isNameStart c = true ∧ isNameChar c = true := by
  cases name with
  | nil => exact absurd h.1 Bool.false_ne_true
  | cons c l => exact ⟨c, l, rfl, h.1, h.2 c List.mem_cons_self⟩

theorem unmarked_append (h : Unmarked enc l) (hd : d.toNat < 0x80) (r : List Char) : Unmarked enc (l ++ d :: r) := by
  match l, h with
  | [], _ =>
    rcases r with _ | ⟨a, _ | ⟨b, r⟩⟩
    · trivial
    · trivial
    · intro _
      simp only [isMark, decide_eq_false_iff_not]
      omega
  | [a], _ =>
    rcases r with _ | ⟨b, r⟩
    · trivial
    · intro _
      simp only [isMark, decide_eq_false_iff_not]
      omega
  | [a, b], _ =>
    intro _
    simp only [isMark, decide_eq_false_iff_not]
    omega
  | a :: b :: c :: l, h => exact h

/-- In front of a name nothing is skipped. -/
theorem skip_name (h : PrintableName enc name) (hd : d.toNat < 0x80) (r : List Char) :
    skipWhiteSpace enc (some (name ++ d :: r)) = some (name ++ d :: r) := by
  obtain ⟨c, l, rfl, -, hc⟩ := isName_cons h.1
  rw [skipWhiteSpace_some (by simp)]
  exact congrArg some (skip_stop (not_white_name hc) (unmarked_append h.2 hd r))

theorem readName_name (h : IsName name) (hd : isNameChar d = false) (r : List Char) :
    readName (some (name ++ d :: r)) = (name, some (d :: r)) := by
  have htake : (name ++ d :: r).takeWhile isNameChar = name := by
    rw [List.takeWhile_append_of_pos h.2, List.takeWhile_cons_of_neg (by simp [hd]), List.append_nil]
  have hdrop : (name ++ d :: r).dropWhile isNameChar = d :: r := by
    rw [List.dropWhile_append_of_pos h.2, List.dropWhile_cons_of_neg (by simp [hd])]
  obtain ⟨c, l, rfl, hc, -⟩ := isName_cons h
  exact (if_pos hc).trans (Prod.ext htake (congrArg some hdrop))

theorem encodeString_name (h : IsName name) : encodeString name = name := by
  have hplain : name.flatMap escape = name := by
    have hesc : ∀ c ∈ name, escape c = [c] := fun c hc => escape_plain (not_special_name (h.2 c hc))
    rw [List.flatMap_congr hesc, List.flatMap_singleton']
  rw [encodeString_eq, hplain]
  rintro ⟨a, b, hab⟩
  have hm : '&' ∈ name := by
    rw [← hab]
    exact List.mem_append_left _ (List.mem_append_right _ List.mem_cons_self)
  exact absurd (h.2 '&' hm) (by decide)

/-- The value comes back as it was. -/
def PrintableValue (enc : Encoding) (value : List Char) : Prop := Whole enc value ∧ Unreferring value

instance : Decidable (PrintableValue enc value) := inferInstanceAs (Decidable (Whole enc value ∧ Unreferring value))

def PrintableAttribute (enc : Encoding) (a : Attribute) : Prop := PrintableName enc a.1 ∧ PrintableValue enc a.2

instance {a : Attribute} : Decidable (PrintableAttribute enc a) :=
  inferInstanceAs (Decidable (PrintableName enc a.1 ∧ PrintableValue enc a.2))

theorem skip_low (hws : isWhiteSpace d = false) (hd : d.toNat < 0x80) (r : List Char) : skip enc (d :: r) = d :: r :=
  skip_stop hws (unmarked_append (l := []) trivial hd r)

/-- **An attribute** is read back. -/
theorem attributeParse_print {a : Attribute} (ha : PrintableAttribute enc a) (d : Char) (r : List Char)
    (error : Option Error) :
    attributeParse enc (some (printAttribute a ++ d :: r)) error = .ok (a, some (d :: r), error) := by
  obtain ⟨name, value⟩ := a
  obtain ⟨hname, hw, hu⟩ := ha
  have hquote : ∃ q, (q = '"' ∨ q = '\'') ∧
      printAttribute (name, value) ++ d :: r = name ++ '=' :: q :: (value.flatMap escape ++ q :: d :: r) := by
    unfold printAttribute
    rw [encodeString_name hname.1, encodeString_eq hu]
    split_ifs
    · exact ⟨'\'', .inr rfl, by simp⟩
    · exact ⟨'"', .inl rfl, by simp⟩
  obtain ⟨q, hq, hprint⟩ := hquote
  have hqw : isWhiteSpace q = false ∧ q.toNat < 0x80 := by
    rcases hq with rfl | rfl
    · decide
    · decide
  have hskip := skip_name (d := '=') hname (by decide) (q :: (value.flatMap escape ++ q :: d :: r))
  have hread := readName_name (d := '=') hname.1 (by decide) (q :: (value.flatMap escape ++ q :: d :: r))
  have heq : skipWhiteSpace enc (some ('=' :: q :: (value.flatMap escape ++ q :: d :: r))) =
      some ('=' :: q :: (value.flatMap escape ++ q :: d :: r)) := congrArg some (skip_low (by decide) (by decide) _)
  have hq' : skipWhiteSpace enc (some (q :: (value.flatMap escape ++ q :: d :: r))) =
      some (q :: (value.flatMap escape ++ q :: d :: r)) := congrArg some (skip_low hqw.1 hqw.2 _)
  have htext := readText_attribute (q := q) hw (.inr hq) d r
  obtain ⟨x, l, hx, -, -⟩ := isName_cons hname.1
  subst hx
  rw [hprint, attributeParse, hskip]
  simp only [List.cons_append] at hread ⊢
  rw [hread]
  simp only [heq, readAttributeValue, hq']
  rw [if_pos hq.symm, htext]
  rfl

/-- What the attributes of an element are followed by. -/
def EndsTag (enc : Encoding) (t : Tag) (l : List Char) : Prop :=
  ∀ n as error, readAttributes enc (n + 1) as (some l) error = .ok (as, t, error)

theorem endsTag_empty (r : List Char) : EndsTag enc (.closed (some r)) (' ' :: '/' :: '>' :: r) := by
  intro n as error
  have hs : skip enc (' ' :: '/' :: '>' :: r) = '/' :: '>' :: r :=
    (skip_white (by decide) _).trans (skip_low (by decide) (by decide) _)
  unfold readAttributes
  rw [hs]
  rfl

theorem endsTag_open (r : List Char) : EndsTag enc (.opened r) ('>' :: r) := by
  intro n as error
  have hs : skip enc ('>' :: r) = '>' :: r := skip_low (by decide) (by decide) r
  unfold readAttributes
  rw [hs]
  rfl

/-- Attributes with names that differ. -/
structure PrintableAttributes (enc : Encoding) (as : List Attribute) : Prop where
  printable : ∀ a ∈ as, PrintableAttribute enc a
  nodup : (as.map Prod.fst).Nodup

instance {as : List Attribute} : Decidable (PrintableAttributes enc as) :=
  decidable_of_iff ((∀ a ∈ as, PrintableAttribute enc a) ∧ (as.map Prod.fst).Nodup)
    ⟨fun h => ⟨h.1, h.2⟩, fun h => ⟨h.1, h.2⟩⟩

theorem attributesFrom_eq {as : List Attribute} (h : ∀ a ∈ as, IsName a.1) : attributesFrom as = as := by
  cases as with
  | nil => rfl
  | cons a as =>
    refine congrArg (a :: ·) (List.takeWhile_eq_self_iff.mpr fun b hb => decide_eq_true ?_)
    rintro rfl
    exact Bool.false_ne_true (h _ (List.mem_cons_of_mem a hb)).1

theorem skip_attribute {a : Attribute} (ha : PrintableAttribute enc a) (l : List Char) :
    ∃ c m, isNameChar c = true ∧ skip enc (' ' :: (printAttribute a ++ l)) = c :: m ∧
      printAttribute a ++ l = c :: m := by
  obtain ⟨c, k, hc, -, hname⟩ := isName_cons ha.1.1
  have hprint : ∃ m, printAttribute a ++ l = a.1 ++ '=' :: m := by
    unfold printAttribute
    rw [encodeString_name ha.1.1]
    split_ifs
    · exact ⟨_, by simp; rfl⟩
    · exact ⟨_, by simp; rfl⟩
  obtain ⟨m, hm⟩ := hprint
  have hs := skip_name ha.1 (d := '=') (by decide) m
  rw [hm, skip_white (by decide)]
  rw [skipWhiteSpace_some (by simp)] at hs
  rw [Option.some.inj hs, hc]
  exact ⟨c, k ++ '=' :: m, hname, rfl, rfl⟩

/-- **The attributes** are read back. -/
theorem readAttributes_print {t : Tag} (ht : EndsTag enc t (d :: r)) (error : Option Error) :
    ∀ (as acc : List Attribute) (n : ℕ),
    (∀ a ∈ as, PrintableAttribute enc a) → ((acc ++ as).map Prod.fst).Nodup → as.length < n →
    readAttributes enc n acc (some (as.flatMap (fun a => ' ' :: printAttribute a) ++ d :: r)) error =
      .ok (acc ++ as, t, error)
  | _, _, 0, _, _, hn => absurd hn (Nat.not_lt_zero _)
  | [], acc, n + 1, _, _, _ => by
    rw [List.append_nil]
    exact ht n acc error
  | a :: as, acc, n + 1, has, hnodup, hn => by
    have ha := has a List.mem_cons_self
    have hrest : ∃ d' r', as.flatMap (fun a => ' ' :: printAttribute a) ++ d :: r = d' :: r' := by
      cases as with
      | nil => exact ⟨d, r, rfl⟩
      | cons b as => exact ⟨_, _, rfl⟩
    have ih := readAttributes_print ht error as (acc ++ [a]) n (fun b hb => has b (List.mem_cons_of_mem a hb))
      (by rwa [List.append_assoc]) (Nat.lt_of_succ_lt_succ hn)
    obtain ⟨d', r', hrest⟩ := hrest
    rw [List.flatMap_cons, List.append_assoc, List.cons_append]
    rw [hrest] at ih ⊢
    have hparse := attributeParse_print ha d' r' error
    obtain ⟨c, l, hc, hs, hl⟩ := skip_attribute ha (d' :: r')
    have hfresh : acc.any (·.1 = a.1) = false := by
      rw [List.any_eq_false]
      intro b hb he
      rw [List.map_append, List.map_cons] at hnodup
      exact (List.nodup_append.mp hnodup).2.2 _ (List.mem_map_of_mem hb) _ List.mem_cons_self (of_decide_eq_true he)
    unfold readAttributes
    rw [hs]
    split
    · rename_i h
      cases h
    · rename_i h
      cases h
      exact absurd hc (by decide)
    · rename_i h
      cases h
      exact absurd hc (by decide)
    · rename_i h
      cases h
      exact absurd hc (by decide)
    · rename_i h
      cases h
      rw [← hl, hparse]
      change (if acc.any (·.1 = a.1) = true then _ else _) = _
      rw [if_neg (by rw [hfresh]; exact Bool.false_ne_true), ih, List.append_assoc]
      rfl

theorem length_le_flatMap (as : List Attribute) :
    as.length ≤ (as.flatMap fun a => ' ' :: printAttribute a).length := by
  induction as with
  | nil => exact le_rfl
  | cons a as ih =>
    rw [List.flatMap_cons, List.length_append, List.length_cons, List.length_cons]
    omega

/-- **The start of an element** is read back. -/
theorem readTag_pretty {t : Tag} {as : List Attribute} (hname : PrintableName enc name)
    (has : PrintableAttributes enc as) (ht : EndsTag enc t (d :: r)) (hd : d.toNat < 45 ∨ d = '>')
    (error : Option Error) :
    readTag enc (some ('<' :: name ++ printAttributes as ++ d :: r)) error = .ok (name, as, t, error) := by
  have hfrom := attributesFrom_eq fun a ha => (has.printable a ha).1.1
  have hnext : ∃ d' r', printAttributes as ++ d :: r = d' :: r' ∧ isNameChar d' = false ∧ d'.toNat < 0x80 := by
    unfold printAttributes
    rw [hfrom]
    cases as with
    | nil =>
      refine ⟨d, r, rfl, not_isNameChar ?_, ?_⟩
      · exact hd.imp_right fun h => .inr (.inr (.inl h))
      · rcases hd with hd | rfl
        · omega
        · decide
    | cons a as => exact ⟨' ', _, rfl, by decide, by decide⟩
  obtain ⟨d', r', hrest, hd', hlow⟩ := hnext
  have hlen : as.length < r'.length + 2 := by
    have hle : as.length ≤ (printAttributes as).length := by
      rw [printAttributes, hfrom]
      exact length_le_flatMap as
    have hsum := congrArg List.length hrest
    simp only [List.length_append, List.length_cons] at hsum
    omega
  have hread := readAttributes_print ht error as [] (r'.length + 2) has.printable has.nodup hlen
  have hb : skipWhiteSpace enc (some ('<' :: (name ++ d' :: r'))) = some ('<' :: (name ++ d' :: r')) :=
    congrArg some (skip_bracket enc _)
  rw [printAttributes, hfrom] at hrest
  rw [hrest] at hread
  rw [List.append_assoc, List.cons_append, printAttributes, hfrom, hrest, readTag, hb]
  simp only [skip_name hname hlow, readName_name hname.1 hd', hread]
  rfl

theorem readEndTag_pretty (name r : List Char) :
    readEndTag enc name (some (endTag name ++ r)) error = (some r, error) := by
  have hp : stringEqual false ("</".toList ++ name) (endTag name ++ r) = true := by
    refine List.isPrefixOf_iff_prefix.mpr ?_
    rw [endTag, List.append_assoc]
    exact List.prefix_append _ _
  have hdrop : (endTag name ++ r).drop (name.length + 2) = '>' :: r := by
    have hlen : name.length + 2 = ("</".toList ++ name).length := by
      rw [List.length_append, Nat.add_comm]
      rfl
    rw [endTag, List.append_assoc, hlen, List.drop_left]
    rfl
  have hs : skipWhiteSpace enc (some ('>' :: r)) = some ('>' :: r) :=
    congrArg some (skip_low (by decide) (by decide) r)
  obtain ⟨l, hl⟩ : ∃ l, endTag name ++ r = '<' :: l := ⟨_, rfl⟩
  rw [hl] at hp hdrop ⊢
  simp only [readEndTag, if_pos hp, hdrop, hs]

/-! ### Nodes without nodes in them -/

/-- What is printed as it is, and comes back as it was. -/
def Plain (enc : Encoding) (value : List Char) : Prop := Whole enc value ∧ ∀ c ∈ value, ¬ Special c

instance : Decidable (Plain enc value) := inferInstanceAs (Decidable (Whole enc value ∧ ∀ c ∈ value, ¬ Special c))

theorem Plain.flatMap (h : Plain enc value) : value.flatMap escape = value := by
  have hesc : ∀ c ∈ value, escape c = [c] := fun c hc => escape_plain (h.2 c hc)
  rw [List.flatMap_congr hesc, List.flatMap_singleton']

theorem Plain.printable (h : Plain enc value) : PrintableValue enc value := by
  refine ⟨h.1, ?_⟩
  rintro ⟨a, b, hab⟩
  have hm : '&' ∈ value := by
    rw [← hab]
    exact List.mem_append_left _ (List.mem_append_right _ List.mem_cons_self)
  exact h.2 '&' hm (.inl rfl)

/-- A part of a declaration is what an attribute would be. -/
theorem printPart_eq (hname : IsName name) (h : Plain enc value) (hne : value ≠ []) :
    printPart name value = printAttribute (name, value) ++ [' '] := by
  have hq : '"' ∉ value := fun hm => h.2 '"' hm (.inr (.inr (.inr (.inl rfl))))
  have hv : encodeString value = value := (encodeString_eq h.printable.2).trans h.flatMap
  unfold printPart printAttribute
  rw [if_neg hne, if_neg hq, hv, encodeString_name hname]
  simp

/-- A part that the loop of the declaration takes for what `f` makes of it. -/
def Takes (enc : Encoding) (name : List Char) (f : List Char → List Char × List Char × List Char) : Prop :=
  ∀ n l a p, attributeParse enc (some (name ++ '=' :: l)) none = .ok (a, p, none) →
    declarationLoop enc (n + 1) (f []).1 (f []).2.1 (f []).2.2 (some (' ' :: (name ++ '=' :: l))) =
      declarationLoop enc n (f a.2).1 (f a.2).2.1 (f a.2).2.2 p

theorem takes_version (enc : Encoding) (e s : List Char) : Takes enc "version".toList fun v => (v, e, s) := by
  intro n l a p h
  have hs : skip enc (' ' :: ("version".toList ++ '=' :: l)) = "version".toList ++ '=' :: l :=
    (skip_white (by decide) _).trans (skip_low (by decide) (by decide) _)
  rw [declarationLoop, if_neg (by decide), hs, if_pos (by simp [stringEqual, List.isPrefixOf]), h]
  rfl

theorem takes_encoding (enc : Encoding) (v s : List Char) : Takes enc "encoding".toList fun e => (v, e, s) := by
  intro n l a p h
  have hs : skip enc (' ' :: ("encoding".toList ++ '=' :: l)) = "encoding".toList ++ '=' :: l :=
    (skip_white (by decide) _).trans (skip_low (by decide) (by decide) _)
  rw [declarationLoop, if_neg (by decide), hs, if_neg (by simp [stringEqual, List.isPrefixOf]),
    if_pos (by simp [stringEqual, List.isPrefixOf]), h]
  rfl

theorem takes_standalone (enc : Encoding) (v e : List Char) : Takes enc "standalone".toList fun s => (v, e, s) := by
  intro n l a p h
  have hs : skip enc (' ' :: ("standalone".toList ++ '=' :: l)) = "standalone".toList ++ '=' :: l :=
    (skip_white (by decide) _).trans (skip_low (by decide) (by decide) _)
  rw [declarationLoop, if_neg (by decide), hs, if_neg (by simp [stringEqual, List.isPrefixOf]),
    if_neg (by simp [stringEqual, List.isPrefixOf]), if_pos (by simp [stringEqual, List.isPrefixOf]), h]
  rfl

/-- **A part** of a declaration is read back; an empty one is not printed. -/
theorem declarationLoop_part {f : List Char → List Char × List Char × List Char} {k : ℕ}
    {x : Except Stop (XmlNode × Ptr)} (hname : PrintableName enc name) (hf : Takes enc name f)
    (h : Plain enc value)
    (hrest : ∀ n, k ≤ n → declarationLoop enc n (f value).1 (f value).2.1 (f value).2.2 (some (' ' :: r)) = x)
    (hn : k + value.length ≤ n) :
    declarationLoop enc n (f []).1 (f []).2.1 (f []).2.2 (some (' ' :: (printPart name value ++ r))) = x := by
  by_cases hne : value = []
  · subst hne
    exact hrest n hn
  · have hpos := List.length_pos_of_ne_nil hne
    obtain ⟨n, rfl⟩ : ∃ m, n = m + 1 := ⟨n - 1, by omega⟩
    have hparse := attributeParse_print (a := (name, value)) ⟨hname, h.printable⟩ ' ' r none
    have hform : ∃ l, printAttribute (name, value) ++ ' ' :: r = name ++ '=' :: l := by
      unfold printAttribute
      rw [encodeString_name hname.1]
      split_ifs
      · exact ⟨_, by simp; rfl⟩
      · exact ⟨_, by simp; rfl⟩
    obtain ⟨l, hl⟩ := hform
    rw [hl] at hparse
    rw [printPart_eq hname.1 h hne, List.append_assoc, List.singleton_append, hl, hf n l _ _ hparse]
    exact hrest n (by omega)

theorem printDeclaration_eq (version encoding standalone r : List Char) :
    printDeclaration version encoding standalone ++ r = '<' :: '?' :: 'x' :: 'm' :: 'l' :: ' ' ::
      (printPart "version".toList version ++ (printPart "encoding".toList encoding ++
        (printPart "standalone".toList standalone ++ ("?>".toList ++ r)))) := by
  unfold printDeclaration
  simp

theorem length_printPart (name value : List Char) : value.length ≤ (printPart name value).length := by
  unfold printPart
  split_ifs with h
  · rw [h]
  · simp only [List.length_append]
    omega

/-- **A declaration** is read back. -/
theorem declarationParse_pretty {version encoding standalone : List Char} (hv : Plain enc version)
    (he : Plain enc encoding) (hs : Plain enc standalone) (r : List Char) :
    declarationParse enc (some (printDeclaration version encoding standalone ++ r)) error =
      .ok (.declaration version encoding standalone, some r, error) := by
  have hname : ∀ l : List Char, l ∈ ["version".toList, "encoding".toList, "standalone".toList] →
      PrintableName enc l := by
    intro l hl
    simp only [List.mem_cons, List.not_mem_nil, or_false] at hl
    rcases hl with rfl | rfl | rfl
    · exact ⟨⟨by decide, by decide⟩, fun _ => by decide⟩
    · exact ⟨⟨by decide, by decide⟩, fun _ => by decide⟩
    · exact ⟨⟨by decide, by decide⟩, fun _ => by decide⟩
  have hend : ∀ n, 2 ≤ n → declarationLoop enc n version encoding standalone (some (' ' :: ("?>".toList ++ r))) =
      .ok (.declaration version encoding standalone, some r) := by
    intro n hn
    obtain ⟨n, rfl⟩ : ∃ m, n = m + 2 := ⟨n - 2, by omega⟩
    have hskip : skip enc (' ' :: ("?>".toList ++ r)) = '?' :: '>' :: r :=
      (skip_white (by decide) _).trans (skip_low (by decide) (by decide) _)
    rw [declarationLoop, if_neg (by decide), hskip, if_neg (by simp [stringEqual, List.isPrefixOf]),
      if_neg (by simp [stringEqual, List.isPrefixOf]), if_neg (by simp [stringEqual, List.isPrefixOf])]
    have hcut : ('?' :: '>' :: r).dropWhile (fun c => decide (c ≠ '>' ∧ ¬ isWhiteSpace c = true)) = '>' :: r := by
      rw [List.dropWhile_cons_of_pos (by decide), List.dropWhile_cons_of_neg (by decide)]
    rw [hcut, declarationLoop, if_pos rfl]
  have hthree : ∀ n, 2 + standalone.length + encoding.length + version.length ≤ n →
      declarationLoop enc n [] [] [] (some (' ' :: (printPart "version".toList version ++
        (printPart "encoding".toList encoding ++ (printPart "standalone".toList standalone ++ ("?>".toList ++ r)))))) =
        .ok (.declaration version encoding standalone, some r) := by
    intro n hn
    refine declarationLoop_part (f := fun v => (v, [], [])) (hname _ (by simp)) (takes_version enc [] []) hv ?_ hn
    intro n hn
    refine declarationLoop_part (f := fun e => (version, e, [])) (hname _ (by simp)) (takes_encoding enc _ _) he ?_ hn
    intro n hn
    exact declarationLoop_part (f := fun s => (version, encoding, s)) (hname _ (by simp))
      (takes_standalone enc _ _) hs hend hn
  rw [printDeclaration_eq]
  generalize hk : (' ' :: (printPart "version".toList version ++ (printPart "encoding".toList encoding ++
    (printPart "standalone".toList standalone ++ ("?>".toList ++ r))))) = l at hthree
  have hlen : 2 + standalone.length + encoding.length + version.length ≤ l.length + 1 := by
    have h1 := length_printPart "version".toList version
    have h2 := length_printPart "encoding".toList encoding
    have h3 := length_printPart "standalone".toList standalone
    rw [← hk]
    simp only [List.length_cons, List.length_append, String.length_toList]
    omega
  have hskip : skipWhiteSpace enc (some ('<' :: '?' :: 'x' :: 'm' :: 'l' :: l)) =
      some ('<' :: '?' :: 'x' :: 'm' :: 'l' :: l) :=
    congrArg some (skip_bracket enc _)
  have hxml : stringEqual true "<?xml".toList ('<' :: '?' :: 'x' :: 'm' :: 'l' :: l) = true := by
    simp [stringEqual, List.isPrefixOf]
  simp only [declarationParse, hskip, if_pos hxml, List.drop_succ_cons, List.drop_zero, hthree _ hlen]
  rfl

/-! Comments and the like end at the first end tag. -/

/-- The tags are two of a character and one of another: nothing in front of them makes one earlier. -/
theorem upTo_tag {x y : Char} (hxy : x ≠ y) (r : List Char) : ∀ {value : List Char}, ¬ [x, x, y] <:+: value →
    upTo [x, x, y] (value ++ [x, x, y] ++ r) = (value, [x, x, y] ++ r)
  | [], _ => by
    have hp : stringEqual false [x, x, y] ([x, x, y] ++ r) = true :=
      List.isPrefixOf_iff_prefix.mpr (List.prefix_append _ r)
    exact if_pos hp
  | c :: value, h => by
    have hp : ¬ stringEqual false [x, x, y] (c :: value ++ [x, x, y] ++ r) = true := by
      intro hp
      have hp := List.isPrefixOf_iff_prefix.mp hp
      match value, h with
      | [], _ =>
        obtain ⟨t, ht⟩ := hp
        simp at ht
        exact hxy ht.2.1.symm
      | [a], _ =>
        obtain ⟨t, ht⟩ := hp
        simp at ht
        exact hxy ht.2.2.1.symm
      | a :: b :: value, h =>
        obtain ⟨t, ht⟩ := hp
        simp at ht
        refine h ⟨[], value, ?_⟩
        rw [← ht.1, ← ht.2.1, ← ht.2.2.1]
        rfl
    have ih : upTo [x, x, y] (value ++ [x, x, y] ++ r) = (value, [x, x, y] ++ r) :=
      upTo_tag hxy r fun hi => h (hi.trans (List.suffix_cons c value).isInfix)
    rw [List.cons_append, List.cons_append] at hp ⊢
    rw [upTo, if_neg hp, ih]

theorem commentParse_pretty (h : ¬ "-->".toList <:+: value) (r : List Char) :
    commentParse enc (some ("<!--".toList ++ value ++ "-->".toList ++ r)) error = (.comment value, some r, error) := by
  have hl : "<!--".toList ++ value ++ "-->".toList ++ r =
      '<' :: '!' :: '-' :: '-' :: (value ++ ['-', '-', '>'] ++ r) := by simp
  have hskip : skipWhiteSpace enc (some ('<' :: '!' :: '-' :: '-' :: (value ++ ['-', '-', '>'] ++ r))) =
      some ('<' :: '!' :: '-' :: '-' :: (value ++ ['-', '-', '>'] ++ r)) := congrArg some (skip_bracket enc _)
  have hp : stringEqual false "<!--".toList ('<' :: '!' :: '-' :: '-' :: (value ++ ['-', '-', '>'] ++ r)) = true := by
    simp [stringEqual, List.isPrefixOf]
  have hup : upTo "-->".toList (value ++ ['-', '-', '>'] ++ r) = (value, ['-', '-', '>'] ++ r) :=
    upTo_tag (x := '-') (y := '>') (by decide) r h
  rw [hl]
  simp only [commentParse, hskip, if_pos hp, List.drop_succ_cons, List.drop_zero, hup, List.cons_append,
    List.nil_append]

theorem cdataParse_pretty (h : ¬ "]]>".toList <:+: value) (d : Char) (r : List Char) :
    cdataParse enc ("<![CDATA[".toList ++ value ++ "]]>".toList ++ d :: r) error =
      .ok (.text true value, some (d :: r), error) := by
  have hp : stringEqual false "<![CDATA[".toList ("<![CDATA[".toList ++ value ++ "]]>".toList ++ d :: r) = true := by
    simp [stringEqual, List.isPrefixOf]
  have hdrop : ("<![CDATA[".toList ++ value ++ "]]>".toList ++ d :: r).drop 9 = value ++ [']', ']', '>'] ++ d :: r := by
    simp
  have hup : upTo "]]>".toList (value ++ [']', ']', '>'] ++ d :: r) = (value, [']', ']', '>'] ++ d :: r) :=
    upTo_tag (x := ']') (y := '>') (by decide) (d :: r) h
  have htext : readText enc false "]]>".toList (some ([']', ']', '>'] ++ d :: r)) = .ok ([], some (d :: r)) := by
    have hend : stringEqual false "]]>".toList (']' :: ']' :: '>' :: d :: r) = true := by
      simp [stringEqual, List.isPrefixOf]
    have hkept : ∀ n, readKept enc "]]>".toList (n + 1) (some (']' :: ']' :: '>' :: d :: r)) =
        .ok ([], some (']' :: ']' :: '>' :: d :: r)) := fun n => by rw [readKept, if_pos hend]
    unfold readText
    simp only [Bool.false_eq_true, if_false, List.cons_append, List.nil_append, hkept]
    rfl
  rw [cdataParse, if_pos hp]
  simp only [hdrop, hup, htext]
  rfl

/-- The value is not taken for something else. -/
structure PrintableUnknown (value : List Char) : Prop where
  closed : '>' ∉ value
  element : value.head?.any isNameStart = false
  endTag : value.head? ≠ some '/'
  declaration : ¬ "?xml".toList <+: value.map Char.toLower
  comment : ¬ "!--".toList <+: value
  cdata : ¬ "![CDATA[".toList <+: value

instance : Decidable (PrintableUnknown value) :=
  decidable_of_iff ('>' ∉ value ∧ value.head?.any isNameStart = false ∧ value.head? ≠ some '/' ∧
      ¬ "?xml".toList <+: value.map Char.toLower ∧ ¬ "!--".toList <+: value ∧ ¬ "![CDATA[".toList <+: value)
    ⟨fun h => ⟨h.1, h.2.1, h.2.2.1, h.2.2.2.1, h.2.2.2.2.1, h.2.2.2.2.2⟩,
      fun h => ⟨h.1, h.2, h.3, h.4, h.5, h.6⟩⟩

theorem unknownParse_pretty (h : '>' ∉ value) (r : List Char) :
    unknownParse enc (some ("<".toList ++ value ++ ">".toList ++ r)) error = (.unknown value, some r, error) := by
  have hl : "<".toList ++ value ++ ">".toList ++ r = '<' :: (value ++ '>' :: r) := by simp
  have hskip : skipWhiteSpace enc (some ('<' :: (value ++ '>' :: r))) = some ('<' :: (value ++ '>' :: r)) :=
    congrArg some (skip_bracket enc _)
  have hne : ∀ c ∈ value, decide (c ≠ '>') = true := fun c hc => decide_eq_true fun he => h (he ▸ hc)
  have htake : (value ++ '>' :: r).takeWhile (· ≠ '>') = value := by
    rw [List.takeWhile_append_of_pos hne, List.takeWhile_cons_of_neg (by decide), List.append_nil]
  have hdrop : (value ++ '>' :: r).dropWhile (· ≠ '>') = '>' :: r := by
    rw [List.dropWhile_append_of_pos hne, List.dropWhile_cons_of_neg (by decide)]
  rw [hl]
  simp only [unknownParse, hskip, htake, hdrop, List.drop_succ_cons, List.drop_zero]

/-! ### Nodes -/

mutual

/-- The node can be printed so that it is read back. -/
def Printable (enc : Encoding) : XmlNode → Prop
  | .element value as xs => PrintableName enc value ∧ PrintableAttributes enc as ∧ PrintableAll enc xs
  | .text false s => PrintableValue enc s ∧ Unmarked enc (s.dropWhile (· = ' '))
  | .text true s => ¬ "]]>".toList <:+: s
  | .declaration version encoding standalone => Plain enc version ∧ Plain enc encoding ∧ Plain enc standalone
  | .comment s => ¬ "-->".toList <:+: s
  | .unknown s => PrintableUnknown s

/-- No text is beside another one. -/
def PrintableAll (enc : Encoding) : List XmlNode → Prop
  | [] => True
  | x :: xs => Printable enc x ∧ (isText x = true → xs.head?.any isText = false) ∧ PrintableAll enc xs

end

mutual

def decPrintable (enc : Encoding) : ∀ x, Decidable (Printable enc x)
  | .element value as xs =>
    have := decPrintableAll enc xs
    inferInstanceAs (Decidable (PrintableName enc value ∧ PrintableAttributes enc as ∧ PrintableAll enc xs))
  | .text false s => inferInstanceAs (Decidable (PrintableValue enc s ∧ Unmarked enc (s.dropWhile (· = ' '))))
  | .text true s => inferInstanceAs (Decidable (¬ "]]>".toList <:+: s))
  | .declaration version encoding standalone =>
    inferInstanceAs (Decidable (Plain enc version ∧ Plain enc encoding ∧ Plain enc standalone))
  | .comment s => inferInstanceAs (Decidable (¬ "-->".toList <:+: s))
  | .unknown s => inferInstanceAs (Decidable (PrintableUnknown s))

def decPrintableAll (enc : Encoding) : ∀ xs, Decidable (PrintableAll enc xs)
  | [] => .isTrue trivial
  | x :: xs =>
    have := decPrintable enc x
    have := decPrintableAll enc xs
    inferInstanceAs (Decidable (Printable enc x ∧ (isText x = true → xs.head?.any isText = false) ∧
      PrintableAll enc xs))

end

instance {x : XmlNode} : Decidable (Printable enc x) := decPrintable enc x

/-- A text that is dropped. -/
def gone : XmlNode → Bool
  | .text false s => blank (readBack s)
  | _ => false

mutual

/-- What a node is after it was printed and parsed. -/
def settle : XmlNode → XmlNode
  | .element value as xs => .element value as (settleAll xs)
  | .text false s => .text false (readBack s)
  | .text true s => .text true s
  | .declaration version encoding standalone => .declaration version encoding standalone
  | .comment s => .comment s
  | .unknown s => .unknown s

def settleAll : List XmlNode → List XmlNode
  | [] => []
  | x :: xs => if gone x then settleAll xs else settle x :: settleAll xs

end

mutual

/-- How much fuel a node takes. -/
def size : XmlNode → ℕ
  | .element _ _ xs => sizeAll xs + 1
  | _ => 1

def sizeAll : List XmlNode → ℕ
  | [] => 1
  | x :: xs => size x + sizeAll xs + 1

end

/-- What `Identify` takes a node for that is no text. -/
def kindOf : XmlNode → Kind
  | .element _ _ _ => .element
  | .text _ _ => .cdata
  | .declaration _ _ _ => .declaration
  | .comment _ => .comment
  | .unknown _ => .unknown

theorem isPrefixOf_append {t : List Char} (ht : d ∉ t) (r : List Char) :
    t.isPrefixOf (l ++ d :: r) = t.isPrefixOf l := by
  rw [Bool.eq_iff_iff, List.isPrefixOf_iff_prefix, List.isPrefixOf_iff_prefix]
  constructor
  · intro h
    have hd : l ++ [d] <+: l ++ d :: r := ⟨r, by simp⟩
    have hmem : ∀ k, l ++ [d] ++ k ≠ t := by
      rintro k rfl
      exact ht (by simp)
    rcases List.prefix_or_prefix_of_prefix h hd with h' | ⟨k, hk⟩
    · rcases List.prefix_concat_iff.mp h' with h' | h'
      · exact absurd (by rw [h', List.append_nil]) (hmem [])
      · exact h'
    · exact absurd hk (hmem k)
  · exact fun h => h.trans (List.prefix_append l _)

theorem toLower_eq_mark (h : c.toLower = '?') : c = '?' := by
  unfold Char.toLower at h
  split_ifs at h with hc
  · have hv : c.val.toNat + 32 = 63 := by
      have hv := congrArg (fun c => c.val.toNat) h
      have hlt : c.val.toNat + 32 < 2 ^ 32 := by
        have hle : c.val.toNat ≤ 90 := hc.2
        omega
      rw [← Nat.mod_eq_of_lt hlt]
      exact hv
    have hge : 65 ≤ c.val.toNat := hc.1
    omega
  · exact h

/-- The order in which `Identify` asks. -/
theorem identify_cons (enc : Encoding) (l : List Char) : identify enc (some ('<' :: l)) = some
    (if ['?', 'x', 'm', 'l'].isPrefixOf (l.map Char.toLower) then .declaration
    else if ['!', '-', '-'].isPrefixOf l then .comment
    else if ['!', '[', 'C', 'D', 'A', 'T', 'A', '['].isPrefixOf l then .cdata
    else if ['!'].isPrefixOf l then .unknown
    else if l.head?.any isNameStart then .element else .unknown) := by
  have hs : skipWhiteSpace enc (some ('<' :: l)) = some ('<' :: l) := congrArg some (skip_bracket enc _)
  have h1 : stringEqual true "<?xml".toList ('<' :: l) = ['?', 'x', 'm', 'l'].isPrefixOf (l.map Char.toLower) := rfl
  have h2 : stringEqual false "<!--".toList ('<' :: l) = ['!', '-', '-'].isPrefixOf l := rfl
  have h3 : stringEqual false "<![CDATA[".toList ('<' :: l) =
      ['!', '[', 'C', 'D', 'A', 'T', 'A', '['].isPrefixOf l := rfl
  have h4 : stringEqual false "<!".toList ('<' :: l) = ['!'].isPrefixOf l := rfl
  unfold identify
  rw [hs]
  simp only [h1, h2, h3, h4]
  split_ifs <;> rfl

theorem identify_element (hc : isNameStart c = true) (l : List Char) :
    identify enc (some ('<' :: c :: l)) = some .element := by
  have hmark : ('?' == c.toLower) = false := by
    rw [beq_eq_false_iff_ne]
    intro h
    rw [toLower_eq_mark h.symm] at hc
    exact absurd hc (by decide)
  have hbang : ('!' == c) = false := by
    rw [beq_eq_false_iff_ne]
    rintro rfl
    exact absurd hc (by decide)
  rw [identify_cons]
  simp only [List.map_cons, List.isPrefixOf_cons_cons, hmark, hbang, Bool.false_and, Bool.false_eq_true, if_false,
    List.head?_cons, Option.any_some, hc, if_true]

theorem identify_unknown (h : PrintableUnknown value) (r : List Char) :
    identify enc (some ('<' :: (value ++ '>' :: r))) = some .unknown := by
  have hmap : (value ++ '>' :: r).map Char.toLower = value.map Char.toLower ++ '>' :: r.map Char.toLower := by
    rw [List.map_append, List.map_cons]
    rfl
  have h1 : ['?', 'x', 'm', 'l'].isPrefixOf (value.map Char.toLower) = false := by
    rw [Bool.eq_false_iff, ne_eq, List.isPrefixOf_iff_prefix]
    exact h.declaration
  have h2 : ['!', '-', '-'].isPrefixOf value = false := by
    rw [Bool.eq_false_iff, ne_eq, List.isPrefixOf_iff_prefix]
    exact h.comment
  have h3 : ['!', '[', 'C', 'D', 'A', 'T', 'A', '['].isPrefixOf value = false := by
    rw [Bool.eq_false_iff, ne_eq, List.isPrefixOf_iff_prefix]
    exact h.cdata
  have h4 : (value ++ '>' :: r).head?.any isNameStart = false := by
    cases value with
    | nil => exact (by decide : isNameStart '>' = false)
    | cons c l => exact h.element
  rw [identify_cons, hmap, isPrefixOf_append (by decide), isPrefixOf_append (by decide), isPrefixOf_append (by decide),
    h1, h2, h3, h4]
  simp only [Bool.false_eq_true, if_false, ite_self]

/-- What a node that is no text begins with. -/
theorem pretty_bracket {x : XmlNode} (hp : Printable enc x) (hx : isText x = false) (d : ℕ) (r : List Char) :
    ∃ c l, pretty d x ++ '\n' :: r = '<' :: c :: l ∧ c ≠ '/' ∧
      identify enc (some ('<' :: c :: l)) = some (kindOf x) := by
  cases x with
  | element value as xs =>
    obtain ⟨c, k, rfl, hc, -⟩ := isName_cons hp.1.1
    refine ⟨c, _, by simp [pretty]; rfl, ?_, identify_element hc _⟩
    rintro rfl
    exact absurd hc (by decide)
  | text cdata s =>
    cases cdata with
    | true =>
      refine ⟨'!', _, by simp [pretty]; rfl, by decide, ?_⟩
      rw [identify_cons]
      simp [List.isPrefixOf, kindOf]
    | false => cases hx
  | declaration v e s =>
    refine ⟨'?', _, printDeclaration_eq v e s ('\n' :: r), by decide, ?_⟩
    rw [identify_cons]
    simp [List.isPrefixOf, kindOf]
  | comment s =>
    refine ⟨'!', _, by simp [pretty]; rfl, by decide, ?_⟩
    rw [identify_cons]
    simp [List.isPrefixOf, kindOf]
  | unknown s =>
    have hid : identify enc (some ('<' :: (s ++ '>' :: '\n' :: r))) = some .unknown := identify_unknown hp _
    cases s with
    | nil => exact ⟨'>', '\n' :: r, by simp [pretty], by decide, hid⟩
    | cons c l => exact ⟨c, l ++ '>' :: '\n' :: r, by simp [pretty], fun h => hp.endTag (congrArg some h), hid⟩

/-- **A text** in an element is read back, or dropped, and what is behind it is read. -/
theorem readValue_text {xs : List XmlNode} {p : Ptr} {error' : Option Error} (hp : Printable enc (.text false s))
    (hws : ∀ c ∈ ws, isWhiteSpace c = true)
    (hrest : ∀ k, n ≤ k → readValue enc k (some ('<' :: d :: r)) error = .ok (xs, p, error')) :
    readValue enc (n + 1) (some (skip enc (encodeString s ++ (ws ++ '<' :: d :: r)))) error =
      .ok (if gone (.text false s) then xs else .text false (readBack s) :: xs, p, error') := by
  obtain ⟨⟨hw, hu⟩, hm⟩ := hp
  rw [encodeString_eq hu]
  by_cases hs : s.dropWhile (· = ' ') = []
  · -- nothing but blanks, which are skipped
    have hblank : ∀ c ∈ s, c = ' ' := fun c hc => of_decide_eq_true (List.dropWhile_eq_nil_iff.mp hs c hc)
    have hesc : s.flatMap escape = s := by
      have hone : ∀ c ∈ s, escape c = [c] := fun c hc => hblank c hc ▸ rfl
      rw [List.flatMap_congr hone, List.flatMap_singleton']
    have hwhite : ∀ c ∈ s, isWhiteSpace c = true := fun c hc => hblank c hc ▸ rfl
    have hgone : gone (.text false s) = true := by
      rw [gone, readBack, hs]
      rfl
    rw [hesc, skip_append hwhite, skip_append hws, skip_bracket, if_pos hgone]
    exact hrest (n + 1) (Nat.le_succ n)
  · have htext := readText_text hw hm hws hs d r
    have hfirst : ∃ x k, (s.dropWhile (· = ' ')).flatMap escape ++ (ws ++ '<' :: d :: r) = x :: k ∧ x ≠ '<' := by
      obtain ⟨c, t, hc⟩ := List.exists_cons_of_ne_nil hs
      obtain ⟨x, k, hk, hx⟩ := head_escape c
      rw [hc, List.flatMap_cons, hk]
      refine ⟨x, _, rfl, ?_⟩
      rintro rfl
      rcases hx with hx | ⟨rfl, hx⟩
      · exact absurd hx (by decide)
      · exact hx (.inr (.inl rfl))
    obtain ⟨x, k, hk, hx⟩ := hfirst
    have hbr : skipWhiteSpace enc (some ('<' :: d :: r)) = some ('<' :: d :: r) :=
      congrArg some (skip_bracket enc _)
    have hparse : textParse enc (x :: k) = .ok (readBack s, some ('<' :: d :: r)) := by
      rw [hk] at htext
      have hlt : "<".toList = ['<'] := rfl
      rw [textParse, hlt, htext]
      rfl
    rw [skip_escape hw hm _ hs, hk, readValue, if_pos hx, hparse]
    change (readValue enc n (skipWhiteSpace enc (some ('<' :: d :: r))) error >>= _) = _
    rw [hbr, hrest n le_rfl]
    rfl

theorem indent_white (d : ℕ) : ∀ c ∈ indent d, isWhiteSpace c = true := by
  intro c hc
  obtain ⟨l, hl, hc⟩ := List.mem_flatten.mp hc
  rw [List.eq_of_mem_replicate hl] at hc
  exact (by decide : ∀ c ∈ "    ".toList, isWhiteSpace c = true) c hc

/-- What stands in front of a node that is no text. -/
theorem prettyAll_front {xs : List XmlNode} (hp : PrintableAll enc xs) (hx : xs.head?.any isText = false) (d : ℕ)
    (hws : ∀ c ∈ ws, isWhiteSpace c = true) (c : Char) (r : List Char) :
    ∃ ws' d' r', prettyAll d xs ++ (ws ++ '<' :: c :: r) = ws' ++ '<' :: d' :: r' ∧
      ∀ c ∈ ws', isWhiteSpace c = true := by
  cases xs with
  | nil => exact ⟨ws, c, r, rfl, hws⟩
  | cons x xs =>
    obtain ⟨c', l, hl, -, -⟩ := pretty_bracket hp.1 hx d (prettyAll d xs ++ (ws ++ '<' :: c :: r))
    refine ⟨indent d, c', l, ?_, indent_white d⟩
    rw [prettyAll, ← hl]
    simp

theorem skipWhiteSpace_break (enc : Encoding) (c : Char) (l : List Char) :
    skipWhiteSpace enc (some ('\n' :: c :: l)) = some (skip enc (c :: l)) := by
  rw [skipWhiteSpace_some (List.cons_ne_nil _ _), skip_white (by decide)]

/-- An element with something between its tags. -/
theorem parseNode_opened {as : List Attribute} {xs : List XmlNode}
    (htag : readTag enc (some l) error = .ok (name, as, .opened m, error))
    (hvalue : readValue enc n (skipWhiteSpace enc (some m)) error = .ok (xs, some (endTag name ++ r), error)) :
    parseNode enc (n + 1) .element l error = .ok (.element name as xs, some r, error) := by
  rw [parseNode, htag]
  change (readValue enc n (skipWhiteSpace enc (some m)) error >>= _) = _
  rw [hvalue]
  change Except.ok (_, (readEndTag enc name (some (endTag name ++ r)) error).1,
    (readEndTag enc name (some (endTag name ++ r)) error).2) = _
  rw [readEndTag_pretty]

/-- At the end tag. -/
theorem readValue_end (enc : Encoding) (hn : 0 < n) (r : List Char) (error : Option Error) :
    readValue enc n (some ('<' :: '/' :: r)) error = .ok ([], some ('<' :: '/' :: r), error) := by
  obtain ⟨n, rfl⟩ : ∃ m, n = m + 1 := ⟨n - 1, by omega⟩
  rw [readValue, if_neg (by decide), if_pos (by rfl)]

theorem gone_of_not_text {x : XmlNode} (h : isText x = false) : gone x = false := by
  cases x with
  | text cdata s =>
    cases cdata with
    | true => rfl
    | false => cases h
  | _ => rfl

theorem size_pos (x : XmlNode) : 0 < size x := by
  cases x <;> exact Nat.succ_pos _

mutual

/-- **A node** is read back. -/
theorem parseNode_pretty (enc : Encoding) : ∀ (x : XmlNode) (n d : ℕ) (r : List Char) (error : Option Error),
    Printable enc x → isText x = false → size x ≤ n →
    parseNode enc n (kindOf x) (pretty d x ++ '\n' :: r) error = .ok (settle x, some ('\n' :: r), error)
  | _, 0, _, _, _, _, _, hn => absurd hn (size_pos _).not_ge
  | .declaration v e s, n + 1, d, r, error, hp, _, _ => by
    rw [kindOf, pretty, settle, parseNode]
    exact declarationParse_pretty hp.1 hp.2.1 hp.2.2 _
  | .comment s, n + 1, d, r, error, hp, _, _ => by
    rw [kindOf, pretty, settle, parseNode]
    exact congrArg Except.ok (commentParse_pretty hp _)
  | .unknown s, n + 1, d, r, error, hp, _, _ => by
    rw [kindOf, pretty, settle, parseNode]
    exact congrArg Except.ok (unknownParse_pretty hp.closed _)
  | .text true s, n + 1, d, r, error, hp, _, _ => by
    rw [kindOf, pretty, if_pos rfl, settle, parseNode]
    exact cdataParse_pretty hp _ r
  | .text false s, n + 1, d, r, error, _, hx, _ => by cases hx
  | .element value as xs, n + 1, d, r, error, hp, _, hn => by
    obtain ⟨hname, has, hxs⟩ := hp
    have hsize : sizeAll xs ≤ n := Nat.le_of_succ_le_succ hn
    rw [kindOf, pretty, settle]
    rcases children_cases xs with rfl | ⟨s, rfl⟩ | ⟨-, -, hcontent⟩
    · have htag := readTag_pretty hname has (endsTag_empty ('\n' :: r)) (.inl (by decide)) error
      have hl : '<' :: value ++ printAttributes as ++ content d value (prettyAll (d + 1) []) [] ++ '\n' :: r =
          '<' :: value ++ printAttributes as ++ ' ' :: '/' :: '>' :: '\n' :: r := by
        rw [content]
        simp
      rw [hl, parseNode, htag]
      rfl
    · have htag := readTag_pretty hname has
        (endsTag_open (encodeString s ++ (endTag value ++ '\n' :: r))) (.inr rfl) error
      have hl : '<' :: value ++ printAttributes as ++ content d value (prettyAll (d + 1) [.text false s])
          [.text false s] ++ '\n' :: r =
          '<' :: value ++ printAttributes as ++ '>' :: (encodeString s ++ (endTag value ++ '\n' :: r)) := by
        rw [content]
        simp
      have hthree : 3 ≤ n := hsize
      obtain ⟨n, rfl⟩ : ∃ m, n = m + 1 := ⟨n - 1, by omega⟩
      have hnone : ∀ c ∈ ([] : List Char), isWhiteSpace c = true := fun _ hc => absurd hc List.not_mem_nil
      have hvalue := readValue_text (n := n) (d := '/') (r := value ++ '>' :: '\n' :: r) hxs.1 hnone
        fun k hk => readValue_end enc (by omega) _ error
      have hend : endTag value ++ '\n' :: r = '<' :: '/' :: (value ++ '>' :: '\n' :: r) := by simp [endTag]
      rw [hl]
      refine parseNode_opened htag ?_
      rw [skipWhiteSpace_some (by simp [endTag]), hend]
      exact hvalue
    · have htag := readTag_pretty hname has
        (endsTag_open ('\n' :: (prettyAll (d + 1) xs ++ (indent d ++ (endTag value ++ '\n' :: r))))) (.inr rfl) error
      have hl : '<' :: value ++ printAttributes as ++ content d value (prettyAll (d + 1) xs) xs ++ '\n' :: r =
          '<' :: value ++ printAttributes as ++
            '>' :: ('\n' :: (prettyAll (d + 1) xs ++ (indent d ++ (endTag value ++ '\n' :: r)))) := by
        rw [hcontent]
        simp
      have hvalue := readValue_pretty enc xs n (d + 1) (indent d) (value ++ '>' :: '\n' :: r) error hxs
        (indent_white d) hsize
      have hend : endTag value ++ '\n' :: r = '<' :: '/' :: (value ++ '>' :: '\n' :: r) := by simp [endTag]
      obtain ⟨c, l, hc⟩ : ∃ c l, prettyAll (d + 1) xs ++ (indent d ++ '<' :: '/' :: (value ++ '>' :: '\n' :: r)) =
          c :: l := List.exists_cons_of_ne_nil (by simp)
      rw [hl]
      refine parseNode_opened htag ?_
      rw [hend, hc, skipWhiteSpace_break, ← hc]
      exact hvalue

/-- **What an element holds** is read back, up to its end tag. -/
theorem readValue_pretty (enc : Encoding) : ∀ (xs : List XmlNode) (n d : ℕ) (ws r : List Char)
    (error : Option Error), PrintableAll enc xs → (∀ c ∈ ws, isWhiteSpace c = true) → sizeAll xs ≤ n →
    readValue enc n (some (skip enc (prettyAll d xs ++ (ws ++ '<' :: '/' :: r)))) error =
      .ok (settleAll xs, some ('<' :: '/' :: r), error)
  | [], n, d, ws, r, error, _, hws, hn => by
    rw [prettyAll, List.nil_append, skip_append hws, skip_bracket, readValue_end enc hn]
    rfl
  | x :: xs, n, d, ws, r, error, hp, hws, hn => by
    have hsize : size x + sizeAll xs + 1 ≤ n := hn
    obtain ⟨n, rfl⟩ : ∃ m, n = m + 1 := ⟨n - 1, by omega⟩
    cases hx : isText x with
    | true =>
      obtain ⟨s, rfl⟩ : ∃ s, x = .text false s := by
        cases x with
        | text cdata s =>
          cases cdata with
          | true => cases hx
          | false => exact ⟨s, rfl⟩
        | _ => cases hx
      obtain ⟨ws', d', r', hfront, hws'⟩ := prettyAll_front hp.2.2 (hp.2.1 hx) d hws '/' r
      have hform : prettyAll d (.text false s :: xs) ++ (ws ++ '<' :: '/' :: r) =
          indent d ++ (encodeString s ++ ('\n' :: ws' ++ '<' :: d' :: r')) := by
        rw [prettyAll, pretty, if_neg Bool.false_ne_true, List.cons_append, ← hfront]
        simp
      have hwhite : ∀ c ∈ '\n' :: ws', isWhiteSpace c = true := by
        intro c hc
        rcases List.mem_cons.mp hc with rfl | hc
        · decide
        · exact hws' c hc
      have hrest : ∀ k, n ≤ k → readValue enc k (some ('<' :: d' :: r')) error =
          .ok (settleAll xs, some ('<' :: '/' :: r), error) := by
        intro k hk
        have ih := readValue_pretty enc xs k d ws r error hp.2.2 hws (by omega)
        rwa [hfront, skip_append hws', skip_bracket] at ih
      rw [hform, skip_append (indent_white d), readValue_text hp.1 hwhite hrest, settleAll, settle]
    | false =>
      have hnode := parseNode_pretty enc x n d (prettyAll d xs ++ (ws ++ '<' :: '/' :: r)) error hp.1 hx (by omega)
      have ih := readValue_pretty enc xs n d ws r error hp.2.2 hws (by omega)
      obtain ⟨c, l, hl, hc, hkind⟩ := pretty_bracket hp.1 hx d (prettyAll d xs ++ (ws ++ '<' :: '/' :: r))
      have hform : prettyAll d (x :: xs) ++ (ws ++ '<' :: '/' :: r) = indent d ++ '<' :: c :: l := by
        rw [prettyAll, ← hl]
        simp
      have hend : stringEqual false "</".toList ('<' :: c :: l) = false := by
        change (('<' == '<') && (('/' == c) && true)) = false
        rw [beq_eq_false_iff_ne.mpr hc.symm]
        rfl
      have hnext : ∃ c' l', prettyAll d xs ++ (ws ++ '<' :: '/' :: r) = c' :: l' :=
        List.exists_cons_of_ne_nil (by simp)
      obtain ⟨c', l', hnext⟩ := hnext
      rw [hl, hnext] at hnode
      rw [hnext] at ih
      rw [hform, skip_append (indent_white d), skip_bracket, readValue, if_neg (by decide),
        if_neg (by rw [hend]; exact Bool.false_ne_true)]
      simp only [hkind, hnode]
      change (readValue enc n (skipWhiteSpace enc (some ('\n' :: c' :: l'))) error >>= _) = _
      rw [skipWhiteSpace_break, ih, settleAll, gone_of_not_text hx]
      rfl

end

/-! ### Documents -/

mutual

/-- There is fuel enough for a node in what is printed for it. -/
theorem size_le (d : ℕ) : ∀ x : XmlNode, size x ≤ 2 * (pretty d x).length + 1
  | .element value as xs => by
    have hxs := sizeAll_le (d + 1) xs
    rw [size, pretty]
    rcases children_cases xs with rfl | ⟨s, rfl⟩ | ⟨-, -, hcontent⟩
    · simp only [sizeAll, List.length_append, List.length_cons]
      omega
    · have hthree : sizeAll [.text false s] = 3 := rfl
      simp only [hthree, content, endTag, List.length_append, List.length_cons, String.length_toList]
      omega
    · simp only [hcontent, List.length_append, List.length_cons]
      omega
  | .text _ _ => Nat.le_add_left 1 _
  | .declaration _ _ _ => Nat.le_add_left 1 _
  | .comment _ => Nat.le_add_left 1 _
  | .unknown _ => Nat.le_add_left 1 _

theorem sizeAll_le (d : ℕ) : ∀ xs : List XmlNode, sizeAll xs ≤ 2 * (prettyAll d xs).length + 1
  | [] => le_rfl
  | x :: xs => by
    have hx := size_le d x
    have hxs := sizeAll_le d xs
    have hbreak : "\n".toList.length = 1 := rfl
    simp only [sizeAll, prettyAll, List.length_append, hbreak]
    omega

end

theorem length_le_prettyAll (d : ℕ) (xs : List XmlNode) : xs.length ≤ (prettyAll d xs).length := by
  induction xs with
  | nil => exact le_rfl
  | cons x xs ih =>
    have hbreak : "\n".toList.length = 1 := rfl
    simp only [prettyAll, List.length_append, List.length_cons, hbreak]
    omega

/-- Each node is printable in the encoding that the declarations in front of it have set. -/
def PrintableDocument : Encoding → List XmlNode → Prop
  | _, [] => True
  | enc, x :: xs => Printable enc x ∧ isText x = false ∧ PrintableDocument (nextEncoding enc x) xs

def decPrintableDocument : ∀ (enc : Encoding) (xs : List XmlNode), Decidable (PrintableDocument enc xs)
  | _, [] => .isTrue trivial
  | enc, x :: xs =>
    have := decPrintableDocument (nextEncoding enc x) xs
    inferInstanceAs (Decidable (Printable enc x ∧ isText x = false ∧ PrintableDocument (nextEncoding enc x) xs))

instance {xs : List XmlNode} : Decidable (PrintableDocument enc xs) := decPrintableDocument enc xs

theorem nextEncoding_settle (enc : Encoding) (x : XmlNode) : nextEncoding enc (settle x) = nextEncoding enc x := by
  cases x with
  | text cdata s => cases cdata <;> rfl
  | _ => rfl

theorem documentLoop_pretty : ∀ (xs : List XmlNode) (n : ℕ) (enc : Encoding) (error : Option Error),
    PrintableDocument enc xs → xs.length < n →
    documentLoop n enc (some (skip enc (prettyAll 0 xs))) error = .ok (settleAll xs, some [], error)
  | _, 0, _, _, _, hn => absurd hn (Nat.not_lt_zero _)
  | [], n + 1, enc, error, _, _ => rfl
  | x :: xs, n + 1, enc, error, hp, hn => by
    obtain ⟨hx, htext, hxs⟩ := hp
    obtain ⟨c, l, hl, -, hkind⟩ := pretty_bracket hx htext 0 (prettyAll 0 xs)
    have hform : prettyAll 0 (x :: xs) = '<' :: c :: l := by
      rw [prettyAll, ← hl]
      simp [indent]
    have hfuel : size x ≤ 2 * (c :: l).length + 2 := by
      have hle := size_le 0 x
      have hlen := congrArg List.length hl
      simp only [List.length_append, List.length_cons] at hlen ⊢
      omega
    have hnode := parseNode_pretty enc x _ 0 (prettyAll 0 xs) error hx htext hfuel
    rw [hl] at hnode
    have ih := documentLoop_pretty xs n (nextEncoding enc x) error hxs (Nat.lt_of_succ_lt_succ hn)
    have hgo : skipWhiteSpace (nextEncoding enc x) (some ('\n' :: prettyAll 0 xs)) =
        some (skip (nextEncoding enc x) (prettyAll 0 xs)) := by
      rw [skipWhiteSpace_some (List.cons_ne_nil _ _), skip_white (by decide)]
    rw [hform, skip_bracket, documentLoop]
    simp only [hkind, hnode]
    change (documentLoop n (nextEncoding enc (settle x))
      (skipWhiteSpace (nextEncoding enc (settle x)) (some ('\n' :: prettyAll 0 xs))) error >>= _) = _
    rw [nextEncoding_settle, hgo, ih, settleAll, gone_of_not_text htext]
    rfl

/-- What the nodes of a document look like is read back. -/
theorem parse_pretty {document : List XmlNode} (hne : document ≠ []) (hp : PrintableDocument .unknown document) :
    parse (prettyAll 0 document) = .ok (settleAll document, some [], none) := by
  obtain ⟨x, xs, rfl⟩ := List.exists_cons_of_ne_nil hne
  obtain ⟨c, l, hl, -, -⟩ := pretty_bracket hp.1 hp.2.1 0 (prettyAll 0 xs)
  have hform : prettyAll 0 (x :: xs) = '<' :: c :: l := by
    rw [prettyAll, ← hl]
    simp [indent]
  have henc : firstEncoding ('<' :: c :: l) = .unknown := by
    cases l with
    | nil => rfl
    | cons a l =>
      have hlead : ¬ ('<'.toNat = 0xef ∧ c.toNat = 0xbb ∧ a.toNat = 0xbf) := by
        rintro ⟨h, -⟩
        exact absurd h (by decide)
      rw [firstEncoding, if_neg hlead]
  have hlen : (x :: xs).length < (prettyAll 0 (x :: xs)).length + 1 :=
    Nat.lt_succ_of_le (length_le_prettyAll 0 _)
  have hloop := documentLoop_pretty (x :: xs) _ .unknown none hp hlen
  rw [hform] at hloop ⊢
  have hsettle : settleAll (x :: xs) = settle x :: settleAll xs := by
    rw [settleAll, gone_of_not_text hp.2.1]
    rfl
  rw [hsettle] at hloop ⊢
  rw [parse, if_neg (List.cons_ne_nil _ _), henc]
  change (documentLoop _ .unknown (some (skip .unknown ('<' :: c :: l))) none >>= _) = _
  rw [hloop]
  rfl

/-- **The round trip**: what is printed for a document is parsed, without an error and to the end, to the
document without its spare blanks. -/
theorem parse_print {document : List XmlNode} (hne : document ≠ []) (hp : PrintableDocument .unknown document) :
    parse (print document) = .ok (settleAll document, some [], none) := by
  rw [print_eq]
  exact parse_pretty hne hp

/-- A device with an attribute and a name. -/
theorem parse_print_device :
    parse (print [.declaration "1.0".toList "utf-8".toList "no".toList, .element "Device".toList
      [("id".toList, "<\"7\">".toList)] [.element "Name".toList [] [.text false " a  b ".toList]]]) =
    .ok ([.declaration "1.0".toList "utf-8".toList "no".toList, .element "Device".toList
      [("id".toList, "<\"7\">".toList)] [.element "Name".toList [] [.text false "a b".toList]]], some [], none) :=
  parse_print (List.cons_ne_nil _ _) (by decide +kernel)

end StNvs.Xml.RoundTrip
