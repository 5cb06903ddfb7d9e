import StNvs.Lib.Outcomes
import StNvs.Xml.Location
import StNvs.Xml.Nodes
import StNvs.Xml.Texts

/-! # The parser stays in the text, and ends

A text ends with a terminator that each loop looks for. `Follows p q`: from `p` the parser has come to `q`,
further on in the same text or `NULL`. One lemma for each parser says where it stops, and that it fails
only by leaving the text (`Fails`), which takes a lead byte that the end of the text cuts off; the fuel is
never used up, since each loop goes on by a character or more.

The same lemmas say what has been read where there was no error (`WellFormed`): names are names, the names
of an element's attributes differ, no text is blank or beside another one, and what a comment or a `CDATA`
holds does not end it.

* `parse_ends`: a steady text is parsed, or has a lead byte that is cut off.
* `parse_wellFormed`: what is accepted is well formed. -/

namespace StNvs.Xml.Bounds

open StNvs.Lib.Outcomes StNvs.Xml.Chars StNvs.Xml.Location StNvs.Xml.Texts StNvs.Xml.Nodes

variable {enc : Encoding} {c d : Char} {l m r text tag cs : List Char} {p q p' : Ptr} {e : Stop} {n : ℕ}
  {error : Option Error}

/-! ### Where a pointer can go -/

/-- From `p` the parser has come to `q`. -/
def Follows : Ptr → Ptr → Prop
  | _, none => True
  | none, some _ => False
  | some l, some m => m <:+ l

theorem follows_none : Follows p none := by cases p <;> trivial

theorem follows_some (h : m <:+ l) : Follows (some l) (some m) := h

theorem follows_refl : Follows p p := by
  cases p with
  | none => trivial
  | some l => exact List.suffix_refl l

theorem Follows.trans (h : Follows p q) (h' : Follows q p') : Follows p p' := by
  cases p' with
  | none => exact follows_none
  | some k =>
    cases q with
    | none => exact absurd h' id
    | some m =>
      cases p with
      | none => exact absurd h id
      | some l => exact List.IsSuffix.trans h' h

theorem Follows.left_le (h : Follows p q) : left q ≤ left p := by
  cases q with
  | none => exact Nat.zero_le _
  | some m =>
    cases p with
    | none => exact absurd h id
    | some l => exact List.IsSuffix.length_le h

theorem Follows.some (h : Follows (some l) (some m)) : m <:+ l := h

/-- The parser has gone on. -/
def Past (l : List Char) (p : Ptr) : Prop := Follows (some l) p ∧ left p < l.length

theorem past_none : Past (c :: l) none := ⟨follows_none, Nat.succ_pos _⟩

theorem past_cons (h : Follows (some l) p) : Past (c :: l) p :=
  ⟨(follows_some (List.suffix_cons c l)).trans h, Nat.lt_succ_of_le h.left_le⟩

theorem Past.trans (h : Past l p) (h' : Follows p q) : Past l q :=
  ⟨h.1.trans h', lt_of_le_of_lt h'.left_le h.2⟩

theorem follows_past (h : m <:+ l) (h' : Past m p) : Past l p :=
  ⟨(follows_some h).trans h'.1, lt_of_lt_of_le h'.2 h.length_le⟩

/-- The parser has left the text, at a character that is cut off by its end. -/
def Fails (text : List Char) (e : Stop) : Prop :=
  e = .overrun ∧ ∃ c l, c :: l <:+ text ∧ l.length + 1 < utf8ByteTable c

/-! ### Characters -/

theorem skip_suffix (enc : Encoding) (l : List Char) : skip enc l <:+ l := by
  fun_induction skip enc l with
  | case1 a b c l _ ih =>
    exact ih.trans ((List.suffix_cons c l).trans ((List.suffix_cons b _).trans (List.suffix_cons a _)))
  | case2 a b c l _ _ ih => exact ih.trans (List.suffix_cons a _)
  | case3 => exact List.suffix_refl _
  | case4 a l _ _ ih => exact ih.trans (List.suffix_cons a _)
  | case5 => exact List.suffix_refl _
  | case6 => exact List.suffix_refl _

/-- Behind white space there is none. -/
theorem skip_head (enc : Encoding) (l : List Char) : ∀ c ∈ (skip enc l).head?, isWhiteSpace c = false := by
  fun_induction skip enc l with
  | case1 _ _ _ _ _ ih => exact ih
  | case2 _ _ _ _ _ _ ih => exact ih
  | case3 a b c l _ h =>
    rintro x ⟨⟩
    simpa using h
  | case4 _ _ _ _ ih => exact ih
  | case5 a l _ h =>
    rintro x ⟨⟩
    simpa using h
  | case6 => rintro x ⟨⟩

theorem skipWhiteSpace_follows (enc : Encoding) (p : Ptr) : Follows p (skipWhiteSpace enc p) := by
  rcases p with _ | _ | ⟨c, l⟩
  · exact follows_none
  · exact follows_none
  · exact follows_some (skip_suffix enc (c :: l))

/-- A name, as `ReadName` takes it. -/
def IsName (name : List Char) : Prop := name.head?.any isNameStart = true ∧ ∀ c ∈ name, isNameChar c = true

instance {name : List Char} : Decidable (IsName name) :=
  inferInstanceAs (Decidable (name.head?.any isNameStart = true ∧ ∀ c ∈ name, isNameChar c = true))

theorem isNameChar_of_start (h : isNameStart c = true) : isNameChar c = true := by
  have hs : isAlpha c = true ∨ c = '_' := of_decide_eq_true h
  refine decide_eq_true ?_
  rcases hs with hs | hs
  · left
    unfold isAlpha at hs
    unfold isAlphaNum
    split_ifs at hs ⊢ with hc
    · rw [Char.isAlphanum, hs, Bool.true_or]
    · rfl
  · exact .inr (.inl hs)

theorem readName_spec (h : readName p = (cs, q)) : Follows p q ∧
    (q = none ∨ IsName cs ∧ left q < left p) := by
  rcases p with _ | _ | ⟨c, l⟩
  · cases h
    exact ⟨follows_none, .inl rfl⟩
  · cases h
    exact ⟨follows_none, .inl rfl⟩
  · simp only [readName] at h
    split_ifs at h with hc
    · cases h
      have hname := isNameChar_of_start hc
      refine ⟨follows_some (List.dropWhile_suffix _), .inr ⟨⟨?_, List.all_eq_true.mp List.all_takeWhile⟩, ?_⟩⟩
      · rw [List.takeWhile_cons_of_pos hname]
        exact hc
      · rw [List.dropWhile_cons_of_pos hname]
        exact Nat.lt_succ_of_le (List.dropWhile_suffix _).length_le
    · cases h
      exact ⟨follows_none, .inl rfl⟩

theorem getNumber_follows (enc : Encoding) (base : ℕ) (mark : Char) (digit : Char → Option ℕ) (l : List Char) :
    Follows (some l) (getNumber enc base mark digit l).2 := by
  unfold getNumber
  by_cases hm : ';' ∈ l
  · rw [if_pos hm]
    cases readNumber base mark digit (l.takeWhile (· ≠ ';')).reverse 1 0 with
    | some ucs => exact follows_some ((List.drop_suffix 1 _).trans (List.dropWhile_suffix _))
    | none => exact follows_none
  · rw [if_neg hm]
    exact follows_none

theorem entity_ne : ∀ e ∈ entity, e.1 ≠ [] := by decide

theorem getEntity_past (enc : Encoding) (c : Char) (l : List Char) : Past (c :: l) (getEntity enc (c :: l)).2 := by
  unfold getEntity
  split
  · rename_i a q h
    obtain ⟨-, rfl⟩ := List.cons.inj h
    refine past_cons ((follows_some ?_).trans (getNumber_follows enc 16 'x' hexDigit q))
    exact (List.suffix_cons 'x' q).trans (List.suffix_cons '#' _)
  · rename_i a b q _ h
    obtain ⟨-, rfl⟩ := List.cons.inj h
    exact past_cons ((follows_some (List.suffix_cons '#' _)).trans (getNumber_follows enc 10 '#' decDigit (b :: q)))
  · split
    · rename_i e he
      obtain ⟨x, t, ht⟩ := List.exists_cons_of_ne_nil (entity_ne e (List.mem_of_find?_eq_some he))
      rw [ht]
      exact past_cons (follows_some (List.drop_suffix t.length l))
    · exact past_cons follows_refl

theorem getChar_spec (enc : Encoding) (h : c :: l <:+ text) :
    Ends (fun x => Past (c :: l) x.2) (Fails text) (getChar enc (c :: l)) := by
  rw [getChar_cons]
  have hb := byteCount_pos enc c
  split_ifs with h1 h2 h3
  · exact getEntity_past enc c l
  · exact past_cons follows_refl
  · -- the bytes of the character are not all there
    refine ⟨rfl, c, l, h, ?_⟩
    unfold byteCount at h1 h3
    split_ifs at h1 h3
    · exact h3
    · exact absurd rfl h1
  · obtain ⟨k, hk⟩ := Nat.exists_eq_succ_of_ne_zero hb.ne'
    rw [hk]
    exact past_cons (follows_some (List.drop_suffix k l))

/-- A text ends at its end tag. -/
def AtEnd (tag : List Char) (q : Ptr) : Prop := ∀ d k, q = some (d :: k) → tag <+: d :: k

theorem readKept_spec (enc : Encoding) (tag : List Char) : ∀ (n : ℕ) {p : Ptr}, Follows (some text) p → left p < n →
    Ends (fun x => Follows p x.2 ∧ AtEnd tag x.2) (Fails text) (readKept enc tag n p)
  | 0, _, _, hn => absurd hn (Nat.not_lt_zero _)
  | _ + 1, none, _, _ => ⟨follows_none, by rintro d k ⟨⟩⟩
  | _ + 1, some [], _, _ => ⟨follows_refl, by rintro d k ⟨⟩⟩
  | n + 1, some (c :: l), hp, hn => by
    unfold readKept
    split_ifs with htag
    · refine ⟨follows_refl, ?_⟩
      rintro d k ⟨⟩
      exact List.isPrefixOf_iff_prefix.mp htag
    · refine (getChar_spec enc hp.some).bind ?_
      rintro ⟨cs, q⟩ hq
      refine (readKept_spec enc tag n (hp.trans hq.1) (lt_of_lt_of_le hq.2 (Nat.le_of_lt_succ hn))).bind ?_
      rintro ⟨s, q'⟩ ⟨hq', hend⟩
      exact ⟨hq.1.trans hq', hend⟩

theorem readCondensed_spec (enc : Encoding) (tag : List Char) : ∀ (n : ℕ) (whitespace : Bool) {p : Ptr},
    Follows (some text) p → left p < n →
    Ends (fun x => Follows p x.2 ∧ AtEnd tag x.2) (Fails text) (readCondensed enc tag n whitespace p)
  | 0, _, _, _, hn => absurd hn (Nat.not_lt_zero _)
  | _ + 1, _, none, _, _ => ⟨follows_none, by rintro d k ⟨⟩⟩
  | _ + 1, _, some [], _, _ => ⟨follows_refl, by rintro d k ⟨⟩⟩
  | n + 1, whitespace, some (c :: l), hp, hn => by
    unfold readCondensed
    by_cases htag : stringEqual false tag (c :: l) = true
    · rw [if_pos htag]
      refine ⟨follows_refl, ?_⟩
      rintro d k ⟨⟩
      exact List.isPrefixOf_iff_prefix.mp htag
    · rw [if_neg htag]
      by_cases hws : isWhiteSpace c = true
      · rw [if_pos hws]
        have hc : Past (c :: l) (some l) := past_cons follows_refl
        refine (readCondensed_spec enc tag n true (hp.trans hc.1) (lt_of_lt_of_le hc.2 (Nat.le_of_lt_succ hn))).mono ?_
        rintro ⟨s, q'⟩ ⟨hq', hend⟩
        exact ⟨hc.1.trans hq', hend⟩
      · rw [if_neg hws]
        refine (getChar_spec enc hp.some).bind ?_
        rintro ⟨cs, q⟩ hq
        refine (readCondensed_spec enc tag n false (hp.trans hq.1) (lt_of_lt_of_le hq.2 (Nat.le_of_lt_succ hn))).bind ?_
        rintro ⟨s, q'⟩ ⟨hq', hend⟩
        exact ⟨hq.1.trans hq', hend⟩

theorem afterTag_follows (hq : Follows p q) (hend : AtEnd tag q) : Follows p ((afterTag tag q).map (tag ++ ·)) := by
  rcases q with _ | _ | ⟨c, k⟩
  · exact follows_none
  · exact follows_none
  · have hcut : tag ++ (c :: k).drop tag.length = c :: k := List.prefix_iff_eq_append.mp (hend c k rfl)
    unfold afterTag
    split
    · exact follows_none
    · exact follows_none
    · rename_i c' k' h
      cases h
      split
      · exact follows_none
      · rename_i d r hd
        change Follows p (some (tag ++ d :: r))
        rwa [← hd, hcut]

/-- Behind the end tag. -/
theorem readText_spec (enc : Encoding) (trimWhiteSpace : Bool) (tag : List Char) (hp : Follows (some text) p) :
    Ends (fun x => Follows p (x.2.map (tag ++ ·))) (Fails text) (readText enc trimWhiteSpace tag p) := by
  unfold readText
  refine Ends.bind (P := fun x : List Char × Ptr => Follows p x.2 ∧ AtEnd tag x.2) ?_ ?_
  · split_ifs
    · have hs := skipWhiteSpace_follows enc p
      refine (readCondensed_spec enc tag _ false (hp.trans hs) (Nat.lt_succ_self _)).mono ?_
      rintro ⟨s, q⟩ ⟨hq, hend⟩
      exact ⟨hs.trans hq, hend⟩
    · exact readKept_spec enc tag _ hp (Nat.lt_succ_self _)
  · rintro ⟨s, q⟩ ⟨hq, hend⟩
    exact afterTag_follows hq hend

/-! ### What is well formed -/

/-- A text that is no `CDATA`. -/
def isText : XmlNode → Bool
  | .text false _ => true
  | _ => false

/-- Names with a value each, all different. -/
def AreAttributes (as : List Attribute) : Prop := (∀ a ∈ as, IsName a.1) ∧ (as.map Prod.fst).Nodup

mutual

/-- A node that can be the result of a parse without errors. -/
def WellFormed : XmlNode → Prop
  | .element value attributes children => IsName value ∧ AreAttributes attributes ∧ WellFormedAll children
  | .text false value => blank value = false
  | .text true value => ¬ "]]>".toList <:+: value
  | .declaration _ _ _ => True
  | .comment value => ¬ "-->".toList <:+: value
  | .unknown value => '>' ∉ value

/-- No text is beside another one. -/
def WellFormedAll : List XmlNode → Prop
  | [] => True
  | x :: xs => WellFormed x ∧ (isText x = true → xs.head?.any isText = false) ∧ WellFormedAll xs

end

theorem setError_ne (err : Error) (error : Option Error) : setError err error ≠ none := by rintro ⟨⟩

/-! ### Attributes -/

theorem readUnquoted_spec : ∀ {l cs : List Char} {q : Ptr}, readUnquoted l = (cs, q) → Follows (some l) q
  | [], _, _, h => by
    cases h
    exact follows_refl
  | c :: l, _, _, h => by
    unfold readUnquoted at h
    split_ifs at h
    · cases h
      exact follows_refl
    · cases h
      exact follows_none
    · cases hr : readUnquoted l with
      | mk s q =>
        rw [hr] at h
        cases h
        exact (past_cons (readUnquoted_spec hr)).1

theorem readAttributeValue_spec (enc : Encoding) (name : List Char) (error : Option Error)
    (hp : Follows (some text) p) :
    Ends (fun x => Follows p x.2.1 ∧ x.1.1 = name ∧ (x.2.2 = none → error = none)) (Fails text)
      (readAttributeValue enc name p error) := by
  have hs := skipWhiteSpace_follows enc p
  unfold readAttributeValue
  split
  · exact ⟨follows_none, rfl, fun h => absurd h (setError_ne _ _)⟩
  · exact ⟨follows_none, rfl, fun h => absurd h (setError_ne _ _)⟩
  · rename_i c l hc
    rw [hc] at hs
    by_cases hq : c = '\'' ∨ c = '"'
    · rw [if_pos hq]
      have hl : Follows p (some l) := hs.trans (past_cons follows_refl).1
      refine (readText_spec enc false [c] (hp.trans hl)).bind ?_
      rintro ⟨s, q⟩ hq
      refine ⟨hl.trans ?_, rfl, id⟩
      cases q with
      | none => exact follows_none
      | some k => exact (follows_some (List.suffix_cons c k)) |> Follows.trans hq
    · rw [if_neg hq]
      split
      · exact ⟨follows_none, rfl, fun h => absurd h (setError_ne _ _)⟩
      · rename_i s k hr
        exact ⟨hs.trans (readUnquoted_spec hr), rfl, id⟩

theorem attributeParse_spec (enc : Encoding) (error : Option Error) (hp : Follows (some text) p) :
    Ends (fun x => Follows p x.2.1 ∧ (x.2.1 = none ∨ IsName x.1.1 ∧ left x.2.1 < left p) ∧
      (x.2.2 = none → error = none)) (Fails text) (attributeParse enc p error) := by
  have hs := skipWhiteSpace_follows enc p
  unfold attributeParse
  split
  · exact ⟨follows_none, .inl rfl, id⟩
  · exact ⟨follows_none, .inl rfl, id⟩
  · rename_i c l hc
    rw [hc] at hs
    split
    · exact ⟨follows_none, .inl rfl, fun h => absurd h (setError_ne _ _)⟩
    · exact ⟨follows_none, .inl rfl, fun h => absurd h (setError_ne _ _)⟩
    · rename_i name d k hname
      obtain ⟨hk, hk' | ⟨hn, hlt⟩⟩ := readName_spec hname
      · cases hk'
      · have hs' := skipWhiteSpace_follows enc (some (d :: k))
        split
        · rename_i r hr
          rw [hr] at hs'
          have hr' : Follows (some (d :: k)) (some r) := hs'.trans (past_cons follows_refl).1
          have hpr := (hs.trans hk).trans hr'
          refine (readAttributeValue_spec enc name error (hp.trans hpr)).mono ?_
          rintro ⟨⟨x, v⟩, q, error'⟩ ⟨hq, rfl, he⟩
          refine ⟨hpr.trans hq, .inr ⟨hn, ?_⟩, he⟩
          calc left q ≤ left (some (d :: k)) := (hr'.trans hq).left_le
            _ < left (some (c :: l)) := hlt
            _ ≤ left p := hs.left_le
        · exact ⟨follows_none, .inl rfl, fun h => absurd h (setError_ne _ _)⟩

/-! ### Nodes without nodes in them -/

theorem upTo_spec (tag : List Char) : ∀ {l cs r : List Char}, upTo tag l = (cs, r) → l = cs ++ r ∧
    (tag ≠ [] → ¬ tag <:+: cs)
  | [], _, _, h => by
    cases h
    exact ⟨rfl, fun ht hi => ht (List.infix_nil.mp hi)⟩
  | c :: l, _, _, h => by
    unfold upTo at h
    split_ifs at h with htag
    · cases h
      exact ⟨rfl, fun ht hi => ht (List.infix_nil.mp hi)⟩
    · cases hr : upTo tag l with
      | mk s k =>
        rw [hr] at h
        cases h
        obtain ⟨rfl, hs⟩ := upTo_spec tag hr
        refine ⟨rfl, fun ht hi => ?_⟩
        rcases List.infix_cons_iff.mp hi with hi | hi
        · refine htag (List.isPrefixOf_iff_prefix.mpr (hi.trans ?_))
          exact List.prefix_append (c :: _) _
        · exact hs ht hi

theorem upTo_suffix (h : upTo tag l = (cs, r)) (k : ℕ) : r.drop k <:+ l := by
  obtain ⟨rfl, -⟩ := upTo_spec tag h
  exact (List.drop_suffix k r).trans (List.suffix_append cs r)

/-- What is none of the three attributes is one character or more. -/
theorem skip_cut (enc : Encoding) (hc : c ≠ '>') (l : List Char) : Past (c :: l)
    (some ((skip enc (c :: l)).dropWhile fun c => c ≠ '>' ∧ ¬ isWhiteSpace c)) := by
  have hs := skip_suffix enc (c :: l)
  have hhead := skip_head enc (c :: l)
  refine ⟨follows_some ((List.dropWhile_suffix _).trans hs), ?_⟩
  cases hk : skip enc (c :: l) with
  | nil => exact Nat.succ_pos _
  | cons d k =>
    rw [hk] at hs hhead
    have hws : isWhiteSpace d = false := hhead d rfl
    by_cases hd : d = '>'
    · have hne : (d :: k).length ≠ (c :: l).length := fun hlen =>
        hc ((List.cons.inj (hs.eq_of_length hlen)).1.symm.trans hd)
      exact lt_of_le_of_lt (List.dropWhile_suffix _).length_le (lt_of_le_of_ne hs.length_le hne)
    · rw [List.dropWhile_cons_of_pos (by simp [hd, hws])]
      exact lt_of_le_of_lt (List.dropWhile_suffix _).length_le (Nat.lt_of_succ_le hs.length_le)

/-- The loop goes on by one character or more. -/
theorem declarationLoop_spec (enc : Encoding) : ∀ (n : ℕ) (version encoding standalone : List Char) {p : Ptr},
    Follows (some text) p → left p < n →
    Ends (fun x => Follows p x.2 ∧ ∃ v e s, x.1 = .declaration v e s) (Fails text)
      (declarationLoop enc n version encoding standalone p)
  | 0, _, _, _, _, _, hn => absurd hn (Nat.not_lt_zero _)
  | _ + 1, v, e, s, none, _, _ => ⟨follows_none, v, e, s, rfl⟩
  | _ + 1, v, e, s, some [], _, _ => ⟨follows_none, v, e, s, rfl⟩
  | n + 1, v, e, s, some (c :: l), hp, hn => by
    unfold declarationLoop
    by_cases hc : c = '>'
    · rw [if_pos hc]
      exact ⟨(past_cons follows_refl).1, v, e, s, rfl⟩
    rw [if_neg hc]
    have hs : Follows (some (c :: l)) (some (skip enc (c :: l))) := follows_some (skip_suffix enc (c :: l))
    have hattr : ∀ f : List Char → List Char × List Char × List Char, Ends
        (fun x => Follows (some (c :: l)) x.2 ∧ ∃ v e s, x.1 = .declaration v e s) (Fails text)
        (attributeParse enc (some (skip enc (c :: l))) none >>= fun x =>
          declarationLoop enc n (f x.1.2).1 (f x.1.2).2.1 (f x.1.2).2.2 x.2.1) := by
      intro f
      refine (attributeParse_spec enc none (hp.trans hs)).bind ?_
      rintro ⟨a, q, _⟩ ⟨hq, hlt, -⟩
      have hleft : left q < n := by
        have hle := hs.left_le
        rcases hlt with rfl | ⟨-, hlt⟩
        · exact lt_of_lt_of_le (Nat.succ_pos l.length) (Nat.le_of_lt_succ hn)
        · exact lt_of_lt_of_le (lt_of_lt_of_le hlt hle) (Nat.le_of_lt_succ hn)
      refine (declarationLoop_spec enc n _ _ _ (hp.trans (hs.trans hq)) hleft).mono ?_
      rintro ⟨x, q'⟩ ⟨hq', hx⟩
      exact ⟨(hs.trans hq).trans hq', hx⟩
    simp only []
    split_ifs
    · exact hattr fun a => (a, e, s)
    · exact hattr fun a => (v, a, s)
    · exact hattr fun a => (v, e, a)
    · have hcut := skip_cut enc hc l
      refine (declarationLoop_spec enc n v e s (hp.trans hcut.1)
        (lt_of_lt_of_le hcut.2 (Nat.le_of_lt_succ hn))).mono ?_
      rintro ⟨x, q'⟩ ⟨hq', hx⟩
      exact ⟨hcut.1.trans hq', hx⟩

/-- What the parser of a node without nodes in it returns, at `l`. -/
def Leaf (l : List Char) (error : Option Error) (x : Read XmlNode) : Prop :=
  Past l x.2.1 ∧ isText x.1 = false ∧ (x.2.2 = none → error = none ∧ WellFormed x.1)

theorem leaf_failed {x : XmlNode} {err : Error} (hx : isText x = false) :
    Leaf (c :: l) error (x, none, setError err error) :=
  ⟨past_none, hx, fun h => absurd h (setError_ne _ _)⟩

/-- The white space in front of a node. -/
theorem past_skip (h : skipWhiteSpace enc (some (c :: l)) = some m) (hp : Past m p) : Past (c :: l) p := by
  have hs := skipWhiteSpace_follows enc (some (c :: l))
  rw [h] at hs
  exact follows_past hs.some hp

theorem declarationParse_spec (enc : Encoding) (error : Option Error) (h : c :: l <:+ text) :
    Ends (Leaf (c :: l) error) (Fails text) (declarationParse enc (some (c :: l)) error) := by
  unfold declarationParse
  split
  · exact leaf_failed rfl
  · exact leaf_failed rfl
  · rename_i d k hk
    have hs := skipWhiteSpace_follows enc (some (c :: l))
    rw [hk] at hs
    split_ifs
    · have hdrop : Past (d :: k) (some ((d :: k).drop 5)) := past_cons (follows_some (List.drop_suffix 4 k))
      refine (declarationLoop_spec enc _ [] [] [] ((follows_some h).trans (hs.trans hdrop.1))
        (Nat.lt_succ_self _)).bind ?_
      rintro ⟨x, q⟩ ⟨hq, v, e, s, rfl⟩
      exact ⟨past_skip hk (hdrop.trans hq), rfl, fun he => ⟨he, trivial⟩⟩
    · exact leaf_failed rfl

theorem commentParse_spec (enc : Encoding) (error : Option Error) (c : Char) (l : List Char) :
    Leaf (c :: l) error (commentParse enc (some (c :: l)) error) := by
  unfold commentParse
  split
  · exact leaf_failed rfl
  · exact leaf_failed rfl
  · rename_i d k hk
    split_ifs
    · cases hu : upTo "-->".toList ((d :: k).drop 4) with
      | mk s r =>
        have hr := upTo_suffix hu 3
        refine ⟨past_skip hk (past_cons (follows_some (hr.trans (List.drop_suffix 3 k)))), rfl, fun he => ⟨he, ?_⟩⟩
        exact (upTo_spec _ hu).2 (by decide)
    · exact leaf_failed rfl

theorem unknownParse_spec (enc : Encoding) (error : Option Error) (c : Char) (l : List Char) :
    Leaf (c :: l) error (unknownParse enc (some (c :: l)) error) := by
  unfold unknownParse
  split
  · rename_i k hk
    have hr : (k.dropWhile (· ≠ '>')).drop 1 <:+ k := (List.drop_suffix 1 _).trans (List.dropWhile_suffix _)
    refine ⟨past_skip hk (past_cons (follows_some hr)), rfl, fun he => ⟨he, fun hm => ?_⟩⟩
    have hne := List.all_eq_true.mp (List.all_takeWhile (p := fun x => decide (x ≠ '>')) (l := k)) '>' hm
    exact absurd hne (by decide)
  · exact leaf_failed rfl

theorem cdataParse_spec (enc : Encoding) (error : Option Error) (h : c :: l <:+ text) :
    Ends (Leaf (c :: l) error) (Fails text) (cdataParse enc (c :: l) error) := by
  unfold cdataParse
  split_ifs
  · cases hu : upTo "]]>".toList ((c :: l).drop 9) with
    | mk s r =>
      have hr : Past (c :: l) (some r) := past_cons (follows_some ((upTo_suffix hu 0).trans (List.drop_suffix 8 l)))
      refine (readText_spec enc false "]]>".toList ((follows_some h).trans hr.1)).bind ?_
      rintro ⟨s', q⟩ hq
      have hq' : Follows (some r) q := by
        cases q with
        | none => exact follows_none
        | some k => exact hq.trans (follows_some (List.suffix_append _ k))
      exact ⟨hr.trans hq', rfl, fun he => ⟨he, (upTo_spec _ hu).2 (by decide)⟩⟩
  · exact leaf_failed rfl

/-- A text ends in front of a bracket. -/
theorem textParse_spec (enc : Encoding) (h : c :: l <:+ text) (hc : c ≠ '<') :
    Ends (fun x => Past (c :: l) x.2 ∧ (x.2 = none ∨ ∃ r, x.2 = some ('<' :: r))) (Fails text)
      (textParse enc (c :: l)) := by
  unfold textParse
  refine (readText_spec enc true "<".toList (follows_some h)).bind ?_
  rintro ⟨s, q⟩ hq
  rcases q with _ | _ | ⟨d, k⟩
  · exact ⟨past_none, .inl rfl⟩
  · exact ⟨past_none, .inl rfl⟩
  · have hk : '<' :: d :: k <:+ c :: l := hq
    refine ⟨⟨follows_some hk, lt_of_le_of_ne hk.length_le fun hlen => ?_⟩, .inr ⟨d :: k, rfl⟩⟩
    exact hc (List.cons.inj (hk.eq_of_length hlen)).1.symm

/-! ### Elements -/

/-- Where the attributes of an element end; there is an error where they do not. -/
def TagFollows (p : Ptr) (error : Option Error) : Tag → Prop
  | .closed q => Follows p q
  | .opened l => Follows p (some l)
  | .failed => error ≠ none

theorem TagFollows.trans {tag : Tag} (h : TagFollows q error tag) (hpq : Follows p q) : TagFollows p error tag := by
  cases tag with
  | closed q' => exact Follows.trans hpq h
  | opened l => exact Follows.trans hpq h
  | failed => exact h

theorem AreAttributes.append {as : List Attribute} {a : Attribute} (h : AreAttributes as) (ha : IsName a.1)
    (hne : ¬ as.any (·.1 = a.1) = true) : AreAttributes (as ++ [a]) := by
  refine ⟨fun b hb => ?_, ?_⟩
  · rcases List.mem_append.mp hb with hb | hb
    · exact h.1 b hb
    · exact List.mem_singleton.mp hb ▸ ha
  · rw [List.map_append, List.map_singleton, ← List.concat_eq_append]
    refine List.Nodup.concat (fun hm => hne ?_) h.2
    obtain ⟨b, hb, he⟩ := List.mem_map.mp hm
    exact List.any_eq_true.mpr ⟨b, hb, decide_eq_true he⟩

theorem readAttributes_spec (enc : Encoding) : ∀ (n : ℕ) (as : List Attribute) {p : Ptr} (error : Option Error),
    Follows (some text) p → left p < n → AreAttributes as →
    Ends (fun x => TagFollows p x.2.2 x.2.1 ∧ AreAttributes x.1 ∧ (x.2.2 = none → error = none)) (Fails text)
      (readAttributes enc n as p error)
  | 0, _, _, _, _, hn, _ => absurd hn (Nat.not_lt_zero _)
  | _ + 1, _, none, _, _, _, has => ⟨follows_none (p := none), has, id⟩
  | _ + 1, _, some [], _, _, _, has => ⟨List.suffix_refl [], has, id⟩
  | n + 1, as, some (c :: l), error, hp, hn, has => by
    have hs : Follows (some (c :: l)) (some (skip enc (c :: l))) := follows_some (skip_suffix enc (c :: l))
    unfold readAttributes
    split
    · exact ⟨setError_ne _ _, has, fun h => absurd h (setError_ne _ _)⟩
    · rename_i k hk
      rw [hk] at hs
      exact ⟨hs.trans (follows_some ((List.suffix_cons '>' k).trans (List.suffix_cons '/' _))), has, id⟩
    · exact ⟨setError_ne _ _, has, fun h => absurd h (setError_ne _ _)⟩
    · rename_i k hk
      rw [hk] at hs
      exact ⟨hs.trans (follows_some (List.suffix_cons '>' k)), has, id⟩
    · rename_i d k _ _ _ hk
      rw [hk] at hs
      refine (attributeParse_spec enc error (hp.trans hs)).bind ?_
      rintro ⟨a, q, error'⟩ ⟨hq, hname, he⟩
      rcases q with _ | _ | ⟨d', k'⟩
      · exact ⟨setError_ne _ _, has, fun h => absurd h (setError_ne _ _)⟩
      · exact ⟨setError_ne _ _, has, fun h => absurd h (setError_ne _ _)⟩
      · obtain hx | ⟨hname, hlt⟩ := hname
        · cases hx
        change Ends _ _ (if as.any (·.1 = a.1) then _ else _)
        by_cases hdouble : as.any (·.1 = a.1) = true
        · rw [if_pos hdouble]
          exact ⟨setError_ne _ _, has, fun h => absurd h (setError_ne _ _)⟩
        · rw [if_neg hdouble]
          have hleft : left (some (d' :: k')) < n :=
            lt_of_lt_of_le (lt_of_lt_of_le hlt hs.left_le) (Nat.le_of_lt_succ hn)
          refine (readAttributes_spec enc n (as ++ [a]) error' (hp.trans (hs.trans hq)) hleft
            (has.append hname hdouble)).mono ?_
          rintro ⟨bs, tag, error''⟩ ⟨htag, hbs, he'⟩
          exact ⟨htag.trans (hs.trans hq), hbs, fun h => he (he' h)⟩

theorem readEndTag_spec (enc : Encoding) (name : List Char) (p : Ptr) (error : Option Error) :
    Follows p (readEndTag enc name p error).1 ∧ ((readEndTag enc name p error).2 = none → error = none) := by
  unfold readEndTag
  split
  · exact ⟨follows_none, fun h => absurd h (setError_ne _ _)⟩
  · exact ⟨follows_none, fun h => absurd h (setError_ne _ _)⟩
  · rename_i c l
    split_ifs
    · split
      · rename_i k hk
        have hs := skipWhiteSpace_follows enc (some ((c :: l).drop (name.length + 2)))
        rw [hk] at hs
        exact ⟨((follows_some (List.drop_suffix _ _)).trans hs).trans (past_cons follows_refl).1, id⟩
      · exact ⟨follows_none, fun h => absurd h (setError_ne _ _)⟩
    · exact ⟨follows_none, fun h => absurd h (setError_ne _ _)⟩

/-- The name of an element and its attributes, at `l`. -/
theorem readTag_spec (enc : Encoding) (error : Option Error) (h : c :: l <:+ text) :
    Ends (fun x => (∃ m, Past (c :: l) (some m) ∧ TagFollows (some m) x.2.2.2 x.2.2.1) ∧
      (x.2.2.2 = none → error = none ∧ IsName x.1 ∧ AreAttributes x.2.1)) (Fails text)
      (readTag enc (some (c :: l)) error) := by
  unfold readTag
  split
  · rename_i k hk
    have hk' : Past (c :: l) (some k) := past_skip hk (past_cons follows_refl)
    have hs := skipWhiteSpace_follows enc (some k)
    split
    · exact ⟨⟨k, hk', setError_ne _ _⟩, fun h => absurd h (setError_ne _ _)⟩
    · exact ⟨⟨k, hk', setError_ne _ _⟩, fun h => absurd h (setError_ne _ _)⟩
    · rename_i name d r hname
      obtain ⟨hr, hx | ⟨hn, -⟩⟩ := readName_spec hname
      · cases hx
      have hkr := hs.trans hr
      have hl : Follows (some text) (some (d :: r)) := (follows_some h).trans (hk'.1.trans hkr)
      have hnil : AreAttributes [] := ⟨fun _ ha => absurd ha List.not_mem_nil, List.nodup_nil⟩
      refine (readAttributes_spec enc (r.length + 2) [] error hl (Nat.lt_succ_self _) hnil).bind ?_
      rintro ⟨as, tag, error'⟩ ⟨htag, has, he⟩
      exact ⟨⟨k, hk', htag.trans hkr⟩, fun h => ⟨he h, hn, has⟩⟩
  · exact ⟨⟨l, past_cons follows_refl, setError_ne _ _⟩, fun h => absurd h (setError_ne _ _)⟩

theorem identify_bracket (enc : Encoding) (l : List Char) : ∃ kind, identify enc (some ('<' :: l)) = some kind := by
  have hs : skipWhiteSpace enc (some ('<' :: l)) = some ('<' :: l) := congrArg some (skip_bracket enc l)
  unfold identify
  rw [hs]
  simp only []
  split_ifs
  · exact ⟨_, rfl⟩
  · exact ⟨_, rfl⟩
  · exact ⟨_, rfl⟩
  · exact ⟨_, rfl⟩
  · exact ⟨_, rfl⟩
  · exact ⟨_, rfl⟩

/-- The nodes that are read at `p` do not begin with a text if a bracket is there. -/
def Begins (p : Ptr) (xs : List XmlNode) : Prop :=
  p = none ∨ (∃ l, p = some ('<' :: l)) → xs.head?.any isText = false

mutual

/-- A node is read to its end, and goes on by a character or more. -/
theorem parseNode_spec (enc : Encoding) : ∀ (n : ℕ) (kind : Kind) {c : Char} {l : List Char} (error : Option Error),
    c :: l <:+ text → 2 * (c :: l).length ≤ n →
    Ends (Leaf (c :: l) error) (Fails text) (parseNode enc n kind (c :: l) error)
  | 0, _, _, _, _, _, hn => absurd hn (by rw [List.length_cons]; omega)
  | _ + 1, .declaration, _, _, error, h, _ => declarationParse_spec enc error h
  | _ + 1, .comment, c, l, error, _, _ => commentParse_spec enc error c l
  | _ + 1, .cdata, _, _, error, h, _ => cdataParse_spec enc error h
  | _ + 1, .unknown, c, l, error, _, _ => unknownParse_spec enc error c l
  | n + 1, .element, c, l, error, h, hn => by
    unfold parseNode
    refine (readTag_spec enc error h).bind ?_
    rintro ⟨name, as, tag, error'⟩ ⟨⟨m, hm, htag⟩, hname⟩
    cases tag with
    | failed => exact ⟨past_none, rfl, fun he => absurd he htag⟩
    | closed q => exact ⟨hm.trans htag, rfl, fun he => ⟨(hname he).1, (hname he).2.1, (hname he).2.2, trivial⟩⟩
    | opened k =>
      have hk : Past (c :: l) (skipWhiteSpace enc (some k)) :=
        (hm.trans (q := some k) htag).trans (skipWhiteSpace_follows enc (some k))
      have hleft : 2 * left (skipWhiteSpace enc (some k)) < n := by
        have hlt := hk.2
        omega
      refine (readValue_spec enc n error' ((follows_some h).trans hk.1) hleft).bind ?_
      rintro ⟨children, q, error''⟩ ⟨hq, hchildren⟩
      have hend := readEndTag_spec enc name q error''
      refine ⟨hk.trans (hq.trans hend.1), rfl, fun he => ?_⟩
      obtain ⟨he', hwf, -⟩ := hchildren (hend.2 he)
      exact ⟨(hname he').1, (hname he').2.1, (hname he').2.2, hwf⟩

/-- What an element holds is read up to its end tag. -/
theorem readValue_spec (enc : Encoding) : ∀ (n : ℕ) {p : Ptr} (error : Option Error),
    Follows (some text) p → 2 * left p < n →
    Ends (fun x => Follows p x.2.1 ∧ (x.2.2 = none → error = none ∧ WellFormedAll x.1 ∧ Begins p x.1)) (Fails text)
      (readValue enc n p error)
  | 0, _, _, _, hn => absurd hn (Nat.not_lt_zero _)
  | _ + 1, none, _, _, _ => ⟨follows_none, fun h => absurd h (setError_ne _ _)⟩
  | _ + 1, some [], _, _, _ => ⟨List.suffix_refl [], fun h => ⟨h, trivial, fun _ => rfl⟩⟩
  | n + 1, some (c :: l), error, hp, hn => by
    have hlen : 2 * (c :: l).length ≤ n := Nat.le_of_lt_succ hn
    -- the nodes behind a pointer that has gone on
    have hgo : ∀ {q : Ptr} (error : Option Error), Past (c :: l) q →
        Ends (fun x => Follows (some (c :: l)) x.2.1 ∧
          (x.2.2 = none → error = none ∧ WellFormedAll x.1 ∧ Begins (skipWhiteSpace enc q) x.1)) (Fails text)
          (readValue enc n (skipWhiteSpace enc q) error) := by
      intro q error hq
      have hs := hq.trans (skipWhiteSpace_follows enc q)
      have hleft : 2 * left (skipWhiteSpace enc q) < n := by
        have hlt := hs.2
        omega
      refine (readValue_spec enc n error (hp.trans hs.1) hleft).mono ?_
      rintro ⟨xs, q', error'⟩ ⟨hq', hx⟩
      exact ⟨hs.1.trans hq', hx⟩
    unfold readValue
    by_cases hc : c = '<'
    · rw [if_neg (not_not.mpr hc)]
      by_cases hend : stringEqual false "</".toList (c :: l) = true
      · rw [if_pos hend]
        exact ⟨follows_refl, fun h => ⟨h, trivial, fun _ => rfl⟩⟩
      · rw [if_neg hend]
        cases hk : identify enc (some (c :: l)) with
        | none =>
          subst hc
          obtain ⟨kind, hkind⟩ := identify_bracket enc l
          exact absurd (hk.symm.trans hkind) (Option.some_ne_none kind).symm
        | some kind =>
          refine (parseNode_spec enc n kind error hp.some hlen).bind ?_
          rintro ⟨x, q, error'⟩ ⟨hq, hx, hwf⟩
          refine (hgo error' hq).bind ?_
          rintro ⟨xs, q', error''⟩ ⟨hq', hxs⟩
          refine ⟨hq', fun he => ?_⟩
          obtain ⟨he', hwfs, -⟩ := hxs he
          have hne : isText x = true → xs.head?.any isText = false :=
            fun h => absurd (hx.symm.trans h) Bool.false_ne_true
          exact ⟨(hwf he').1, ⟨(hwf he').2, hne, hwfs⟩, fun _ => hx⟩
    · rw [if_pos hc]
      refine (textParse_spec enc hp.some hc).bind ?_
      rintro ⟨value, q⟩ ⟨hq, hafter⟩
      refine (hgo error hq).bind ?_
      rintro ⟨xs, q', error'⟩ ⟨hq', hxs⟩
      refine ⟨hq', fun he => ?_⟩
      obtain ⟨he', hwfs, hbegins⟩ := hxs he
      have hbegin : Begins (some (c :: l)) xs ∧ Begins (some (c :: l)) (.text false value :: xs) := by
        refine ⟨?_, ?_⟩ <;>
        · rintro (h | ⟨k, hk⟩)
          · cases h
          · exact absurd (List.cons.inj (Option.some.inj hk)).1 hc
      cases hb : blank value with
      | true =>
        simp only [if_true]
        exact ⟨he', hwfs, hbegin.1⟩
      | false =>
        refine ⟨he', ⟨hb, fun _ => hbegins ?_, hwfs⟩, hbegin.2⟩
        rcases hafter with rfl | ⟨k, rfl⟩
        · exact .inl rfl
        · exact .inr ⟨k, congrArg some (skip_bracket enc k)⟩

end

/-! ### Documents -/

theorem documentLoop_spec : ∀ (n : ℕ) (enc : Encoding) {p : Ptr} (error : Option Error),
    Follows (some text) p → left p < n →
    Ends (fun x => Follows p x.2.1 ∧ (x.2.2 = none →
      error = none ∧ WellFormedAll x.1 ∧ ∀ y ∈ x.1, isText y = false)) (Fails text) (documentLoop n enc p error)
  | 0, _, _, _, _, hn => absurd hn (Nat.not_lt_zero _)
  | _ + 1, _, none, _, _, _ => ⟨follows_none, fun h => ⟨h, trivial, fun _ hy => absurd hy List.not_mem_nil⟩⟩
  | _ + 1, _, some [], _, _, _ =>
    ⟨List.suffix_refl [], fun h => ⟨h, trivial, fun _ hy => absurd hy List.not_mem_nil⟩⟩
  | n + 1, enc, some (c :: l), error, hp, hn => by
    unfold documentLoop
    split
    · exact ⟨follows_refl, fun h => ⟨h, trivial, fun _ hy => absurd hy List.not_mem_nil⟩⟩
    · rename_i kind _
      refine (parseNode_spec enc (2 * l.length + 2) kind error hp.some (by rw [List.length_cons]; omega)).bind ?_
      rintro ⟨x, q, error'⟩ ⟨hq, hx, hwf⟩
      have hs := hq.trans (skipWhiteSpace_follows (nextEncoding enc x) q)
      have hleft := lt_of_lt_of_le hs.2 (Nat.le_of_lt_succ hn)
      refine (documentLoop_spec n (nextEncoding enc x) error' (hp.trans hs.1) hleft).bind ?_
      rintro ⟨xs, q', error''⟩ ⟨hq', hxs⟩
      refine ⟨hs.1.trans hq', fun he => ?_⟩
      obtain ⟨he', hwfs, htexts⟩ := hxs he
      have hne : isText x = true → xs.head?.any isText = false := fun h => absurd (hx.symm.trans h) Bool.false_ne_true
      refine ⟨(hwf he').1, ⟨(hwf he').2, hne, hwfs⟩, fun y hy => ?_⟩
      rcases List.mem_cons.mp hy with rfl | hy
      · exact hx
      · exact htexts y hy

/-- A document that can be the result of a parse without errors. -/
def WellFormedDocument (document : List XmlNode) : Prop :=
  document ≠ [] ∧ WellFormedAll document ∧ ∀ x ∈ document, isText x = false

theorem parse_spec (text : List Char) : Ends (fun x => Follows (some text) x.2.1 ∧
    (x.2.2 = none → WellFormedDocument x.1)) (Fails text) (parse text) := by
  unfold parse
  by_cases hnil : text = []
  · rw [if_pos hnil]
    exact ⟨follows_none, fun h => absurd h (Option.some_ne_none _)⟩
  · rw [if_neg hnil]
    have hs := skipWhiteSpace_follows (firstEncoding text) (some text)
    refine (documentLoop_spec _ (firstEncoding text) none hs (Nat.lt_succ_of_le hs.left_le)).bind ?_
    rintro ⟨xs, q, error⟩ ⟨hq, hxs⟩
    cases xs with
    | nil => exact ⟨follows_none, fun h => absurd h (setError_ne _ _)⟩
    | cons x xs => exact ⟨hs.trans hq, fun he => ⟨List.cons_ne_nil x xs, (hxs he).2⟩⟩

/-- **A steady text** is parsed to its end, or to the first thing that is no node: each call of `Stamp` ends, and so
does what makes the calls; the parser leaves the text only at a lead byte that is cut off. -/
theorem parse_ends (text : List Char) (h : Steady text) : StampsEnd text ∧
    ((∃ xs p error, parse text = .ok (xs, p, error) ∧ ∀ l, p = some l → l <:+ text) ∨
      parse text = .error .overrun ∧ ∃ c l, c :: l <:+ text ∧ l.length + 1 < utf8ByteTable c) := by
  refine ⟨stamps_end h, ?_⟩
  rcases (parse_spec text).cases with ⟨⟨xs, p, error⟩, hx, hp, -⟩ | ⟨e, hx, rfl, hcut⟩
  · refine .inl ⟨xs, p, error, hx, ?_⟩
    rintro l rfl
    exact hp
  · exact .inr ⟨hx, hcut⟩

/-- A text whose last byte begins a character of two. -/
def cutText : List Char := "<?xml ?><a>".toList ++ [Char.ofNat 0xc3]

theorem parse_ends_cut : StampsEnd cutText ∧
    ((∃ xs p error, parse cutText = .ok (xs, p, error) ∧ ∀ l, p = some l → l <:+ cutText) ∨
      parse cutText = .error .overrun ∧ ∃ c l, c :: l <:+ cutText ∧ l.length + 1 < utf8ByteTable c) :=
  parse_ends cutText (by decide +kernel)

/-- The parser leaves it. -/
example : (parse cutText).isOk = false := by decide +kernel

/-- There is no error. -/
def accepted : Except Stop (Read (List XmlNode)) → Bool
  | .ok (_, _, none) => true
  | _ => false

/-- **What is accepted** is well formed. -/
theorem parse_wellFormed {text : List Char} (h : accepted (parse text) = true) :
    ∃ xs p, parse text = .ok (xs, p, none) ∧ WellFormedDocument xs := by
  have hspec := parse_spec text
  revert h hspec
  generalize parse text = x
  intro h hspec
  rcases x with e | ⟨xs, p, _ | err⟩
  · cases h
  · exact ⟨xs, p, rfl, hspec.2 rfl⟩
  · cases h

/-- An element with an attribute and a text. -/
theorem parse_wellFormed_element : ∃ xs p, parse "<a b='1'>x</a>".toList = .ok (xs, p, none) ∧ WellFormedDocument xs :=
  parse_wellFormed (by decide +kernel)

end StNvs.Xml.Bounds
