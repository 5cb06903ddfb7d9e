import StNvs.Xml.Chars

/-! # What is read of a text that was written

`EncodeString` writes references for the characters that mean something else, and `ReadText` reads them back.
A text comes back if it is made of whole characters (`Whole`), since a lead byte takes the bytes behind it
with it, and if nothing in it looks like a reference by number, which is passed through.

* `readText_attribute`: an attribute value comes back as it was.
* `readText_text`: a text comes back with its blanks condensed.
* `leaks_iff`: when a quote or a bracket of a text is written as it is. -/

namespace StNvs.Xml.Texts

open StNvs.Xml.Chars

variable {enc : Encoding} {c d q : Char} {s s' l r cs : List Char} {n : ℕ}

/-! ### Whole characters -/

/-- The first `k` bytes go on with a character, and whole characters follow. -/
def whole : ℕ → List Char → Bool
  | 0, [] => true
  | _ + 1, [] => false
  | 0, c :: l => whole (utf8ByteTable c - 1) l
  | k + 1, c :: l => 0x80 ≤ c.toNat ∧ whole k l

/-- In UTF-8, each lead byte is followed by as many bytes as it should be. -/
def Whole (enc : Encoding) (s : List Char) : Prop := enc = .utf8 → whole 0 s = true

instance : Decidable (Whole enc s) := inferInstanceAs (Decidable (enc = .utf8 → whole 0 s = true))

/-- How many bytes a character takes. -/
def byteCount (enc : Encoding) (c : Char) : ℕ := if enc = .utf8 then utf8ByteTable c else 1

theorem byteCount_pos (enc : Encoding) (c : Char) : 0 < byteCount enc c := by
  unfold byteCount utf8ByteTable
  split_ifs <;> decide

theorem whole_split : ∀ {k : ℕ} {l : List Char}, whole k l = true →
    ∃ cs r, l = cs ++ r ∧ cs.length = k ∧ (∀ d ∈ cs, 0x80 ≤ d.toNat) ∧ whole 0 r = true
  | 0, l, h => ⟨[], l, rfl, rfl, fun _ hd => absurd hd List.not_mem_nil, h⟩
  | _ + 1, [], h => by cases h
  | k + 1, c :: l, h => by
    simp only [whole, Bool.decide_and, Bool.decide_eq_true, Bool.and_eq_true, decide_eq_true_eq] at h
    obtain ⟨cs, r, rfl, hlen, hcs, hr⟩ := whole_split h.2
    refine ⟨c :: cs, r, rfl, by rw [List.length_cons, hlen], fun d hd => ?_, hr⟩
    rcases List.mem_cons.mp hd with rfl | hd
    · exact h.1
    · exact hcs d hd

/-- The first character of a text. -/
theorem Whole.first (h : Whole enc (c :: l)) : ∃ cs r, l = cs ++ r ∧ byteCount enc c = cs.length + 1 ∧
    (∀ d ∈ cs, 0x80 ≤ d.toNat) ∧ Whole enc r := by
  by_cases he : enc = .utf8
  · obtain ⟨cs, r, hl, hlen, hcs, hr⟩ := whole_split (k := utf8ByteTable c - 1) (h he)
    have hpos := byteCount_pos enc c
    rw [byteCount, if_pos he] at hpos ⊢
    exact ⟨cs, r, hl, by omega, hcs, fun _ => hr⟩
  · refine ⟨[], l, rfl, ?_, fun _ hd => absurd hd List.not_mem_nil, fun hx => absurd hx he⟩
    rw [byteCount, if_neg he]
    rfl

/-! ### One character -/

/-- What is not written as it is. -/
def Special (c : Char) : Prop := c = '&' ∨ c = '<' ∨ c = '>' ∨ c = '"' ∨ c = '\'' ∨ c.toNat < 32

instance : Decidable (Special c) :=
  inferInstanceAs (Decidable (c = '&' ∨ c = '<' ∨ c = '>' ∨ c = '"' ∨ c = '\'' ∨ c.toNat < 32))

theorem escape_plain (h : ¬ Special c) : escape c = [c] := by
  simp only [Special, not_or] at h
  obtain ⟨h1, h2, h3, h4, h5, h6⟩ := h
  simp only [escape, if_neg h1, if_neg h2, if_neg h3, if_neg h4, if_neg h5, if_neg h6]

theorem escape_special (h : Special c) : ∃ t, escape c = '&' :: t := by
  unfold escape
  split_ifs with h1 h2 h3 h4 h5 h6
  · exact ⟨_, rfl⟩
  · exact ⟨_, rfl⟩
  · exact ⟨_, rfl⟩
  · exact ⟨_, rfl⟩
  · exact ⟨_, rfl⟩
  · exact ⟨_, rfl⟩
  · simp only [Special, h1, h2, h3, h4, h5, h6, or_self] at h

theorem not_special_of_high (h : 0x80 ≤ c.toNat) : ¬ Special c := by
  rintro (rfl | rfl | rfl | rfl | rfl | hc)
  · revert h; decide
  · revert h; decide
  · revert h; decide
  · revert h; decide
  · revert h; decide
  · omega

theorem flatMap_escape_high (h : ∀ d ∈ cs, 0x80 ≤ d.toNat) : cs.flatMap escape = cs := by
  induction cs with
  | nil => rfl
  | cons c cs ih =>
    rw [List.flatMap_cons, escape_plain (not_special_of_high (h c List.mem_cons_self)),
      ih fun d hd => h d (List.mem_cons_of_mem c hd)]
    rfl

/-- A reference by name. -/
theorem getEntity_name {e : List Char × Char} (he : e ∈ entity) (r : List Char) :
    getEntity enc (e.1 ++ r) = ([e.2], some r) := by
  simp only [entity, List.mem_cons, List.not_mem_nil, or_false] at he
  rcases he with rfl | rfl | rfl | rfl | rfl
  · rfl
  · rfl
  · rfl
  · rfl
  · rfl

/-- The digits that are written for a control character. -/
def digits (n : ℕ) : List Char := [(Nat.digitChar (n / 16)).toUpper, (Nat.digitChar (n % 16)).toUpper]

theorem readNumber_digits : ∀ n < 32, readNumber 16 'x' hexDigit (digits n).reverse 1 0 = some n := by decide

theorem not_mem_digits : ∀ n < 32, ';' ∉ digits n := by decide

/-- A reference by number. -/
theorem getEntity_number {n : ℕ} (hn : n < 32) (r : List Char) :
    getEntity enc ("&#x".toList ++ (digits n ++ ';' :: r)) = ([Char.ofNat n], some r) := by
  have hne : ∀ d ∈ digits n, (decide (d ≠ ';')) = true := by
    intro d hd
    exact decide_eq_true fun he => not_mem_digits n hn (he ▸ hd)
  have htake : (digits n ++ ';' :: r).takeWhile (· ≠ ';') = digits n := by
    rw [List.takeWhile_append_of_pos hne, List.takeWhile_cons_of_neg (by simp), List.append_nil]
  have hdrop : (digits n ++ ';' :: r).dropWhile (· ≠ ';') = ';' :: r := by
    rw [List.dropWhile_append_of_pos hne, List.dropWhile_cons_of_neg (by simp)]
  have hmem : ';' ∈ digits n ++ ';' :: r := List.mem_append_right _ List.mem_cons_self
  change getNumber enc 16 'x' hexDigit (digits n ++ ';' :: r) = _
  rw [getNumber, if_pos hmem, htake, hdrop, readNumber_digits n hn]
  have h1 : convertUTF32ToUTF8 n = [Char.ofNat n] := if_pos (by omega)
  have h2 : n % 256 = n := Nat.mod_eq_of_lt (by omega)
  simp only [h1, h2, ite_self, List.drop_succ_cons, List.drop_zero]

theorem getEntity_escape (h : Special c) (r : List Char) : getEntity enc (escape c ++ r) = ([c], some r) := by
  unfold escape
  split_ifs with h1 h2 h3 h4 h5 h6
  · exact h1 ▸ getEntity_name (e := ("&amp;".toList, '&')) (by decide) r
  · exact h2 ▸ getEntity_name (e := ("&lt;".toList, '<')) (by decide) r
  · exact h3 ▸ getEntity_name (e := ("&gt;".toList, '>')) (by decide) r
  · exact h4 ▸ getEntity_name (e := ("&quot;".toList, '"')) (by decide) r
  · exact h5 ▸ getEntity_name (e := ("&apos;".toList, '\'')) (by decide) r
  · have hc : Char.ofNat c.toNat = c := Char.ofNat_toNat c
    rw [List.append_assoc]
    exact (getEntity_number h6 r).trans (by rw [hc])
  · simp only [Special, h1, h2, h3, h4, h5, h6, or_self] at h

theorem getChar_cons (enc : Encoding) (c : Char) (l : List Char) : getChar enc (c :: l) =
    if byteCount enc c = 1 then .ok (if c = '&' then getEntity enc (c :: l) else ([c], some l))
    else if (c :: l).length < byteCount enc c then .error .overrun
    else .ok ((c :: l).take (byteCount enc c), some ((c :: l).drop (byteCount enc c))) := rfl

/-- **One character** that was written is read back. -/
theorem getChar_escape (hb : byteCount enc c = cs.length + 1) (hcs : ∀ d ∈ cs, 0x80 ≤ d.toNat)
    (r : List Char) : getChar enc (escape c ++ (cs ++ r)) = .ok (c :: cs, some r) := by
  by_cases hs : Special c
  · -- a character that is not written as it is takes one byte
    have hone : byteCount enc c = 1 := by
      have hlow : c.toNat < 0xc2 := by
        rcases hs with rfl | rfl | rfl | rfl | rfl | hc
        · decide
        · decide
        · decide
        · decide
        · decide
        · omega
      simp only [byteCount, utf8ByteTable, if_pos hlow, ite_self]
    obtain rfl : cs = [] := List.length_eq_zero_iff.mp (by omega)
    have hamp : byteCount enc '&' = 1 := by
      unfold byteCount
      split_ifs <;> rfl
    have hent : getEntity enc (escape c ++ r) = ([c], some r) := getEntity_escape hs r
    obtain ⟨t, ht⟩ := escape_special hs
    rw [ht] at hent
    rw [ht, List.nil_append, List.cons_append, getChar_cons, if_pos hamp, if_pos rfl]
    exact congrArg Except.ok hent
  · have hamp : c ≠ '&' := fun hc => hs (.inl hc)
    rw [escape_plain hs, List.singleton_append, getChar_cons, if_neg hamp, hb]
    split_ifs with h1 h2
    · obtain rfl : cs = [] := List.length_eq_zero_iff.mp (by omega)
      rfl
    · simp only [List.length_cons, List.length_append] at h2
      omega
    · rw [List.take_succ_cons, List.take_left, List.drop_succ_cons, List.drop_left]

/-! ### Texts -/

/-- What a written text begins with. -/
theorem head_escape (c : Char) : ∃ d t, escape c = d :: t ∧ (d = '&' ∨ d = c ∧ ¬ Special c) := by
  by_cases hs : Special c
  · obtain ⟨t, ht⟩ := escape_special hs
    exact ⟨'&', t, ht, .inl rfl⟩
  · exact ⟨c, [], escape_plain hs, .inr ⟨rfl, hs⟩⟩

theorem flatMap_escape_first (hcs : ∀ d ∈ cs, 0x80 ≤ d.toNat) (s r : List Char) :
    (c :: (cs ++ s)).flatMap escape ++ r = escape c ++ (cs ++ (s.flatMap escape ++ r)) := by
  rw [List.flatMap_cons, List.flatMap_append, flatMap_escape_high hcs]
  simp only [List.append_assoc]

theorem stringEqual_singleton (q d : Char) (l : List Char) : stringEqual false [q] (d :: l) = (q == d) := by
  simp [stringEqual, List.isPrefixOf]

/-- The end tag is not in what is written. -/
theorem stringEqual_escape (hq : q = '<' ∨ q = '"' ∨ q = '\'') (r : List Char) :
    stringEqual false [q] (escape c ++ r) = false := by
  obtain ⟨d, t, ht, hd⟩ := head_escape c
  rw [ht, List.cons_append, stringEqual_singleton, beq_eq_false_iff_ne]
  rintro rfl
  rcases hd with rfl | ⟨rfl, hs⟩
  · revert hq; decide
  · rcases hq with rfl | rfl | rfl
    · exact hs (.inr (.inl rfl))
    · exact hs (.inr (.inr (.inr (.inl rfl))))
    · exact hs (.inr (.inr (.inr (.inr (.inl rfl)))))

/-- **A text in quotes** is read back as it was. -/
theorem readKept_escape (hq : q = '<' ∨ q = '"' ∨ q = '\'') (r : List Char) : ∀ (n : ℕ) {s : List Char},
    Whole enc s → s.length < n →
    readKept enc [q] n (some (s.flatMap escape ++ q :: r)) = .ok (s, some (q :: r))
  | 0, s, _, hn => absurd hn (Nat.not_lt_zero _)
  | n + 1, [], _, _ => by
    rw [List.flatMap_nil, List.nil_append, readKept, if_pos (by rw [stringEqual_singleton]; exact beq_self_eq_true q)]
  | n + 1, c :: s, hw, hn => by
    obtain ⟨cs, s', rfl, hb, hcs, hw'⟩ := hw.first
    have hlen : s'.length < n := by
      simp only [List.length_cons, List.length_append] at hn
      omega
    have hne := stringEqual_escape (c := c) hq (cs ++ (s'.flatMap escape ++ q :: r))
    have hget := getChar_escape hb hcs (s'.flatMap escape ++ q :: r)
    obtain ⟨d, t, ht, -⟩ := head_escape c
    rw [flatMap_escape_first hcs]
    rw [ht] at hne hget ⊢
    simp only [List.cons_append] at hne hget ⊢
    rw [readKept, if_neg (by rw [hne]; exact Bool.false_ne_true), hget]
    change (readKept enc [q] n _ >>= _) = _
    rw [readKept_escape hq r n hw' hlen]
    rfl

/-! ### White space -/

/-- Each run of blanks becomes one blank, in front of the character behind it. -/
def condense : Bool → List Char → List Char
  | _, [] => []
  | whitespace, c :: s =>
    if c = ' ' then condense true s else (if whitespace then [' '] else []) ++ c :: condense false s

/-- What a text is after it was written and read. -/
def readBack (s : List Char) : List Char := condense false (s.dropWhile (· = ' '))

theorem condense_high (h : ∀ d ∈ cs, 0x80 ≤ d.toNat) (s : List Char) :
    condense false (cs ++ s) = cs ++ condense false s := by
  induction cs with
  | nil => rfl
  | cons c cs ih =>
    have hc : c ≠ ' ' := by
      rintro rfl
      exact absurd (h ' ' List.mem_cons_self) (by decide)
    rw [List.cons_append, condense, if_neg hc, ih fun d hd => h d (List.mem_cons_of_mem c hd)]
    rfl

/-- The first character of what is written is white space just if it is a blank. -/
theorem isWhiteSpace_escape (c : Char) : ∃ d t, escape c = d :: t ∧ isWhiteSpace d = decide (c = ' ') := by
  obtain ⟨d, t, ht, hd⟩ := head_escape c
  refine ⟨d, t, ht, ?_⟩
  rcases hd with rfl | ⟨rfl, hs⟩
  · have hc : c ≠ ' ' := by
      rintro rfl
      rw [escape_plain (by decide)] at ht
      exact absurd (List.cons.inj ht).1 (by decide)
    rw [decide_eq_false hc]
    rfl
  · have h32 : ¬ d.toNat ≤ 13 := by
      intro hle
      exact hs (.inr (.inr (.inr (.inr (.inr (by omega))))))
    simp only [isWhiteSpace, h32, and_false, or_false]

theorem readCondensed_white (r : List Char) : ∀ (n : ℕ) (whitespace : Bool) {ws : List Char},
    (∀ d ∈ ws, isWhiteSpace d = true) → ws.length < n →
    readCondensed enc ['<'] n whitespace (some (ws ++ '<' :: r)) = .ok ([], some ('<' :: r))
  | 0, _, _, _, hn => absurd hn (Nat.not_lt_zero _)
  | _ + 1, _, [], _, _ => by rw [List.nil_append, readCondensed, if_pos (by rw [stringEqual_singleton]; rfl)]
  | n + 1, _, c :: ws, hws, hn => by
    have hc : isWhiteSpace c = true := hws c List.mem_cons_self
    have hne : c ≠ '<' := by
      rintro rfl
      exact absurd hc (by decide)
    rw [List.cons_append, readCondensed, if_neg (by rw [stringEqual_singleton]; simpa using hne.symm), if_pos hc]
    exact readCondensed_white r n true (fun d hd => hws d (List.mem_cons_of_mem c hd)) (Nat.lt_of_succ_lt_succ hn)

/-- **A text** is read back with its blanks condensed, and without the white space behind it. -/
theorem readCondensed_escape {ws : List Char} (hws : ∀ d ∈ ws, isWhiteSpace d = true) (r : List Char) :
    ∀ (n : ℕ) (whitespace : Bool) {s : List Char}, Whole enc s → s.length + ws.length < n →
    readCondensed enc ['<'] n whitespace (some (s.flatMap escape ++ (ws ++ '<' :: r))) =
      .ok (condense whitespace s, some ('<' :: r))
  | 0, _, s, _, hn => absurd hn (Nat.not_lt_zero _)
  | n + 1, whitespace, [], _, hn => by
    rw [List.flatMap_nil, List.nil_append]
    exact readCondensed_white r _ whitespace hws (by simpa using hn)
  | n + 1, whitespace, c :: s, hw, hn => by
    obtain ⟨cs, s', rfl, hb, hcs, hw'⟩ := hw.first
    have hlen : s'.length + ws.length < n := by
      simp only [List.length_cons, List.length_append] at hn
      omega
    have hne := stringEqual_escape (c := c) (.inl rfl) (cs ++ (s'.flatMap escape ++ (ws ++ '<' :: r)))
    have hget := getChar_escape hb hcs (s'.flatMap escape ++ (ws ++ '<' :: r))
    obtain ⟨d, t, ht, hd⟩ := isWhiteSpace_escape c
    rw [flatMap_escape_first hcs]
    by_cases hc : c = ' '
    · -- a blank takes one byte and is written as it is
      subst hc
      have hone : byteCount enc ' ' = 1 := by
        unfold byteCount
        split_ifs <;> rfl
      obtain rfl : cs = [] := List.length_eq_zero_iff.mp (by omega)
      rw [escape_plain (by decide), List.singleton_append] at hne ⊢
      rw [readCondensed, if_neg (by rw [hne]; exact Bool.false_ne_true), if_pos (by decide)]
      exact readCondensed_escape hws r n true hw' hlen
    · rw [ht] at hne hget ⊢
      simp only [List.cons_append] at hne hget ⊢
      rw [readCondensed, if_neg (by rw [hne]; exact Bool.false_ne_true),
        if_neg (by rw [hd, decide_eq_false hc]; exact Bool.false_ne_true), hget]
      change (readCondensed enc ['<'] n false _ >>= _) = _
      rw [readCondensed_escape hws r n false hw' hlen, condense, if_neg hc, condense_high hcs]
      simp only [bind, Except.bind, List.append_assoc, List.cons_append]

theorem skip_white (h : isWhiteSpace c = true) (l : List Char) : skip enc (c :: l) = skip enc l := by
  have hm : ∀ a b, isMark c a b = false := by
    intro a b
    have hc : ¬ c.toNat = 0xef := by
      simp only [isWhiteSpace, decide_eq_true_eq] at h
      rcases h with rfl | h
      · decide
      · omega
    simp only [isMark, hc, false_and, decide_false]
  rcases l with _ | ⟨a, _ | ⟨b, l⟩⟩
  · simp only [skip, h, if_true]
  · simp only [skip, h, if_true]
  · simp only [skip, h, hm, if_true, Bool.false_eq_true, and_false, if_false]

/-- The text does not begin with a lead mark. -/
def Unmarked (enc : Encoding) : List Char → Prop
  | a :: b :: c :: _ => enc = .utf8 → isMark a b c = false
  | _ => True

instance : Decidable (Unmarked enc s) :=
  match s with
  | [] => .isTrue trivial
  | [_] => .isTrue trivial
  | [_, _] => .isTrue trivial
  | a :: b :: c :: _ => inferInstanceAs (Decidable (enc = .utf8 → isMark a b c = false))

theorem skip_stop (h : isWhiteSpace c = false) (hm : Unmarked enc (c :: l)) : skip enc (c :: l) = c :: l := by
  rcases l with _ | ⟨a, _ | ⟨b, l⟩⟩
  · simp only [skip, h, Bool.false_eq_true, if_false]
  · simp only [skip, h, Bool.false_eq_true, if_false]
  · have hneg : ¬ (enc = .utf8 ∧ isMark c a b = true) := by
      rintro ⟨he, hmark⟩
      rw [hm he] at hmark
      exact Bool.false_ne_true hmark
    rw [skip, if_neg hneg, if_neg (by rw [h]; exact Bool.false_ne_true)]

theorem unmarked_of_head (h : c.toNat ≠ 0xef ∨ enc ≠ .utf8) (l : List Char) : Unmarked enc (c :: l) := by
  rcases l with _ | ⟨a, _ | ⟨b, l⟩⟩
  · trivial
  · trivial
  · intro he
    have hne := h.resolve_right (not_not.mpr he)
    simp only [isMark, hne, false_and, decide_false]

/-- The lead byte of a mark has two bytes behind it. -/
theorem Whole.three (h : Whole enc (c :: s)) (hc : c.toNat = 0xef) (he : enc = .utf8) :
    ∃ a b s', s = a :: b :: s' ∧ 0x80 ≤ a.toNat ∧ 0x80 ≤ b.toNat := by
  obtain ⟨cs, s', rfl, hb, hcs, -⟩ := h.first
  have hthree : byteCount enc c = 3 := by
    simp only [byteCount, utf8ByteTable, hc, if_pos he]
    decide
  have hlen : cs.length = 2 := by omega
  obtain ⟨a, b, rfl⟩ := List.length_eq_two.mp hlen
  exact ⟨a, b, s', rfl, hcs a (by simp), hcs b (by simp)⟩

/-- A written text begins with a lead mark only if the text does. -/
theorem unmarked_escape (hw : Whole enc (c :: s)) (hm : Unmarked enc (c :: s)) (r : List Char) :
    Unmarked enc ((c :: s).flatMap escape ++ r) := by
  by_cases hc : c.toNat = 0xef ∧ enc = .utf8
  · obtain ⟨a, b, s, rfl, ha, hb⟩ := hw.three hc.1 hc.2
    have hlow : 0x80 ≤ c.toNat := by omega
    rw [List.flatMap_cons, List.flatMap_cons, List.flatMap_cons, escape_plain (not_special_of_high hlow),
      escape_plain (not_special_of_high ha), escape_plain (not_special_of_high hb)]
    exact hm
  · obtain ⟨d, t, ht, hd⟩ := head_escape c
    rw [List.flatMap_cons, ht]
    refine unmarked_of_head ?_ _
    rcases hd with rfl | ⟨rfl, -⟩
    · exact .inl (by decide)
    · exact not_and_or.mp hc

theorem whole_dropWhile (hw : Whole enc s) : Whole enc (s.dropWhile (· = ' ')) := by
  induction s with
  | nil => exact hw
  | cons c s ih =>
    by_cases hc : c = ' '
    · subst hc
      obtain ⟨cs, s', rfl, hb, -, hw'⟩ := hw.first
      have hone : byteCount enc ' ' = 1 := by
        unfold byteCount
        split_ifs <;> rfl
      obtain rfl : cs = [] := List.length_eq_zero_iff.mp (by omega)
      rw [List.dropWhile_cons_of_pos (by decide)]
      exact ih hw'
    · rwa [List.dropWhile_cons_of_neg (by simpa using hc)]

theorem skip_append {ws : List Char} (hws : ∀ d ∈ ws, isWhiteSpace d = true) (l : List Char) :
    skip enc (ws ++ l) = skip enc l := by
  induction ws with
  | nil => rfl
  | cons c ws ih =>
    rw [List.cons_append, skip_white (hws c List.mem_cons_self)]
    exact ih fun d hd => hws d (List.mem_cons_of_mem c hd)

theorem skip_bracket (enc : Encoding) (l : List Char) : skip enc ('<' :: l) = '<' :: l := by
  refine skip_stop (by decide) ?_
  rcases l with _ | ⟨a, _ | ⟨b, l⟩⟩
  · trivial
  · trivial
  · exact fun _ => by simp [isMark]

/-- The blanks in front of a text are skipped. -/
theorem skip_escape (hw : Whole enc s) (hm : Unmarked enc (s.dropWhile (· = ' '))) (t : List Char)
    (ht : s.dropWhile (· = ' ') ≠ []) :
    skip enc (s.flatMap escape ++ t) = (s.dropWhile (· = ' ')).flatMap escape ++ t := by
  induction s with
  | nil => exact absurd rfl ht
  | cons c s ih =>
    by_cases hc : c = ' '
    · subst hc
      obtain ⟨cs, s', rfl, hb, -, hw'⟩ := hw.first
      have hone : byteCount enc ' ' = 1 := by
        unfold byteCount
        split_ifs <;> rfl
      obtain rfl : cs = [] := List.length_eq_zero_iff.mp (by omega)
      rw [List.dropWhile_cons_of_pos (by decide)] at hm ht ⊢
      rw [List.flatMap_cons, escape_plain (by decide), List.append_assoc, List.singleton_append,
        skip_white (by decide)]
      exact ih hw' hm ht
    · rw [List.dropWhile_cons_of_neg (by simpa using hc)] at hm ⊢
      have hmark := unmarked_escape hw hm t
      obtain ⟨d, t', ht', hws⟩ := isWhiteSpace_escape c
      rw [List.flatMap_cons, ht'] at hmark ⊢
      exact skip_stop (by rw [hws, decide_eq_false hc]) hmark

theorem length_le_escape (s : List Char) : s.length ≤ (s.flatMap escape).length := by
  induction s with
  | nil => exact le_rfl
  | cons c s ih =>
    obtain ⟨d, t, ht, -⟩ := head_escape c
    rw [List.flatMap_cons, ht, List.length_append, List.length_cons, List.length_cons]
    omega

theorem skipWhiteSpace_some (h : l ≠ []) : skipWhiteSpace enc (some l) = some (skip enc l) := by
  cases l with
  | nil => exact absurd rfl h
  | cons c l => rfl

/-- **An attribute value** is read back as it was. -/
theorem readText_attribute (hw : Whole enc s) (hq : q = '<' ∨ q = '"' ∨ q = '\'') (d : Char) (r : List Char) :
    readText enc false [q] (some (s.flatMap escape ++ q :: d :: r)) = .ok (s, some (d :: r)) := by
  have hlen : s.length < left (some (s.flatMap escape ++ q :: d :: r)) + 1 := by
    have hle := length_le_escape s
    simp only [left, Option.map_some, Option.getD_some, List.length_append]
    omega
  unfold readText
  simp only [Bool.false_eq_true, if_false, readKept_escape hq (d :: r) _ hw hlen]
  rfl

/-- **A text** is read back with its blanks condensed, from its first character that is no blank. -/
theorem readText_text {ws : List Char} (hw : Whole enc s) (hm : Unmarked enc (s.dropWhile (· = ' ')))
    (hws : ∀ d ∈ ws, isWhiteSpace d = true) (hs : s.dropWhile (· = ' ') ≠ []) (d : Char) (r : List Char) :
    readText enc true ['<'] (some ((s.dropWhile (· = ' ')).flatMap escape ++ (ws ++ '<' :: d :: r))) =
      .ok (readBack s, some (d :: r)) := by
  have hidem : (s.dropWhile (· = ' ')).dropWhile (· = ' ') = s.dropWhile (· = ' ') := List.dropWhile_idempotent _ s
  have hw' := whole_dropWhile hw
  have hskip : skipWhiteSpace enc (some ((s.dropWhile (· = ' ')).flatMap escape ++ (ws ++ '<' :: d :: r))) =
      some ((s.dropWhile (· = ' ')).flatMap escape ++ (ws ++ '<' :: d :: r)) := by
    rw [skipWhiteSpace_some (by simp), skip_escape hw' (by rwa [hidem]) _ (by rwa [hidem]), hidem]
  have hlen : (s.dropWhile (· = ' ')).length + ws.length <
      left (some ((s.dropWhile (· = ' ')).flatMap escape ++ (ws ++ '<' :: d :: r))) + 1 := by
    have hle := length_le_escape (s.dropWhile (· = ' '))
    simp only [left, Option.map_some, Option.getD_some, List.length_append, List.length_cons]
    omega
  unfold readText
  simp only [if_true, hskip, readCondensed_escape hws (d :: r) _ false hw' hlen]
  rfl

/-! ### References that are passed through -/

/-- What a reference by number begins with. -/
def numberRef : List Char := "&#x".toList

/-- Nothing in the text looks like a reference by number. -/
def Unreferring (s : List Char) : Prop := ¬ numberRef <:+: s

instance : Decidable (Unreferring s) := inferInstanceAs (Decidable (¬ numberRef <:+: s))

theorem Unreferring.tail (h : Unreferring (c :: s)) : Unreferring s :=
  fun hs => h (hs.trans (List.suffix_cons c s).isInfix)

theorem encodeFrom_eq (h : Unreferring s) : encodeFrom false s = s.flatMap escape := by
  induction s with
  | nil => rfl
  | cons c s ih =>
    have hp : numberRef.isPrefixOf (c :: s) = false := by
      by_contra hp
      have hp : numberRef.isPrefixOf (c :: s) = true := by simpa using hp
      exact h (List.isPrefixOf_iff_prefix.mp hp).isInfix
    change (if (false = true ∨ numberRef.isPrefixOf (c :: s) = true) ∧ s ≠ [] then _ else _) = _
    rw [if_neg (by rw [hp]; rintro ⟨hx | hx, -⟩ <;> exact Bool.false_ne_true hx), ih h.tail]
    rfl

/-- A text without such references is written character by character. -/
theorem encodeString_eq (h : Unreferring s) : encodeString s = s.flatMap escape := encodeFrom_eq h

/-- A quote or a bracket. -/
def Delimiter (q : Char) : Prop := q = '<' ∨ q = '>' ∨ q = '"' ∨ q = '\''

theorem Delimiter.ne (hq : Delimiter q) : q ≠ '&' ∧ q ≠ '#' ∧ q ≠ 'x' ∧ q ≠ ';' := by
  rcases hq with rfl | rfl | rfl | rfl <;> decide

theorem not_mem_escape (hq : Delimiter q) (c : Char) : q ∉ escape c := by
  unfold escape
  split_ifs with h1 h2 h3 h4 h5 h6
  · rcases hq with rfl | rfl | rfl | rfl <;> decide
  · rcases hq with rfl | rfl | rfl | rfl <;> decide
  · rcases hq with rfl | rfl | rfl | rfl <;> decide
  · rcases hq with rfl | rfl | rfl | rfl <;> decide
  · rcases hq with rfl | rfl | rfl | rfl <;> decide
  · have hdig : ∀ n < 32, ∀ x ∈ digits n, x ∉ ['<', '>', '"', '\''] := by decide
    intro hm
    rcases List.mem_append.mp hm with hm | hm
    · rcases hq with rfl | rfl | rfl | rfl <;> revert hm <;> decide
    · have hm' : q ∈ digits c.toNat ++ [';'] := hm
      rcases List.mem_append.mp hm' with hm' | hm'
      · refine hdig _ h6 q hm' ?_
        rcases hq with rfl | rfl | rfl | rfl <;> decide
      · rcases hq with rfl | rfl | rfl | rfl <;> revert hm' <;> decide
  · rw [List.mem_singleton]
    rintro rfl
    rcases hq with hq | hq | hq | hq
    · exact h2 hq
    · exact h3 hq
    · exact h4 hq
    · exact h5 hq

/-- The character `q` is in the text, behind something that looks like a reference by number and is not
closed before it, and is not the last. -/
def Leaks (q : Char) (s : List Char) : Prop :=
  ∃ a b r, s = a ++ numberRef ++ b ++ q :: r ∧ ';' ∉ b ∧ r ≠ []

/-- The same, where the reference has begun in front of the text. -/
def LeaksRaw (q : Char) (s : List Char) : Prop := ∃ b r, s = b ++ q :: r ∧ ';' ∉ b ∧ r ≠ []

theorem Leaks.cons (h : Leaks q s) (c : Char) : Leaks q (c :: s) := by
  obtain ⟨a, b, r, rfl, hb, hr⟩ := h
  exact ⟨c :: a, b, r, rfl, hb, hr⟩

theorem leaks_cons (h : Leaks q (c :: s)) :
    Leaks q s ∨ ∃ b r, c :: s = numberRef ++ b ++ q :: r ∧ ';' ∉ b ∧ r ≠ [] := by
  obtain ⟨a, b, r, hs, hb, hr⟩ := h
  cases a with
  | nil => exact .inr ⟨b, r, hs, hb, hr⟩
  | cons x a =>
    obtain ⟨-, rfl⟩ := List.cons.inj hs
    exact .inl ⟨a, b, r, by simp, hb, hr⟩

/-- The step of the printer that passes a character through. -/
theorem encodeFrom_raw {raw : Bool} (h : (raw = true ∨ numberRef.isPrefixOf (c :: s) = true) ∧ s ≠ []) :
    encodeFrom raw (c :: s) = c :: encodeFrom (s.head? ≠ some ';') s := by
  change (if (raw = true ∨ numberRef.isPrefixOf (c :: s) = true) ∧ s ≠ [] then _ else _) = _
  rw [if_pos h]

theorem encodeFrom_escape {raw : Bool} (h : ¬ ((raw = true ∨ numberRef.isPrefixOf (c :: s) = true) ∧ s ≠ [])) :
    encodeFrom raw (c :: s) = escape c ++ encodeFrom false s := by
  change (if (raw = true ∨ numberRef.isPrefixOf (c :: s) = true) ∧ s ≠ [] then _ else _) = _
  rw [if_neg h]

/-- What stands behind the first character of a reference. -/
theorem leaksRaw_of_ref (hq : Delimiter q) (hp : numberRef.isPrefixOf (c :: s) = true) (h : LeaksRaw q s) :
    Leaks q (c :: s) := by
  obtain ⟨l, hl⟩ := List.isPrefixOf_iff_prefix.mp hp
  obtain ⟨rfl, rfl⟩ : c = '&' ∧ s = '#' :: 'x' :: l := by
    obtain ⟨h1, h2⟩ := List.cons.inj hl
    exact ⟨h1.symm, h2.symm⟩
  obtain ⟨-, hx, hy, -⟩ := hq.ne
  obtain ⟨b, r, hs, hb, hr⟩ := h
  match b, hs, hb with
  | [], hs, _ => exact absurd (List.cons.inj hs).1.symm hx
  | [_], hs, _ => exact absurd (List.cons.inj (List.cons.inj hs).2).1.symm hy
  | u :: v :: b, hs, hb =>
    obtain rfl := (List.cons.inj (List.cons.inj hs).2).2
    exact ⟨[], b, r, rfl, fun hm => hb (List.mem_cons_of_mem u (List.mem_cons_of_mem v hm)), hr⟩

/-- What stands in a text that begins with a reference. -/
theorem leaksRaw_tail {b : List Char} (hb : ';' ∉ b) (hr : r ≠ []) (h : c :: s = numberRef ++ b ++ q :: r) :
    numberRef.isPrefixOf (c :: s) = true ∧ s.head? ≠ some ';' ∧ LeaksRaw q s := by
  obtain ⟨rfl, rfl⟩ : c = '&' ∧ s = '#' :: 'x' :: (b ++ q :: r) := List.cons.inj h
  refine ⟨by simp [numberRef], by simp, '#' :: 'x' :: b, r, rfl, ?_, hr⟩
  intro hm
  rcases List.mem_cons.mp hm with hm | hm
  · exact absurd hm (by decide)
  · rcases List.mem_cons.mp hm with hm | hm
    · exact absurd hm (by decide)
    · exact hb hm

theorem mem_encodeFrom (hq : Delimiter q) : ∀ {s : List Char} {raw : Bool}, (raw = true → s.head? ≠ some ';') →
    (q ∈ encodeFrom raw s ↔ raw = true ∧ LeaksRaw q s ∨ Leaks q s)
  | [], raw, _ => by
    simp [encodeFrom, LeaksRaw, Leaks, numberRef]
  | c :: s, raw, hraw => by
    have hsemi : q ≠ ';' := hq.ne.2.2.2
    by_cases hcond : (raw = true ∨ numberRef.isPrefixOf (c :: s) = true) ∧ s ≠ []
    · rw [encodeFrom_raw hcond, List.mem_cons, mem_encodeFrom hq (fun h => by simpa using h)]
      constructor
      · rintro (rfl | ⟨-, hs⟩ | hs)
        · rcases hcond.1 with hr | hp
          · exact .inl ⟨hr, [], s, rfl, List.not_mem_nil, hcond.2⟩
          · obtain ⟨l, hl⟩ := List.isPrefixOf_iff_prefix.mp hp
            exact absurd (List.cons.inj hl).1.symm hq.ne.1
        · rcases hcond.1 with hr | hp
          · obtain ⟨b, r, rfl, hb, hne⟩ := hs
            refine .inl ⟨hr, c :: b, r, rfl, fun hm => ?_, hne⟩
            rcases List.mem_cons.mp hm with rfl | hm
            · exact hraw hr rfl
            · exact hb hm
          · exact .inr (leaksRaw_of_ref hq hp hs)
        · exact .inr (hs.cons c)
      · rintro (⟨hr, b, r, hs, hb, hne⟩ | hs)
        · cases b with
          | nil => exact .inl (List.cons.inj hs).1.symm
          | cons x b =>
            obtain ⟨-, rfl⟩ := List.cons.inj hs
            have hb' : ';' ∉ b := fun hm => hb (List.mem_cons_of_mem x hm)
            refine .inr (.inl ⟨?_, b, r, rfl, hb', hne⟩)
            cases b with
            | nil => simpa using hsemi
            | cons y b =>
              refine decide_eq_true fun hy => hb' ?_
              obtain rfl : y = ';' := Option.some.inj hy
              exact List.mem_cons_self
        · rcases leaks_cons hs with hs | ⟨b, r, hs, hb, hne⟩
          · exact .inr (.inr hs)
          · obtain ⟨-, hhead, hl⟩ := leaksRaw_tail hb hne hs
            exact .inr (.inl ⟨by simpa using hhead, hl⟩)
    · rw [encodeFrom_escape hcond, List.mem_append, or_iff_right (not_mem_escape hq c),
        mem_encodeFrom hq (fun h => absurd h Bool.false_ne_true)]
      constructor
      · rintro (⟨h, -⟩ | hs)
        · cases h
        · exact .inr (hs.cons c)
      · rintro (⟨hr, b, r, hs, -, hne⟩ | hs)
        · refine absurd ⟨.inl hr, ?_⟩ hcond
          rintro rfl
          cases b with
          | nil => exact hne (List.cons.inj hs).2.symm
          | cons x b => simp at hs
        · rcases leaks_cons hs with hs | ⟨b, r, hs, hb, hne⟩
          · exact .inr hs
          · obtain ⟨hp, -, b', r', hs', -, -⟩ := leaksRaw_tail hb hne hs
            refine absurd ⟨.inr hp, ?_⟩ hcond
            rw [hs']
            simp

/-- **What gets out of a text**: a quote or a bracket is written as it is just when it stands behind something
that looks like a reference by number and is not closed before it, and is not the last character. -/
theorem leaks_iff (hq : Delimiter q) (s : List Char) : q ∈ encodeString s ↔ Leaks q s := by
  rw [encodeString, mem_encodeFrom hq fun h => absurd h Bool.false_ne_true]
  exact or_iff_right fun h => Bool.false_ne_true h.1

/-- A text that closes its element. -/
theorem leaks_close : '<' ∈ encodeString "&#x</Name>".toList :=
  (leaks_iff (.inl rfl) _).mpr ⟨[], [], "/Name>".toList, by decide, by decide, by decide⟩

end StNvs.Xml.Texts
