import StNvs.Xml.RoundTrip

/-! # The second round trip

What a document is after it was printed and parsed is printable again, and printing and parsing it once more
changes nothing: blanks that are condensed stay as they are, and condensing them makes no character, no
reference by number and no lead mark that was not there.

* `parse_print_settle`: the second round trip changes nothing. -/

namespace StNvs.Xml.Stable

open StNvs.Xml.Chars StNvs.Xml.Texts StNvs.Xml.Nodes StNvs.Xml.Bounds StNvs.Xml.RoundTrip

variable {enc : Encoding} {c : Char} {s cs r : List Char}

/-! ### Blanks -/

theorem condense_blank (w : Bool) (s : List Char) : condense w (' ' :: s) = condense true s := by
  rw [condense, if_pos rfl]

theorem condense_cons (hc : c ≠ ' ') (s : List Char) : condense false (c :: s) = c :: condense false s := by
  rw [condense, if_neg hc]
  rfl

theorem condense_gap (hc : c ≠ ' ') (s : List Char) : condense true (c :: s) = ' ' :: condense false (c :: s) := by
  rw [condense_cons hc, condense, if_neg hc]
  rfl

theorem condense_true (s : List Char) : condense true s = [] ∨ ∃ t, condense true s = ' ' :: t := by
  induction s with
  | nil => exact .inl rfl
  | cons c s ih =>
    by_cases hc : c = ' '
    · subst hc
      rwa [condense_blank]
    · exact .inr ⟨_, condense_gap hc s⟩

theorem condense_condense : ∀ (w : Bool) (s : List Char), condense false (condense w s) = condense w s
  | _, [] => rfl
  | w, c :: s => by
    by_cases hc : c = ' '
    · subst hc
      rw [condense_blank]
      exact condense_condense true s
    · have ih := condense_condense false s
      cases w with
      | false => rw [condense_cons hc, condense_cons hc, ih]
      | true => rw [condense_gap hc, condense_cons hc, condense_blank, condense_gap hc, condense_cons hc, ih]

theorem dropWhile_cases (s : List Char) :
    s.dropWhile (· = ' ') = [] ∨ ∃ c t, s.dropWhile (· = ' ') = c :: t ∧ c ≠ ' ' := by
  cases h : s.dropWhile (· = ' ') with
  | nil => exact .inl rfl
  | cons c t =>
    have hhead := List.head_dropWhile_not (· = ' ') (l := s) (by rw [h]; exact List.cons_ne_nil _ _)
    exact .inr ⟨c, t, rfl, by simpa [h] using hhead⟩

theorem dropWhile_readBack (s : List Char) : (readBack s).dropWhile (· = ' ') = readBack s := by
  unfold readBack
  rcases dropWhile_cases s with h | ⟨c, t, h, hc⟩
  · rw [h]
    rfl
  · rw [h, condense_cons hc]
    exact List.dropWhile_cons_of_neg (by simpa using hc)

/-- Condensed blanks stay as they are. -/
theorem readBack_readBack (s : List Char) : readBack (readBack s) = readBack s := by
  rw [readBack, dropWhile_readBack, readBack, condense_condense]

/-- A text without a blank that begins a condensed text began the text. -/
theorem prefix_of_condense {t : List Char} (ht : ' ' ∉ t) : ∀ {s : List Char}, t <+: condense false s → t <+: s := by
  induction t with
  | nil => exact fun _ => List.nil_prefix
  | cons a t ih =>
    intro s h
    have ha : a ≠ ' ' := fun he => ht (he ▸ List.mem_cons_self)
    have ht' : ' ' ∉ t := fun hm => ht (List.mem_cons_of_mem a hm)
    cases s with
    | nil => exact h
    | cons c s =>
      by_cases hc : c = ' '
      · -- what is condensed begins with a blank, or is empty
        subst hc
        rw [condense_blank] at h
        rcases condense_true s with h0 | ⟨x, h0⟩
        · rw [h0] at h
          exact absurd (List.prefix_nil.mp h) (List.cons_ne_nil a t)
        · rw [h0] at h
          exact absurd (List.cons_prefix_cons.mp h).1 ha
      · rw [condense_cons hc] at h
        obtain ⟨rfl, hs⟩ := List.cons_prefix_cons.mp h
        exact List.cons_prefix_cons.mpr ⟨rfl, ih ht' hs⟩

theorem infix_of_condense {a : Char} {t : List Char} (ht : ' ' ∉ a :: t) : ∀ (s : List Char) (w : Bool),
    a :: t <:+: condense w s → a :: t <:+: s
  | [], _, h => h
  | c :: s, w, h => by
    by_cases hc : c = ' '
    · subst hc
      rw [condense_blank] at h
      exact (infix_of_condense ht s true h).trans (List.suffix_cons ' ' s).isInfix
    · have hcons : a :: t <:+: condense false (c :: s) → a :: t <:+: c :: s := by
        intro h
        rw [condense_cons hc] at h
        rcases List.infix_cons_iff.mp h with h | h
        · exact (prefix_of_condense ht (by rwa [condense_cons hc])).isInfix
        · exact (infix_of_condense ht s false h).trans (List.suffix_cons c s).isInfix
      cases w with
      | false => exact hcons h
      | true =>
        rw [condense_gap hc] at h
        rcases List.infix_cons_iff.mp h with h | h
        · exact absurd ((List.cons_prefix_cons.mp h).1 ▸ List.mem_cons_self) ht
        · exact hcons h

theorem unreferring_readBack (h : Unreferring s) : Unreferring (readBack s) := by
  intro hi
  have hs : numberRef <:+: s.dropWhile (· = ' ') := infix_of_condense (by decide) _ false hi
  exact h (hs.trans (List.dropWhile_suffix _).isInfix)

theorem whole_append (hcs : ∀ d ∈ cs, 0x80 ≤ d.toNat) (hr : whole 0 r = true) : whole cs.length (cs ++ r) = true := by
  induction cs with
  | nil => exact hr
  | cons d cs ih =>
    have hd := hcs d List.mem_cons_self
    have ih := ih fun x hx => hcs x (List.mem_cons_of_mem d hx)
    simp only [List.length_cons, List.cons_append, whole, hd, ih, and_self, decide_true]

theorem whole_cons (hb : byteCount enc c = cs.length + 1) (hcs : ∀ d ∈ cs, 0x80 ≤ d.toNat) (hr : Whole enc r) :
    Whole enc (c :: (cs ++ r)) := by
  intro he
  rw [byteCount, if_pos he] at hb
  rw [whole, hb]
  exact whole_append hcs (hr he)

theorem byteCount_blank (enc : Encoding) : byteCount enc ' ' = 1 := by
  unfold byteCount
  split_ifs <;> rfl

theorem whole_condense (n : ℕ) : ∀ (s : List Char) (w : Bool), s.length ≤ n → Whole enc s →
    Whole enc (condense w s) := by
  induction n with
  | zero =>
    intro s w hn h
    rwa [List.length_eq_zero_iff.mp (Nat.le_zero.mp hn)] at h ⊢
  | succ n ih =>
    intro s w hn h
    cases s with
    | nil => exact h
    | cons c s =>
      obtain ⟨cs, s', rfl, hb, hcs, hw'⟩ := h.first
      have hlen : s'.length ≤ n := by
        simp only [List.length_cons, List.length_append] at hn
        omega
      by_cases hc : c = ' '
      · subst hc
        rw [byteCount_blank] at hb
        obtain rfl : cs = [] := List.length_eq_zero_iff.mp (by omega)
        rw [condense_blank]
        exact ih s' true hlen hw'
      · have hfalse : Whole enc (condense false (c :: (cs ++ s'))) := by
          rw [condense_cons hc, condense_high hcs]
          exact whole_cons hb hcs (ih s' false hlen hw')
        cases w with
        | false => exact hfalse
        | true =>
          rw [condense_gap hc]
          have hnone : ∀ d ∈ ([] : List Char), 0x80 ≤ d.toNat := fun _ hd => absurd hd List.not_mem_nil
          exact whole_cons (byteCount_blank enc) hnone hfalse

theorem unmarked_readBack (hw : Whole enc s) (hm : Unmarked enc (s.dropWhile (· = ' '))) :
    Unmarked enc (readBack s) := by
  have hw' := whole_dropWhile hw
  unfold readBack
  rcases dropWhile_cases s with h | ⟨c, t, h, hc⟩
  · rw [h]
    trivial
  · rw [h] at hw' hm ⊢
    by_cases hmark : c.toNat = 0xef ∧ enc = .utf8
    · obtain ⟨a, b, t, rfl, ha, hb⟩ := hw'.three hmark.1 hmark.2
      have hhigh : ∀ d ∈ [a, b], 0x80 ≤ d.toNat := by
        simp only [List.forall_mem_cons]
        exact ⟨ha, hb, fun _ hd => absurd hd List.not_mem_nil⟩
      rw [condense_cons hc]
      exact (condense_high hhigh t).symm ▸ hm
    · rw [condense_cons hc]
      exact unmarked_of_head (not_and_or.mp hmark) _

theorem printable_readBack (h : Printable enc (.text false s)) : Printable enc (.text false (readBack s)) := by
  obtain ⟨⟨hw, hu⟩, hm⟩ := h
  refine ⟨⟨whole_condense _ _ false le_rfl (whole_dropWhile hw), unreferring_readBack hu⟩, ?_⟩
  rw [dropWhile_readBack]
  exact unmarked_readBack hw hm

/-! ### Nodes -/

theorem isText_settle (x : XmlNode) : isText (settle x) = isText x := by
  cases x with
  | text cdata s => cases cdata <;> rfl
  | _ => rfl

theorem gone_settle (x : XmlNode) : gone (settle x) = gone x := by
  cases x with
  | text cdata s =>
    cases cdata with
    | true => rfl
    | false => exact congrArg blank (readBack_readBack s)
  | _ => rfl

/-- The nodes in front of which no text stood have none in front of them. -/
theorem head_settleAll {xs : List XmlNode} (h : xs.head?.any isText = false) :
    (settleAll xs).head?.any isText = false := by
  cases xs with
  | nil => rfl
  | cons x xs =>
    have hx : isText x = false := h
    rw [settleAll, gone_of_not_text hx]
    exact (isText_settle x).trans hx

mutual

/-- What is read back is printable, and does not change any more. -/
theorem settle_stable (enc : Encoding) : ∀ x, Printable enc x → Printable enc (settle x) ∧ settle (settle x) = settle x
  | .element value as xs, h => by
    obtain ⟨hxs, heq⟩ := settleAll_stable enc xs h.2.2
    rw [settle]
    exact ⟨⟨h.1, h.2.1, hxs⟩, by rw [settle, heq]⟩
  | .text false s, h => ⟨printable_readBack h, congrArg (XmlNode.text false) (readBack_readBack s)⟩
  | .text true _, h => ⟨h, rfl⟩
  | .declaration _ _ _, h => ⟨h, rfl⟩
  | .comment _, h => ⟨h, rfl⟩
  | .unknown _, h => ⟨h, rfl⟩

theorem settleAll_stable (enc : Encoding) : ∀ xs, PrintableAll enc xs →
    PrintableAll enc (settleAll xs) ∧ settleAll (settleAll xs) = settleAll xs
  | [], _ => ⟨trivial, rfl⟩
  | x :: xs, h => by
    obtain ⟨hx, hxeq⟩ := settle_stable enc x h.1
    obtain ⟨hxs, hxseq⟩ := settleAll_stable enc xs h.2.2
    rw [settleAll]
    cases hg : gone x with
    | true => exact ⟨hxs, hxseq⟩
    | false =>
      refine ⟨⟨hx, fun ht => head_settleAll (h.2.1 (isText_settle x ▸ ht)), hxs⟩, ?_⟩
      change settleAll (settle x :: settleAll xs) = settle x :: settleAll xs
      rw [settleAll, gone_settle, hg, hxeq, hxseq]
      rfl

end

theorem printableDocument_settle : ∀ (enc : Encoding) (xs : List XmlNode), PrintableDocument enc xs →
    PrintableDocument enc (settleAll xs) ∧ settleAll (settleAll xs) = settleAll xs
  | _, [], _ => ⟨trivial, rfl⟩
  | enc, x :: xs, h => by
    obtain ⟨hx, hxeq⟩ := settle_stable enc x h.1
    obtain ⟨hxs, hxseq⟩ := printableDocument_settle (nextEncoding enc x) xs h.2.2
    have hg := gone_of_not_text h.2.1
    have hcons : settleAll (x :: xs) = settle x :: settleAll xs := by
      rw [settleAll, hg]
      rfl
    rw [hcons]
    refine ⟨⟨hx, (isText_settle x).trans h.2.1, by rwa [nextEncoding_settle]⟩, ?_⟩
    rw [settleAll, gone_settle, hg, hxeq, hxseq]
    rfl

/-- **The second round trip** changes nothing. -/
theorem parse_print_settle {document : List XmlNode} (hne : document ≠ []) (hp : PrintableDocument .unknown document) :
    parse (print (settleAll document)) = .ok (settleAll document, some [], none) := by
  obtain ⟨hsettle, heq⟩ := printableDocument_settle .unknown document hp
  have hne' : settleAll document ≠ [] := by
    obtain ⟨x, xs, rfl⟩ := List.exists_cons_of_ne_nil hne
    rw [settleAll, gone_of_not_text hp.2.1]
    exact List.cons_ne_nil _ _
  have hparse := parse_pretty hne' hsettle
  rwa [heq, ← print_eq] at hparse

/-- A text with spare blanks, and one of blanks. -/
theorem parse_print_settle_texts :
    parse (print (settleAll [.element "a".toList [] [.text false " x  y ".toList, .element "b".toList []
      [.text false "  ".toList]]])) = .ok (settleAll [.element "a".toList [] [.text false " x  y ".toList,
        .element "b".toList [] [.text false "  ".toList]]], some [], none) :=
  parse_print_settle (List.cons_ne_nil _ _) (by decide +kernel)

end StNvs.Xml.Stable
