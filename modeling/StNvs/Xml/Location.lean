import StNvs.Xml.Chars

/-! # Rows and columns

`TiXmlParsingData::Stamp` follows the parser through the text and counts rows and columns; each `Parse` calls
it where its node begins, and `SetError` where an error is. What it counts is read by nobody, but its loop has
to end: at a byte 0xEF, in UTF-8, it goes on only if two more bytes are there.

* `stampLoop_steady`: it ends if no such byte is among the last two of the text.
* `stampLoop_stuck`: it does not end at one that is.
* `stamps_end`: the calls of a parse, one after the other. -/

namespace StNvs.Xml.Location

open StNvs.Xml.Chars

/-- `TiXmlCursor`. -/
structure TiXmlCursor where
  row : ℕ
  col : ℕ
  deriving DecidableEq, Repr

/-- The second character of a line break, if there is one. -/
def skipPair (d : Char) (l : List Char) : List Char := if l.head? = some d then l.tail else l

/-- One round of the loop, at `c :: l`. -/
def stampRound (enc : Encoding) (tabsize : ℕ) (c : Char) (l : List Char) (cursor : TiXmlCursor) :
    List Char × TiXmlCursor :=
  if c = '\r' then (skipPair '\n' l, ⟨cursor.row + 1, 0⟩)
  else if c = '\n' then (skipPair '\r' l, ⟨cursor.row + 1, 0⟩)
  else if c = '\t' then (l, { cursor with col := (cursor.col / tabsize + 1) * tabsize })
  else if enc ≠ .utf8 then (l, { cursor with col := cursor.col + 1 })
  else if c.toNat ≠ 0xef then ((c :: l).drop (utf8ByteTable c), { cursor with col := cursor.col + 1 })
  else
    match l with
    | a :: b :: l => (l, if isMark c a b then cursor else { cursor with col := cursor.col + 1 })
    -- the terminator is one of the next two, and `p` stays where it is
    | l => (c :: l, cursor)

/-- The loop of `Stamp`; `now` is how much of the text is left where it is to stop. -/
def stampLoop (enc : Encoding) (tabsize now : ℕ) :
    ℕ → List Char → TiXmlCursor → Except Stop (List Char × TiXmlCursor)
  | 0, _, _ => .error .fuel
  | _ + 1, [], cursor => .ok ([], cursor)
  | n + 1, c :: l, cursor =>
    if now < (c :: l).length then
      stampLoop enc tabsize now n (stampRound enc tabsize c l cursor).1 (stampRound enc tabsize c l cursor).2
    else .ok (c :: l, cursor)

/-- `TiXmlParsingData`. -/
structure TiXmlParsingData where
  cursor : TiXmlCursor
  stamped : List Char
  tabsize : ℕ
  deriving DecidableEq, Repr

/-- `Stamp`, with this much fuel, up to `now`. -/
def TiXmlParsingData.stamp (fuel : ℕ) (data : TiXmlParsingData) (now : List Char × Encoding) :
    Except Stop TiXmlParsingData :=
  if data.tabsize < 1 then .ok data
  else (stampLoop now.2 data.tabsize now.1.length fuel data.stamped data.cursor).map fun x =>
    { data with stamped := x.1, cursor := x.2 }

/-- The data that `TiXmlDocument::Parse` begins with. -/
def TiXmlParsingData.start (tabsize : ℕ) (text : List Char) : TiXmlParsingData := ⟨⟨0, 0⟩, text, tabsize⟩

variable {enc : Encoding} {tabsize now n : ℕ} {c : Char} {l text : List Char} {cursor : TiXmlCursor}

/-- No byte 0xEF is among the last two of the text. -/
def Steady (text : List Char) : Prop := ∀ c ∈ text.drop (text.length - 2), c.toNat ≠ 0xef

instance : Decidable (Steady text) := inferInstanceAs (Decidable (∀ c ∈ text.drop (text.length - 2), c.toNat ≠ 0xef))

/-- Such a byte has two more behind it. -/
theorem Steady.two_more (h : Steady text) (hl : c :: l <:+ text) (hc : c.toNat = 0xef) : ∃ a b k, l = a :: b :: k := by
  obtain ⟨front, rfl⟩ := hl
  match l with
  | a :: b :: k => exact ⟨a, b, k, rfl⟩
  | [] | [a] =>
    refine absurd hc (h c ?_)
    simp [List.drop_append]

theorem utf8ByteTable_pos (c : Char) : 0 < utf8ByteTable c := by
  unfold utf8ByteTable
  split_ifs <;> decide

theorem skipPair_suffix (d : Char) (l : List Char) : skipPair d l <:+ l := by
  unfold skipPair
  split_ifs
  · exact List.tail_suffix l
  · exact List.suffix_refl l

/-- In a steady text each round goes on. -/
theorem stampRound_suffix (enc : Encoding) (tabsize : ℕ) (cursor : TiXmlCursor) (h : Steady text)
    (hl : c :: l <:+ text) : (stampRound enc tabsize c l cursor).1 <:+ l := by
  unfold stampRound
  split_ifs with h1 h2 h3 h4 h5
  · exact skipPair_suffix '\n' l
  · exact skipPair_suffix '\r' l
  · exact List.suffix_refl l
  · exact List.suffix_refl l
  · obtain ⟨k, hk⟩ := Nat.exists_eq_succ_of_ne_zero (utf8ByteTable_pos c).ne'
    rw [hk]
    exact List.drop_suffix k l
  · obtain ⟨a, b, k, rfl⟩ := h.two_more hl (not_not.mp h5)
    exact (List.suffix_cons b k).trans (List.suffix_cons a _)

/-- **In a steady text** the loop ends, and stays in the text. -/
theorem stampLoop_steady (enc : Encoding) (tabsize now : ℕ) (h : Steady text) :
    ∀ (n : ℕ) (l : List Char) (cursor : TiXmlCursor), l <:+ text → l.length < n →
      ∃ m cursor', stampLoop enc tabsize now n l cursor = .ok (m, cursor') ∧ m <:+ text
  | 0, _, _, _, hn => absurd hn (Nat.not_lt_zero _)
  | _ + 1, [], cursor, hl, _ => ⟨[], cursor, rfl, hl⟩
  | n + 1, c :: l, cursor, hl, hn => by
    have hs := stampRound_suffix enc tabsize cursor h hl
    unfold stampLoop
    split_ifs
    · refine stampLoop_steady enc tabsize now h n _ _ (hs.trans ((List.suffix_cons c l).trans hl)) ?_
      exact lt_of_le_of_lt hs.length_le (Nat.lt_of_succ_lt_succ hn)
    · exact ⟨c :: l, cursor, rfl, hl⟩

/-- **At a byte 0xEF** that has not two more behind it the loop does not end, in UTF-8. -/
theorem stampLoop_stuck (hc : c.toNat = 0xef) (hl : l.length < 2) (hnow : now < (c :: l).length) :
    ∀ n, stampLoop .utf8 tabsize now n (c :: l) cursor = .error .fuel
  | 0 => rfl
  | n + 1 => by
    have hne : ∀ d : Char, d.toNat ≠ 0xef → c ≠ d := by
      rintro d hd rfl
      exact hd hc
    have hround : stampRound .utf8 tabsize c l cursor = (c :: l, cursor) := by
      unfold stampRound
      rw [if_neg (hne '\r' (by decide)), if_neg (hne '\n' (by decide)), if_neg (hne '\t' (by decide)),
        if_neg (not_not.mpr rfl), if_neg (not_not.mpr hc)]
      match l, hl with
      | [], _ | [_], _ => rfl
    rw [stampLoop, if_pos hnow, hround]
    exact stampLoop_stuck hc hl hnow n

/-- The last name of `<?xml ?><\xEF></\xEFx`, where there is an error at the end. -/
example : stampLoop .utf8 4 0 100 [Char.ofNat 0xef, 'x'] ⟨0, 0⟩ = .error .fuel := by decide +kernel

theorem stamp_steady (h : Steady text) {data : TiXmlParsingData} (hd : data.stamped <:+ text)
    (call : List Char × Encoding) :
    ∃ data', data.stamp (text.length + 1) call = .ok data' ∧ data'.stamped <:+ text := by
  unfold TiXmlParsingData.stamp
  split_ifs
  · exact ⟨data, rfl, hd⟩
  · obtain ⟨m, cursor', hm, hsuf⟩ := stampLoop_steady call.2 data.tabsize call.1.length h (text.length + 1) data.stamped
      data.cursor hd (Nat.lt_succ_of_le hd.length_le)
    rw [hm]
    exact ⟨_, rfl, hsuf⟩

/-- Whatever calls of `Stamp` are made in a text, one after the other, each of them ends. -/
def StampsEnd (text : List Char) : Prop :=
  ∀ (tabsize : ℕ) (calls : List (List Char × Encoding)), ∃ data,
    calls.foldlM (TiXmlParsingData.stamp (text.length + 1)) (.start tabsize text) = .ok data

/-- **The calls of a parse** end in a steady text. -/
theorem stamps_end (h : Steady text) : StampsEnd text := by
  have hrun : ∀ (calls : List (List Char × Encoding)) (data : TiXmlParsingData), data.stamped <:+ text →
      ∃ data', calls.foldlM (TiXmlParsingData.stamp (text.length + 1)) data = .ok data' := by
    intro calls
    induction calls with
    | nil => exact fun data _ => ⟨data, rfl⟩
    | cons call calls ih =>
      intro data hd
      obtain ⟨data', hs, hd'⟩ := stamp_steady h hd call
      rw [List.foldlM_cons, hs]
      exact ih data' hd'
  exact fun tabsize calls => hrun calls _ (List.suffix_refl text)

end StNvs.Xml.Location
