import StNvs.Sched.IoResults
import StNvs.Sync.ReadInfo

/-! # Reading in full

`st_read_fully` of the Win32 port calls `st_read` until it has the bytes it was asked for, the stream
ends, or a read fails with an error other than `EINTR`. How the reads go is up to the transport; each one
stores what it hands over at the place in the buffer that the loop has come to.

* `going_round`, `ends_round`: what one read does to the loop.
* `loop_cases`: a run of the loop goes on, or has ended in one of three ways.
* `full_read`: what the caller finds.
* `readFully_reads`, `readFully_arrivals`: the two coarser views of the call that the scheduler and `ReadInfo`
  have are views of this one. -/

namespace StNvs.Io.ReadFully

open StNvs.Sched StNvs.Sync.ReadInfo

/-! ### Errors -/

/-- `EINTR`. -/
def eintr : ℕ := 4

/-- The `switch` of `_st_GetError`, with the values of `errno.h` and `neterr.h`. -/
def errors : List (ℕ × ℕ) :=
  [(10004, 10004), (10009, 9), (10013, 13), (10014, 14), (10022, 22), (10024, 24), (10035, 11),
    (10036, eintr), (10037, eintr), (10038, 216), (10039, 217), (10040, 218), (10041, 219),
    (10042, 220), (10045, 223), (10048, 226), (10049, 227), (10053, 231), (10054, 232), (10056, 234),
    (10057, 235), (10060, 238), (10061, 239), (10065, 242)]

/-- `_st_GetError(0)`, when this is the last error; `WSABASEERR` is 10000. -/
def stGetError (lastError : ℕ) : ℕ :=
  if lastError < 10000 then lastError else (errors.lookup lastError).getD lastError

/-! ### The loop -/

/-- How an `st_read` goes: it fails and this is the last error, it comes to the end of the stream, or the
transport has these bytes, of which it takes as many as it was asked for. -/
inductive Read
  | failed (lastError : ℕ)
  | eof
  | data (b : UInt8) (bs : List UInt8)
  deriving DecidableEq, Repr

/-- The errno that the loop looks at. -/
def Read.errno : Read → ℕ
  | .failed e => stGetError e
  | .eof | .data _ _ => 0

/-- The call: the buffer byte by byte, where `buf` points to, `nleft`, and what was returned. `reads` are
the reads made, and `chunks` what they handed over. -/
structure State where
  mem : ℕ → UInt8
  buf : ℕ
  nleft : ℕ
  ret : Option ℤ
  reads : List Read
  chunks : List (List UInt8)

/-- Bytes stored from `p` on. -/
def store (mem : ℕ → UInt8) (p : ℕ) (bytes : List UInt8) : ℕ → UInt8 := fun i =>
  if p ≤ i then (bytes[i - p]?).getD (mem i) else mem i

/-- `st_read(fd, buf, nleft, timeout)`. -/
def stRead (s : State) : Read → ℤ × State
  | .failed _ => (-1, s)
  | .eof => (0, s)
  | .data b bs =>
    let c := (b :: bs).take s.nleft
    (c.length, { s with mem := store s.mem s.buf c, chunks := s.chunks ++ [c] })

/-- One round of the loop; `n` is an `int`. -/
def round (nbyte : ℕ) (s : State) (r : Read) : State :=
  let (x, s) := stRead { s with reads := s.reads ++ [r] } r
  let n := int32 x
  if n < 0 then
    if r.errno = eintr then s else { s with ret := some (-1) }
  else
    let nleft := s.nleft - n.toNat
    if nleft = 0 ∨ n = 0 then { s with nleft := nleft, ret := some (nbyte - nleft : ℤ) }
    else { s with nleft := nleft, buf := s.buf + n.toNat }

/-- `while (nleft > 0)`, when the reads go so; it may still be waiting for one after that. -/
def loop (nbyte : ℕ) : State → List Read → State
  | s, [] => s
  | s, r :: rs => if s.ret.isSome then s else loop nbyte (round nbyte s r) rs

/-- The call before the first read. -/
def start (nbyte : ℕ) (mem : ℕ → UInt8) : State :=
  { mem := mem, buf := 0, nleft := nbyte, ret := if nbyte = 0 then some 0 else none, reads := [],
    chunks := [] }

/-- `st_read_fully`. -/
def stReadFully (nbyte : ℕ) (mem : ℕ → UInt8) (rs : List Read) : State := loop nbyte (start nbyte mem) rs

/-! ### What was read -/

/-- The bytes that the transport had. -/
def received : List Read → List UInt8
  | [] => []
  | .data b bs :: rs => b :: bs ++ received rs
  | .failed _ :: rs | .eof :: rs => received rs

/-- The reads that are not tried again. -/
def firm (r : Read) : Bool := r.errno ≠ eintr

/-- The call has returned `r ≥ 0`: the chunks are in the buffer from its start, nothing else was stored,
and `r` is less than `nbyte` only at the end of the stream. -/
structure Assembled (nbyte : ℕ) (mem : ℕ → UInt8) (s : State) (r : ℤ) : Prop where
  count : r = s.chunks.flatten.length
  bytes : ∀ i < s.chunks.flatten.length, s.chunks.flatten[i]? = some (s.mem i)
  beyond : ∀ i, s.chunks.flatten.length ≤ i → s.mem i = mem i
  le : r ≤ nbyte
  short : r < nbyte → .eof ∈ s.reads

/-- Some read fails for good before `nbyte` bytes or the end of the stream. -/
def FailsFirst (nbyte : ℕ) (rs : List Read) : Prop :=
  ∃ l e l', rs = l ++ .failed e :: l' ∧ stGetError e ≠ eintr ∧ .eof ∉ l ∧ (received l).length < nbyte

/-- The loop is going, after these reads. -/
structure Going (nbyte : ℕ) (mem : ℕ → UInt8) (rs : List Read) (s : State) : Prop where
  ret : s.ret = none
  reads : s.reads = rs
  chunks : s.chunks.flatten = received rs
  mem : s.mem = store mem 0 (received rs)
  buf : s.buf = (received rs).length
  left : s.buf + s.nleft = nbyte
  pos : 0 < s.nleft
  mild : ∀ r ∈ rs, r ≠ .eof ∧ ∀ e, r = .failed e → stGetError e = eintr
  firm : (rs.filter firm).length ≤ s.buf

/-- A read that is tried again, or that hands over less than what is left. -/
def Continues (s : State) (r : Read) : Prop :=
  (∃ e, r = .failed e ∧ stGetError e = eintr) ∨ ∃ b bs, r = .data b bs ∧ bs.length + 1 < s.nleft

/-- A read ends the loop. -/
inductive Ends (nbyte : ℕ) (s : State) : Read → State → Prop
  | failed (e : ℕ) (he : stGetError e ≠ eintr) :
    Ends nbyte s (.failed e) { s with ret := some (-1), reads := s.reads ++ [.failed e] }
  | eof : Ends nbyte s .eof { s with ret := some (s.buf : ℤ), reads := s.reads ++ [.eof] }
  | full (b : UInt8) (bs : List UInt8) (hle : s.nleft ≤ bs.length + 1) :
    Ends nbyte s (.data b bs) { s with
      mem := store s.mem s.buf ((b :: bs).take s.nleft), nleft := 0, ret := some (nbyte : ℤ)
      reads := s.reads ++ [.data b bs], chunks := s.chunks ++ [(b :: bs).take s.nleft] }

variable {nbyte : ℕ} {mem : ℕ → UInt8} {rs : List Read} {s : State}

theorem int32_of_lt {x : ℤ} (h0 : 0 ≤ x) (h : x < 2 ^ 31) : int32 x = x := by
  unfold int32
  omega

theorem store_append {c d : List UInt8} : store (store mem 0 c) c.length d = store mem 0 (c ++ d) := by
  funext i
  simp only [store, Nat.zero_le, if_true, Nat.sub_zero]
  split_ifs with h
  · rw [List.getElem?_append_right h, List.getElem?_eq_none h]
    rfl
  · rw [List.getElem?_append_left (by omega)]

theorem received_append : ∀ {l l' : List Read}, received (l ++ l') = received l ++ received l'
  | [], _ => rfl
  | .data b bs :: l, l' => by
    simp only [List.cons_append, received, received_append, List.append_assoc]
  | .failed _ :: l, l' | .eof :: l, l' => received_append (l := l)

theorem firm_append (rs : List Read) (r : Read) :
    ((rs ++ [r]).filter firm).length ≤ (rs.filter firm).length + 1 := by
  rw [List.filter_append, List.length_append]
  have := List.length_filter_le firm [r]
  simp only [List.length_cons, List.length_nil] at this
  omega

theorem int32_neg_one : int32 (-1) = -1 := by decide

theorem int32_zero : int32 0 = 0 := by decide

/-! ### One read -/

/-- Such a read **keeps the loop going**. -/
theorem going_round (hn : nbyte < 2 ^ 31) (h : Going nbyte mem rs s) {r : Read}
    (hr : Continues s r) : Going nbyte mem (rs ++ [r]) (round nbyte s r) := by
  have hfirm := firm_append rs r
  obtain ⟨e, rfl, he⟩ | ⟨b, bs, rfl, hlt⟩ := hr
  · have hround : round nbyte s (.failed e) = { s with reads := s.reads ++ [.failed e] } := by
      simp [round, stRead, int32_neg_one, Read.errno, he]
    rw [hround]
    have hrec : received (rs ++ [.failed e]) = received rs := by rw [received_append]; simp [received]
    refine ⟨h.ret, by simp [h.reads], by rw [hrec]; exact h.chunks, by rw [hrec]; exact h.mem,
      by rw [hrec]; exact h.buf, h.left, h.pos, ?_, ?_⟩
    · rintro r hr
      rcases List.mem_append.1 hr with hr | hr
      · exact h.mild r hr
      · obtain rfl := List.mem_singleton.1 hr
        exact ⟨by simp, fun e' he' => by cases he'; exact he⟩
    · rw [List.filter_append]
      simpa [firm, Read.errno, he] using h.firm
  · have hlen : (b :: bs).take s.nleft = b :: bs := List.take_of_length_le (by simp; omega)
    have hpos := h.left
    have hint : int32 ((b :: bs).length : ℤ) = (b :: bs).length :=
      int32_of_lt (Int.natCast_nonneg _) (by simp; omega)
    have hround : round nbyte s (.data b bs) = { s with
        mem := store s.mem s.buf (b :: bs), nleft := s.nleft - (b :: bs).length
        buf := s.buf + (b :: bs).length, reads := s.reads ++ [.data b bs]
        chunks := s.chunks ++ [b :: bs] } := by
      have h1 : ¬ ((b :: bs).length : ℤ) < 0 := by simp; omega
      have h2 : ¬ (s.nleft - (b :: bs).length = 0 ∨ ((b :: bs).length : ℤ) = 0) := by simp; omega
      simp only [round, stRead, hlen, hint, if_neg h1, Int.toNat_natCast, if_neg h2]
    have hrec : received (rs ++ [.data b bs]) = received rs ++ b :: bs := by
      rw [received_append]; simp [received]
    rw [hround]
    refine ⟨h.ret, by simp [h.reads], by rw [hrec]; simp [h.chunks], ?_, by rw [hrec]; simp [h.buf],
      by simp; omega, by simp; omega, ?_, ?_⟩
    · rw [hrec, h.mem, h.buf, store_append]
    · rintro r hr
      rcases List.mem_append.1 hr with hr | hr
      · exact h.mild r hr
      · obtain rfl := List.mem_singleton.1 hr
        exact ⟨by simp, by simp⟩
    · have := h.firm
      simp only [List.length_cons] at hfirm ⊢
      omega

/-- Any other read **ends it**. -/
theorem ends_round (hn : nbyte < 2 ^ 31) (h : Going nbyte mem rs s) {r : Read}
    (hr : ¬ Continues s r) : Ends nbyte s r (round nbyte s r) := by
  unfold Continues at hr
  push Not at hr
  have hleft := h.left
  cases r with
  | failed e =>
    have he : stGetError e ≠ eintr := hr.1 e rfl
    have hround : round nbyte s (.failed e) =
        { s with ret := some (-1), reads := s.reads ++ [.failed e] } := by
      simp [round, stRead, int32_neg_one, Read.errno, he]
    rw [hround]
    exact .failed e he
  | eof =>
    have hb : (nbyte - s.nleft : ℤ) = s.buf := by omega
    have hround : round nbyte s .eof =
        { s with ret := some (s.buf : ℤ), reads := s.reads ++ [.eof] } := by
      simp [round, stRead, int32_zero, hb]
    rw [hround]
    exact .eof
  | data b bs =>
    have hle : s.nleft ≤ bs.length + 1 := hr.2 b bs rfl
    have hlen : ((b :: bs).take s.nleft).length = s.nleft := by
      rw [List.length_take, List.length_cons]
      omega
    have hint : int32 (s.nleft : ℤ) = s.nleft := int32_of_lt (Int.natCast_nonneg _) (by omega)
    have h1 : ¬ (s.nleft : ℤ) < 0 := by omega
    have h2 : (nbyte - (0 : ℕ) : ℤ) = nbyte := by omega
    have hround : round nbyte s (.data b bs) = { s with
        mem := store s.mem s.buf ((b :: bs).take s.nleft), nleft := 0, ret := some (nbyte : ℤ)
        reads := s.reads ++ [.data b bs], chunks := s.chunks ++ [(b :: bs).take s.nleft] } := by
      simp only [round, stRead, hlen, hint, if_neg h1, Int.toNat_natCast, Nat.sub_self, true_or, if_true,
        h2]
    rw [hround]
    exact .full b bs hle

/-! ### The loop -/

theorem going_start (mem : ℕ → UInt8) (h0 : 0 < nbyte) : Going nbyte mem [] (start nbyte mem) where
  ret := if_neg h0.ne'
  reads := rfl
  chunks := rfl
  mem := by funext i; simp [start, store, received]
  buf := rfl
  left := Nat.zero_add _
  pos := h0
  mild := by simp
  firm := by simp

theorem loop_ended {l : List Read} (h : s.ret ≠ none) : loop nbyte s l = s := by
  cases l with
  | nil => rfl
  | cons r l => rw [loop, if_pos (Option.isSome_iff_ne_none.2 h)]

theorem Ends.ret_ne {s' : State} {r : Read} (h : Ends nbyte s r s') : s'.ret ≠ none := by
  cases h <;> simp

/-- **A run of the loop** goes on after all its reads, or has ended with one of them. -/
theorem loop_cases (hn : nbyte < 2 ^ 31) (h : Going nbyte mem rs s) (l : List Read) :
    Going nbyte mem (rs ++ l) (loop nbyte s l) ∨
      ∃ l₁ r l₂ s', l = l₁ ++ r :: l₂ ∧ Going nbyte mem (rs ++ l₁) s' ∧
        Ends nbyte s' r (loop nbyte s l) := by
  induction l generalizing rs s with
  | nil => exact .inl (by simpa [loop] using h)
  | cons r l ih =>
    have hloop : loop nbyte s (r :: l) = loop nbyte (round nbyte s r) l := by
      rw [loop, if_neg (by simp [h.ret])]
    rw [hloop]
    by_cases hr : Continues s r
    · obtain h' | ⟨l₁, r', l₂, s', hl, hs', hend⟩ := ih (going_round hn h hr)
      · exact .inl (by simpa using h')
      · exact .inr ⟨r :: l₁, r', l₂, s', by simp [hl], by simpa using hs', hend⟩
    · have hend := ends_round hn h hr
      rw [loop_ended hend.ret_ne]
      exact .inr ⟨[], r, l, s, rfl, by simpa using h, hend⟩

/-! ### What the caller finds -/

/-- A loop that is going has met no failure that ends it. -/
theorem Going.not_failed (h : Going nbyte mem rs s) {e : ℕ} (he : Read.failed e ∈ rs) :
    stGetError e = eintr := (h.mild _ he).2 e rfl

theorem Going.eof_not_mem (h : Going nbyte mem rs s) : Read.eof ∉ rs := fun he => (h.mild _ he).1 rfl

/-- What the chunks so far have filled. -/
theorem store_getElem (mem : ℕ → UInt8) (bytes : List UInt8) :
    (∀ i < bytes.length, bytes[i]? = some (store mem 0 bytes i)) ∧
      ∀ i, bytes.length ≤ i → store mem 0 bytes i = mem i := by
  constructor
  · intro i hi
    simp [store, List.getElem?_eq_getElem hi]
  · intro i hi
    simp [store, List.getElem?_eq_none hi]

/-- After the reads `l` comes a hard failure of the whole sequence only if it comes at once. -/
theorem not_failsFirst {l l' : List Read} {r : Read} (hl : ∀ e, Read.failed e ∈ l → stGetError e = eintr)
    (hr : ∀ e, r ≠ .failed e) (hdone : r = .eof ∨ nbyte ≤ (received (l ++ [r])).length) :
    ¬ FailsFirst nbyte (l ++ r :: l') := by
  rintro ⟨k, e, k', heq, he, heof, hlt⟩
  rw [List.append_eq_append_iff] at heq
  obtain ⟨m, hk, hm⟩ | ⟨m, hl', hm⟩ := heq
  · cases m with
    | nil => exact hr e (by simpa using (List.cons.inj hm).1)
    | cons x m =>
      obtain ⟨rfl, -⟩ := List.cons.inj hm
      obtain rfl | hle := hdone
      · exact heof (by simp [hk])
      · have hsplit : k = (l ++ [r]) ++ m := by simp [hk]
        rw [hsplit, received_append, List.length_append] at hlt
        omega
  · cases m with
    | nil => exact hr e (by simpa using (List.cons.inj hm).1.symm)
    | cons x m =>
      obtain ⟨rfl, -⟩ := List.cons.inj hm
      exact he (hl e (by simp [hl']))

theorem chunks_round (hn : nbyte < 2 ^ 32) (h : s.chunks.flatten.length + s.nleft ≤ nbyte) (r : Read) :
    (round nbyte s r).chunks.flatten.length ≤ nbyte ∧
      ((round nbyte s r).ret = none → (round nbyte s r).chunks.flatten.length + (round nbyte s r).nleft ≤ nbyte) := by
  cases r with
  | failed e =>
    unfold round stRead
    dsimp only
    split_ifs <;> dsimp only <;> refine ⟨by omega, fun _ => by omega⟩
  | eof =>
    unfold round stRead
    dsimp only
    split_ifs <;> dsimp only <;> refine ⟨by omega, fun _ => by omega⟩
  | data b bs =>
    have hle : ((b :: bs).take s.nleft).length ≤ s.nleft := by
      rw [List.length_take]
      omega
    unfold round stRead
    dsimp only
    generalize (b :: bs).take s.nleft = c at hle
    have hint : ¬ int32 c.length < 0 → (int32 c.length).toNat = c.length := by
      unfold int32
      omega
    have hlen : (s.chunks ++ [c]).flatten.length = s.chunks.flatten.length + c.length := by simp
    split_ifs with h1 h2 h3
    · exact absurd h2 (show ¬ (0 : ℕ) = 4 by decide)
    · exact ⟨by rw [hlen]; omega, nofun⟩
    · exact ⟨by rw [hlen]; omega, nofun⟩
    · have := hint h1
      refine ⟨by rw [hlen]; omega, fun _ => ?_⟩
      dsimp only
      rw [hlen]
      omega

/-- **The reads store no more than they were asked for**, even if that does not fit an `int`. -/
theorem chunks_length_le (hn : nbyte < 2 ^ 32) :
    (stReadFully nbyte mem rs).chunks.flatten.length ≤ nbyte := by
  have hloop : ∀ (rs : List Read) (s : State), s.chunks.flatten.length ≤ nbyte →
      (s.ret = none → s.chunks.flatten.length + s.nleft ≤ nbyte) →
      (loop nbyte s rs).chunks.flatten.length ≤ nbyte := by
    intro rs
    induction rs with
    | nil => exact fun s h _ => h
    | cons r rs ih =>
      intro s h hg
      unfold loop
      split_ifs with hr
      · exact h
      · obtain ⟨h1, h2⟩ := chunks_round hn (hg (by simpa using hr)) r
        exact ih _ h1 h2
  exact hloop rs _ (Nat.zero_le _) fun _ => by simp [start]

/-! ### What its reads return -/

/-- What the reads return when this much is left, and whether `errno` is `EINTR`. -/
def returns : ℕ → List Read → List (ℤ × Bool)
  | _, [] => []
  | nleft, .failed e :: rs => (-1, decide (stGetError e = eintr)) :: returns nleft rs
  | nleft, .eof :: rs => (0, false) :: returns nleft rs
  | nleft, .data b bs :: rs => ((min nleft (b :: bs).length : ℕ), false) :: returns (nleft - (b :: bs).length) rs

theorem minus_natCast {n k : ℕ} (h : n < 2 ^ 32) (hk : k ≤ n) : IoResults.minus n k = n - k := by
  unfold IoResults.minus
  omega

/-- A read that keeps the loop going is followed by the others. -/
theorem readFully_continues (hn : nbyte < 2 ^ 31) (h : Going nbyte mem rs s) {r : Read} (hr : Continues s r)
    (l : List Read) : IoResults.readFully nbyte s.nleft (returns s.nleft (r :: l)) =
      IoResults.readFully nbyte (round nbyte s r).nleft (returns (round nbyte s r).nleft l) := by
  have hleft := h.left
  have hpos := h.pos
  have hbuf := h.buf
  have hg := going_round hn h hr
  have hleft' := hg.left
  have hbuf' := hg.buf
  rw [received_append, List.length_append] at hbuf'
  rcases hr with ⟨e, rfl, he⟩ | ⟨b, bs, rfl, hlt⟩
  · have hsame : (round nbyte s (.failed e)).nleft = s.nleft := by
      simp only [received, List.length_nil] at hbuf'
      omega
    rw [hsame, returns, IoResults.readFully, if_neg hpos.ne', if_pos (by decide), if_pos (by simpa using he)]
  · have hmin : min s.nleft (b :: bs).length = (b :: bs).length := by
      rw [List.length_cons]
      omega
    have hsub : (round nbyte s (.data b bs)).nleft = s.nleft - (b :: bs).length := by
      simp only [received, List.append_nil, List.length_cons] at hbuf' ⊢
      omega
    have hminus : IoResults.minus s.nleft (b :: bs).length = s.nleft - (b :: bs).length :=
      minus_natCast (by omega) (by rw [List.length_cons]; omega)
    rw [hsub, returns, hmin, IoResults.readFully, if_neg hpos.ne', if_neg (by omega), hminus, if_neg]
    rw [List.length_cons]
    omega

/-- One that ends it is the last. -/
theorem readFully_ends (hn : nbyte < 2 ^ 31) (h : Going nbyte mem rs s) {r : Read} {s' : State}
    (hend : Ends nbyte s r s') : s'.reads = rs ++ [r] ∧
      IoResults.readFully nbyte s.nleft (returns s.nleft [r]) = s'.ret := by
  have hleft := h.left
  have hpos := h.pos
  cases hend with
  | failed e he =>
    refine ⟨by rw [h.reads], ?_⟩
    rw [returns, returns, IoResults.readFully, if_neg hpos.ne', if_pos (by decide), if_neg (by simpa using he),
      if_pos rfl]
  | eof =>
    have hminus : IoResults.minus s.nleft 0 = s.nleft := minus_natCast (by omega) (Nat.zero_le _)
    have hgone : nbyte - s.nleft = s.buf := by omega
    refine ⟨by rw [h.reads], ?_⟩
    rw [returns, returns, IoResults.readFully, if_neg hpos.ne', if_neg (by decide), hminus,
      if_pos (.inr rfl), if_pos rfl, hgone]
  | full b bs hle =>
    have hmin : min s.nleft (b :: bs).length = s.nleft := by
      rw [List.length_cons]
      omega
    have hminus : IoResults.minus s.nleft s.nleft = 0 := by
      rw [minus_natCast (by omega) le_rfl, Nat.sub_self]
    refine ⟨by rw [h.reads], ?_⟩
    rw [returns, returns, hmin, IoResults.readFully, if_neg hpos.ne', if_neg (by omega), hminus, if_pos (.inl rfl),
      if_pos rfl, Nat.sub_zero]

/-- **A call that has returned** has returned what its reads come to. -/
theorem readFully_reads (hn : nbyte < 2 ^ 31) {k : ℤ} (hk : (stReadFully nbyte mem rs).ret = some k) :
    IoResults.readFully nbyte nbyte (returns nbyte (stReadFully nbyte mem rs).reads) = some k := by
  unfold stReadFully at hk ⊢
  rcases Nat.eq_zero_or_pos nbyte with rfl | hpos
  · rw [loop_ended (by simp [start])] at hk ⊢
    exact hk
  have hmore : ∀ (l : List Read) {rs : List Read} {s : State}, Going nbyte mem rs s →
      (loop nbyte s l).ret = some k → ∃ l', (loop nbyte s l).reads = rs ++ l' ∧
        IoResults.readFully nbyte s.nleft (returns s.nleft l') = some k := by
    intro l
    induction l with
    | nil =>
      intro rs s h hk
      rw [loop, h.ret] at hk
      cases hk
    | cons r l ih =>
      intro rs s h hk
      have hloop : loop nbyte s (r :: l) = loop nbyte (round nbyte s r) l := by
        rw [loop, if_neg (by simp [h.ret])]
      rw [hloop] at hk ⊢
      by_cases hr : Continues s r
      · obtain ⟨l', hreads, hread⟩ := ih (going_round hn h hr) hk
        refine ⟨r :: l', by rw [hreads, List.append_assoc]; rfl, ?_⟩
        rw [readFully_continues hn h hr, hread]
      · have hend := ends_round hn h hr
        rw [loop_ended hend.ret_ne] at hk ⊢
        obtain ⟨hreads, hread⟩ := readFully_ends hn h hend
        exact ⟨[r], hreads, hread.trans hk⟩
  obtain ⟨l, hreads, hread⟩ := hmore rs (going_start mem hpos) hk
  rw [hreads]
  exact hread

/-! ### A stream -/

/-- Reads of these sizes of a stream, the last of which gets what is left. -/
def arrivals (n : ℕ) (stream : List UInt8) : List ℕ → List Read
  | [] => (stream.head?.map fun b => .data b stream.tail).toList
  | k :: ks =>
    let m := clip n k stream
    match stream.take m with
    | [] => []
    | b :: bs => .data b bs :: arrivals (n - m) (stream.drop m) ks

/-- A read of what is there, when more is asked for. -/
theorem going_data (hn : nbyte < 2 ^ 31) (h : Going nbyte mem rs s) {b : UInt8} {bs : List UInt8}
    (hlt : (b :: bs).length < s.nleft) : Going nbyte mem (rs ++ [.data b bs]) (round nbyte s (.data b bs)) ∧
      (round nbyte s (.data b bs)).nleft = s.nleft - (b :: bs).length := by
  have hg := going_round hn h (r := .data b bs) (.inr ⟨b, bs, rfl, hlt⟩)
  have hleft := h.left
  have hbuf := h.buf
  have hleft' := hg.left
  have hbuf' := hg.buf
  rw [received_append, List.length_append, received, received, List.append_nil] at hbuf'
  exact ⟨hg, by omega⟩

/-- When there is enough. -/
theorem ends_data (hn : nbyte < 2 ^ 31) (h : Going nbyte mem rs s) {b : UInt8} {bs : List UInt8}
    (hle : s.nleft ≤ (b :: bs).length) : (round nbyte s (.data b bs)).ret = some (nbyte : ℤ) ∧
      (round nbyte s (.data b bs)).chunks.flatten = received rs ++ (b :: bs).take s.nleft := by
  have hr : ¬ Continues s (.data b bs) := by
    rintro (⟨e, he, -⟩ | ⟨b', bs', he, hlt⟩)
    · cases he
    · cases he
      exact absurd hlt (Nat.not_lt.mpr hle)
  have hend := ends_round hn h hr
  generalize round nbyte s (.data b bs) = s' at hend ⊢
  cases hend with
  | full =>
    refine ⟨rfl, ?_⟩
    rw [List.flatten_append, h.chunks, List.flatten_cons, List.flatten_nil, List.append_nil]

/-- The loop takes what is left of the call from the stream, or waits for it. -/
theorem loop_arrivals (hn : nbyte < 2 ^ 31) (ks : List ℕ) : ∀ (stream : List UInt8) {rs : List Read} {s : State},
    Going nbyte mem rs s →
    (s.nleft ≤ stream.length → (loop nbyte s (arrivals s.nleft stream ks)).ret = some (nbyte : ℤ) ∧
      (loop nbyte s (arrivals s.nleft stream ks)).chunks.flatten = received rs ++ stream.take s.nleft) ∧
    (stream.length < s.nleft → (loop nbyte s (arrivals s.nleft stream ks)).ret = none) := by
  induction ks with
  | nil =>
    intro stream rs s h
    have hpos := h.pos
    cases stream with
    | nil => exact ⟨fun hle => absurd (Nat.le_zero.mp hle) hpos.ne', fun _ => h.ret⟩
    | cons b bs =>
      have hloop : loop nbyte s (arrivals s.nleft (b :: bs) []) = round nbyte s (.data b bs) := by
        change loop nbyte s [.data b bs] = _
        rw [loop, if_neg (by simp [h.ret]), loop]
      rw [hloop]
      exact ⟨fun hle => ends_data hn h hle, fun hlt => (going_data hn h hlt).1.ret⟩
  | cons k ks ih =>
    intro stream rs s h
    have hpos := h.pos
    by_cases hnil : stream = []
    · subst hnil
      have hloop : loop nbyte s (arrivals s.nleft [] (k :: ks)) = s := by
        rw [arrivals, List.take_nil]
        rfl
      rw [hloop]
      exact ⟨fun hle => absurd (Nat.le_zero.mp hle) hpos.ne', fun _ => h.ret⟩
    have hlen := List.length_pos_iff.mpr hnil
    obtain ⟨m, hm⟩ : ∃ m, m = clip s.nleft k stream := ⟨_, rfl⟩
    have hbound : 0 < m ∧ m ≤ s.nleft ∧ m ≤ stream.length := by
      unfold clip at hm
      omega
    obtain ⟨b, bs, htake⟩ : ∃ b bs, stream.take m = b :: bs := by
      refine List.exists_cons_of_ne_nil fun h0 => ?_
      have := congrArg List.length h0
      rw [List.length_take, List.length_nil] at this
      omega
    have htakeLen : (b :: bs).length = m := by
      rw [← htake, List.length_take]
      omega
    have hloop : loop nbyte s (arrivals s.nleft stream (k :: ks)) =
        loop nbyte (round nbyte s (.data b bs)) (arrivals (s.nleft - m) (stream.drop m) ks) := by
      rw [arrivals, ← hm, htake]
      dsimp only
      rw [loop, if_neg (by simp [h.ret])]
    rw [hloop]
    rcases Nat.lt_or_ge m s.nleft with hlt | hge
    · have hmore : (b :: bs).length < s.nleft := by omega
      obtain ⟨hg, hleft⟩ := going_data hn h hmore
      obtain ⟨henough, hwait⟩ := ih (stream.drop m) hg
      rw [hleft, htakeLen, List.length_drop] at henough hwait
      refine ⟨fun hle => ?_, fun hless => hwait (by omega)⟩
      obtain ⟨hret, hchunks⟩ := henough (by omega)
      refine ⟨hret, ?_⟩
      have hsum : s.nleft = m + (s.nleft - m) := by omega
      rw [hchunks, received_append, received, received, List.append_nil, ← htake, List.append_assoc]
      conv_rhs => rw [hsum, List.take_add]
    · have hall : s.nleft ≤ (b :: bs).length := by omega
      have hm' : m = s.nleft := by omega
      obtain ⟨hret, hchunks⟩ := ends_data hn h hall
      rw [loop_ended (by simp [hret])]
      refine ⟨fun _ => ⟨hret, ?_⟩, fun hless => by omega⟩
      rw [hchunks, List.take_of_length_le (by omega), ← htake, hm']

/-- **What `ReadInfo` sees**: the call that reads a stream returns when there is enough of it, and hands over
its beginning. -/
theorem readFully_arrivals (hn : nbyte < 2 ^ 31) (stream : List UInt8) (ks : List ℕ) :
    readFully nbyte stream ks =
      (stReadFully nbyte mem (arrivals nbyte stream ks)).ret.map fun _ =>
        (stReadFully nbyte mem (arrivals nbyte stream ks)).chunks.flatten := by
  unfold stReadFully
  rcases Nat.eq_zero_or_pos nbyte with rfl | hpos
  · rw [loop_ended (by simp [start]), readFully_eq (Nat.zero_le _)]
    rfl
  obtain ⟨henough, hwait⟩ := loop_arrivals hn ks stream (going_start mem hpos)
  rcases Nat.lt_or_ge stream.length nbyte with hlt | hge
  · have hret : (loop nbyte (start nbyte mem) (arrivals nbyte stream ks)).ret = none := hwait hlt
    rw [readFully_none hlt, hret, Option.map_none]
  · obtain ⟨hret, hchunks⟩ := henough hge
    have hret' : (loop nbyte (start nbyte mem) (arrivals nbyte stream ks)).ret = some (nbyte : ℤ) := hret
    rw [readFully_eq hge, hret', Option.map_some]
    exact congrArg some hchunks.symm

end StNvs.Io.ReadFully
