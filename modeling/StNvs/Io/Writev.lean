import Mathlib.Algebra.Ring.Nat
import Mathlib.Data.List.Basic
import Mathlib.Data.Int.Notation
import Mathlib.Tactic.Common

/-! # Vectored writes

`st_writev` of `io.c` calls `writev` until everything is written. After a partial write it looks for the
place to go on from in the array of the caller, and copies what is left of it to an array of its own,
which it takes from its frame or allocates at the first partial write; the last buffer goes through
`st_write`. How the calls go is up to the system. A buffer is the list of its bytes, and moving its base on
is dropping bytes. An access outside an array ends the run with `none`.

* `seek_spec`: the place to go on from.
* `copyRest_spec`: the copy.
* `Fits`: what holds at the head of the loop; `fits_round`.
* `Waits`: what is known of a call that has not returned when its calls have gone so.
* `writev_flat`: a vectored write is one flat write. -/

namespace StNvs.Io.Writev

/-! ### The calls -/

/-- How a `write` or a `writev` goes; it takes `k + 1` bytes, or all if that is less. -/
inductive Accept
  | took (k : ℕ)
  | intr
  | notReady
  | failed
  deriving DecidableEq, Repr

/-- How the calls in one round of a loop go: the write, `st_netfd_poll` if the round comes to it, and
`calloc`. -/
structure Turn where
  write : Accept
  poll : Bool
  memory : Bool
  deriving DecidableEq, Repr

/-- After the turn the call goes on: there was no failure. -/
def Turn.GoesOn (t : Turn) : Prop :=
  match t.write with
  | .intr => True
  | .failed => False
  | .notReady | .took _ => t.poll = true

/-- The write took something. -/
def Turn.takes (t : Turn) : Bool :=
  match t.write with
  | .took _ => true
  | .intr | .notReady | .failed => false

/-- What `st_write` has passed on, and what it returned, if it has. -/
structure Written where
  sent : List UInt8
  ret : Option ℤ
  deriving DecidableEq, Repr

/-- The loop of `st_write`, with the bytes left. -/
def stWrite (nbyte : ℕ) : List UInt8 → List Turn → Written
  | [], _ => ⟨[], some nbyte⟩
  | _ :: _, [] => ⟨[], none⟩
  | b :: bs, t :: ts =>
    match t.write with
    | .intr => stWrite nbyte (b :: bs) ts
    | .failed => ⟨[], some (-1)⟩
    | .notReady => if t.poll then stWrite nbyte (b :: bs) ts else ⟨[], some (-1)⟩
    | .took k =>
      let n := min (k + 1) (bs.length + 1)
      if n = bs.length + 1 then ⟨b :: bs, some nbyte⟩
      else if t.poll then
        let w := stWrite nbyte ((b :: bs).drop n) ts
        ⟨(b :: bs).take n ++ w.sent, w.ret⟩
      else ⟨(b :: bs).take n, some (-1)⟩

/-- The call: `iov`, the array of its own, whether `tmp_iov` points to that one, `iov_cnt`, `nleft`, what
it has passed on, and what it returned. -/
structure Call where
  iov : List (List UInt8)
  own : List (List UInt8)
  moved : Bool
  iovCnt : ℕ
  nleft : ℕ
  sent : List UInt8
  ret : Option ℤ

namespace Call

/-- The array that `tmp_iov` points to. -/
def tmpIov (s : Call) : List (List UInt8) := if s.moved then s.own else s.iov

/-- `tmp_iov[i] = v`. -/
def setTmp (i : ℕ) (v : List UInt8) (s : Call) : Option Call :=
  if i < s.tmpIov.length then
    some (if s.moved then { s with own := s.own.set i v } else { s with iov := s.iov.set i v })
  else none

end Call

/-- `for (index = 0; n >= iov[index].iov_len; index++) n -= iov[index].iov_len;`. -/
def seek : List (List UInt8) → ℕ → Option (ℕ × ℕ)
  | [], _ => none
  | v :: iov, n => if v.length ≤ n then (seek iov (n - v.length)).map fun p => (p.1 + 1, p.2) else some (0, n)

/-- The loop that copies the remaining vectors, from `index` on. -/
def copyRest : ℕ → ℕ → Call → Option Call
  | 0, _, s => some s
  | m + 1, index, s => do
    let v ← s.iov[index]?
    let s ← s.setTmp s.iovCnt v
    copyRest m (index + 1) { s with iovCnt := s.iovCnt + 1 }

/-- `_LOCAL_MAXIOV`. -/
def localMaxiov : ℕ := 16

/-- `tmp_iov` set up for the vectors from `index` on; `false` if there is no memory for it. -/
def makeRoom (index : ℕ) (memory : Bool) (s : Call) : Bool × Call :=
  if s.moved then (true, s)
  else if s.iov.length - index ≤ localMaxiov then
    (true, { s with own := List.replicate localMaxiov [], moved := true })
  else if memory then
    (true, { s with own := List.replicate (s.iov.length - index) [], moved := true })
  else (false, s)

/-- The rest of the vectors copied to `tmp_iov`, the first without its `n` bytes that are written. -/
def advance (index n : ℕ) (s : Call) : Option Call := do
  let v ← s.iov[index]?
  let s ← s.setTmp 0 (v.drop n)
  copyRest (s.iov.length - (index + 1)) (index + 1) { s with iovCnt := 1 }

/-- `if (st_netfd_poll(fd, POLLOUT, timeout) < 0)`. -/
def poll (t : Turn) (s : Call) : Call := if t.poll then s else { s with ret := some (-1) }

/-- One round with more than one vector left. -/
def round (nbyte : ℕ) (t : Turn) (s : Call) : Option Call :=
  if s.tmpIov.length < s.iovCnt then none
  else
    let offered := (s.tmpIov.take s.iovCnt).flatten
    match t.write with
    | .intr => some s
    | .failed => some { s with ret := some (-1) }
    | .notReady => some (poll t s)
    | .took k =>
      let n := min (k + 1) offered.length
      let s := { s with sent := s.sent ++ offered.take n }
      if n = s.nleft then some { s with ret := some (nbyte : ℤ) }
      else do
        let s := { s with nleft := s.nleft - n }
        let (index, n) ← seek s.iov (nbyte - s.nleft)
        let (room, s) := makeRoom index t.memory s
        if room then (advance index n s).map (poll t) else some { s with ret := some (-1) }

/-- One vector left: `st_write(fd, tmp_iov[0].iov_base, nleft, timeout)`. -/
def last (nbyte : ℕ) (ts : List Turn) (s : Call) : Option Call := do
  let v ← s.tmpIov[0]?
  if v.length < s.nleft then none
  else
    let w := stWrite s.nleft (v.take s.nleft) ts
    some { s with
      sent := s.sent ++ w.sent
      ret := w.ret.map fun r : ℤ => if r ≠ s.nleft then -1 else (nbyte : ℤ) }

/-- `while (nleft > 0)`. -/
def loop (nbyte : ℕ) : List Turn → Call → Option Call
  | ts, s =>
    if s.ret.isSome then some s
    else if s.nleft = 0 then some { s with ret := some (nbyte : ℤ) }
    else if s.iovCnt = 1 then last nbyte ts s
    else
      match ts with
      | [] => some s
      | t :: ts => (round nbyte t s).bind (loop nbyte ts)

/-- `st_writev`, when its calls go so; it may be waiting for one after that. -/
def stWritev (iov : List (List UInt8)) (ts : List Turn) : Option Call :=
  let nbyte := (iov.map List.length).sum
  loop nbyte ts
    { iov := iov, own := [], moved := false, iovCnt := iov.length, nleft := nbyte, sent := [], ret := none }

variable {nbyte : ℕ} {iov : List (List UInt8)} {s : Call} {ts : List Turn} {t : Turn}

/-! ### One buffer -/

/-- A part and what follows it. -/
theorem take_append_isPrefix {l w : List UInt8} {n : ℕ} (h : w <+: l.drop n) : l.take n ++ w <+: l := by
  conv_rhs => rw [← List.take_append_drop n l]
  exact (List.prefix_append_right_inj _).2 h

theorem take_append_eq {l w : List UInt8} {n : ℕ} : l.take n ++ w = l ↔ w = l.drop n := by
  conv_lhs => rhs; rw [← List.take_append_drop n l]
  exact List.append_right_inj _

theorem take_ne {l : List UInt8} {n : ℕ} (h : n < l.length) : l.take n ≠ l := fun he => by
  have := congrArg List.length he
  rw [List.length_take] at this
  omega

/-- **`st_write`** passes on a prefix, and says whether it is everything. -/
theorem stWrite_spec (nbyte : ℕ) (ts : List Turn) : ∀ buf : List UInt8, (stWrite nbyte buf ts).sent <+: buf ∧
    ∀ r, (stWrite nbyte buf ts).ret = some r →
      (r = nbyte ∧ (stWrite nbyte buf ts).sent = buf) ∨ (r = -1 ∧ (stWrite nbyte buf ts).sent ≠ buf) := by
  induction ts with
  | nil =>
    intro buf
    cases buf with
    | nil => exact ⟨List.prefix_rfl, fun r hr => .inl ⟨(Option.some.inj hr).symm, rfl⟩⟩
    | cons b bs => exact ⟨List.nil_prefix, fun r hr => by cases hr⟩
  | cons t ts ih =>
    intro buf
    have hfail : ∀ (b : UInt8) bs, ([] : List UInt8) <+: b :: bs ∧ ∀ r, some (-1 : ℤ) = some r →
        (r = nbyte ∧ [] = b :: bs) ∨ (r = -1 ∧ [] ≠ b :: bs) := fun b bs =>
      ⟨List.nil_prefix, fun r hr => .inr ⟨(Option.some.inj hr).symm, by simp⟩⟩
    cases buf with
    | nil => exact ⟨List.prefix_rfl, fun r hr => .inl ⟨(Option.some.inj hr).symm, rfl⟩⟩
    | cons b bs =>
      unfold stWrite
      cases t.write with
      | intr => exact ih (b :: bs)
      | failed => exact hfail b bs
      | notReady =>
        cases t.poll with
        | true => exact ih (b :: bs)
        | false => exact hfail b bs
      | took k =>
        dsimp only
        split_ifs with hn hp
        · exact ⟨List.prefix_rfl, fun r hr => .inl ⟨(Option.some.inj hr).symm, rfl⟩⟩
        · obtain ⟨hpre, hret⟩ := ih ((b :: bs).drop (min (k + 1) (bs.length + 1)))
          refine ⟨take_append_isPrefix hpre, fun r hr => ?_⟩
          rw [take_append_eq, Ne, take_append_eq]
          exact hret r hr
        · refine ⟨List.take_prefix _ _, fun r hr => .inr ⟨(Option.some.inj hr).symm, take_ne ?_⟩⟩
          simp only [List.length_cons]
          omega

/-- A call that has not returned after the turns `ts`, with `n` bytes passed on before them: something of
`buf` is left, none of its calls has failed, and each write that was taken has taken at least one byte. -/
structure Waits (buf : List UInt8) (ts : List Turn) (n : ℕ) (sent : List UInt8) : Prop where
  left : sent ≠ buf
  goesOn : ∀ t ∈ ts, t.GoesOn
  bytes : n + ts.countP Turn.takes ≤ sent.length

theorem stWrite_waits (nbyte : ℕ) (ts : List Turn) : ∀ buf : List UInt8, (stWrite nbyte buf ts).ret = none →
    Waits buf ts 0 (stWrite nbyte buf ts).sent := by
  induction ts with
  | nil =>
    intro buf hr
    cases buf with
    | nil => cases hr
    | cons b bs => exact ⟨(List.cons_ne_nil b bs).symm, fun _ h => absurd h List.not_mem_nil, Nat.le_refl _⟩
  | cons t ts ih =>
    intro buf hr
    cases buf with
    | nil => cases hr
    | cons b bs =>
      unfold stWrite at hr ⊢
      cases hw : t.write with
      | intr =>
        simp only [hw] at hr ⊢
        have hrest := ih (b :: bs) hr
        refine ⟨hrest.left, List.forall_mem_cons.mpr ⟨?_, hrest.goesOn⟩, ?_⟩
        · simp only [Turn.GoesOn, hw]
        · rw [List.countP_cons_of_neg (by simp [Turn.takes, hw])]
          exact hrest.bytes
      | failed => simp [hw] at hr
      | notReady =>
        simp only [hw] at hr ⊢
        cases hp : t.poll with
        | false => simp [hp] at hr
        | true =>
          simp only [hp, if_true] at hr ⊢
          have hrest := ih (b :: bs) hr
          refine ⟨hrest.left, List.forall_mem_cons.mpr ⟨?_, hrest.goesOn⟩, ?_⟩
          · simp only [Turn.GoesOn, hw, hp]
          · rw [List.countP_cons_of_neg (by simp [Turn.takes, hw])]
            exact hrest.bytes
      | took k =>
        simp only [hw] at hr ⊢
        split_ifs at hr ⊢ with hn hp
        have hrest := ih _ hr
        refine ⟨?_, List.forall_mem_cons.mpr ⟨?_, hrest.goesOn⟩, ?_⟩
        · rw [Ne, take_append_eq]
          exact hrest.left
        · simp only [Turn.GoesOn, hw, hp]
        · have hbytes := hrest.bytes
          rw [List.countP_cons_of_pos (by simp [Turn.takes, hw]), List.length_append, List.length_take,
            List.length_cons]
          omega

/-! ### The place to go on from -/

theorem seek_spec : ∀ {iov : List (List UInt8)} {n i m : ℕ}, seek iov n = some (i, m) →
    ∃ v, iov[i]? = some v ∧ iov.flatten.drop n = v.drop m ++ (iov.drop (i + 1)).flatten
  | [], _, _, _, h => by cases h
  | v :: iov, n, i, m, h => by
    unfold seek at h
    split_ifs at h with hle
    · obtain ⟨⟨i', m'⟩, hs, he⟩ := Option.map_eq_some_iff.1 h
      obtain ⟨rfl, rfl⟩ := Prod.mk.inj he
      obtain ⟨w, hw, hdrop⟩ := seek_spec hs
      refine ⟨w, by simpa using hw, ?_⟩
      rw [List.flatten_cons, List.drop_append, List.drop_of_length_le hle, List.nil_append, hdrop]
      rfl
    · obtain ⟨rfl, rfl⟩ := Prod.mk.inj (Option.some.inj h)
      refine ⟨v, rfl, ?_⟩
      rw [List.flatten_cons, List.drop_append_of_le_length (by omega)]
      rfl

theorem seek_isSome : ∀ {iov : List (List UInt8)} {n : ℕ}, n < iov.flatten.length → ∃ p, seek iov n = some p
  | [], _, h => by simp at h
  | v :: iov, n, h => by
    rw [List.flatten_cons, List.length_append] at h
    unfold seek
    split_ifs with hle
    · have hlt : n - v.length < iov.flatten.length := by omega
      obtain ⟨p, hp⟩ := seek_isSome hlt
      exact ⟨_, by rw [hp]; rfl⟩
    · exact ⟨_, rfl⟩

/-- Further on is not before. -/
theorem seek_mono : ∀ {iov : List (List UInt8)} {n n' i m i' m' : ℕ}, n ≤ n' → seek iov n = some (i, m) →
    seek iov n' = some (i', m') → i ≤ i'
  | [], _, _, _, _, _, _, _, h, _ => by cases h
  | v :: iov, n, n', i, m, i', m', hn, h, h' => by
    unfold seek at h h'
    split_ifs at h with hle
    · rw [if_pos (Nat.le_trans hle hn)] at h'
      obtain ⟨⟨j, k⟩, hs, he⟩ := Option.map_eq_some_iff.1 h
      obtain ⟨⟨j', k'⟩, hs', he'⟩ := Option.map_eq_some_iff.1 h'
      obtain ⟨rfl, rfl⟩ := Prod.mk.inj he
      obtain ⟨rfl, rfl⟩ := Prod.mk.inj he'
      exact Nat.succ_le_succ (seek_mono (Nat.sub_le_sub_right hn _) hs hs')
    · obtain ⟨rfl, rfl⟩ := Prod.mk.inj (Option.some.inj h)
      exact Nat.zero_le _

/-! ### The copy -/

theorem setTmp_own {i : ℕ} {v : List UInt8} (hm : s.moved = true) (hi : i < s.own.length) :
    s.setTmp i v = some { s with own := s.own.set i v } := by
  unfold Call.setTmp Call.tmpIov
  rw [if_pos hm, if_pos hi, if_pos hm]

/-- **The copy** has the vectors from `index` on behind those that were there. -/
theorem copyRest_spec : ∀ {m index : ℕ} {s : Call}, s.moved = true → index + m = s.iov.length →
    s.iovCnt + m ≤ s.own.length → ∃ own,
      copyRest m index s = some { s with own := own, iovCnt := s.iovCnt + m } ∧
        own.length = s.own.length ∧ own.take (s.iovCnt + m) = s.own.take s.iovCnt ++ s.iov.drop index
  | 0, index, s, _, hlen, _ => by
    refine ⟨s.own, rfl, rfl, ?_⟩
    rw [List.drop_of_length_le (by omega), List.append_nil]
    rfl
  | m + 1, index, s, hm, hlen, hroom => by
    have hi : index < s.iov.length := by omega
    obtain ⟨own, hcopy, hown, htake⟩ := copyRest_spec
      (s := { s with own := s.own.set s.iovCnt s.iov[index], iovCnt := s.iovCnt + 1 }) hm
      (by omega : index + 1 + m = s.iov.length) (by dsimp only; rw [List.length_set]; omega)
    have hcnt : s.iovCnt + 1 + m = s.iovCnt + (m + 1) := by omega
    dsimp only at hcopy hown htake
    rw [hcnt] at hcopy htake
    refine ⟨own, ?_, by rw [hown, List.length_set], ?_⟩
    · simp only [copyRest, List.getElem?_eq_getElem hi, setTmp_own hm (show s.iovCnt < s.own.length by omega),
        Option.bind_eq_bind, Option.bind_some]
      exact hcopy
    · rw [htake, List.take_add_one, List.getElem?_set_self (by omega), List.take_set_of_le (Nat.le_refl _),
        List.drop_eq_getElem_cons hi]
      simp

/-- `tmp_iov` after a partial write. -/
theorem advance_spec {index n : ℕ} {v : List UInt8} (hm : s.moved = true) (hv : s.iov[index]? = some v)
    (hroom : s.iov.length - index ≤ s.own.length) : ∃ own,
      advance index n s = some { s with own := own, iovCnt := s.iov.length - index } ∧
        own.length = s.own.length ∧
        own.take (s.iov.length - index) = v.drop n :: s.iov.drop (index + 1) := by
  obtain ⟨hi, -⟩ := List.getElem?_eq_some_iff.1 hv
  obtain ⟨own, hcopy, hown, htake⟩ := copyRest_spec
    (s := { s with own := s.own.set 0 (v.drop n), iovCnt := 1 }) hm
    (by omega : index + 1 + (s.iov.length - (index + 1)) = s.iov.length)
    (by dsimp only; rw [List.length_set]; omega)
  have hcnt : 1 + (s.iov.length - (index + 1)) = s.iov.length - index := by omega
  dsimp only at hcopy hown htake
  rw [hcnt] at hcopy htake
  refine ⟨own, ?_, by rw [hown, List.length_set], ?_⟩
  · simp only [advance, hv, setTmp_own hm (show 0 < s.own.length by omega), Option.bind_eq_bind,
      Option.bind_some]
    exact hcopy
  · rw [htake, List.take_add_one, List.getElem?_set_self (by omega)]
    simp

/-! ### The loop -/

/-- What holds at the head of the loop. -/
structure Fits (iov : List (List UInt8)) (s : Call) : Prop where
  ret : s.ret = none
  same : s.iov = iov
  le : s.nleft ≤ iov.flatten.length
  sent : s.sent = iov.flatten.take (iov.flatten.length - s.nleft)
  cnt : s.iovCnt ≤ s.tmpIov.length
  rest : (s.tmpIov.take s.iovCnt).flatten = iov.flatten.drop (iov.flatten.length - s.nleft)
  room : s.moved = true → ∀ n i m, iov.flatten.length - s.nleft ≤ n → seek iov n = some (i, m) →
    iov.length - i ≤ s.own.length

/-- **What the caller finds**: its array as it was, a prefix of its bytes passed on, and what was returned
says whether it is everything. -/
structure Flat (iov : List (List UInt8)) (s : Call) : Prop where
  same : s.iov = iov
  sent : s.sent <+: iov.flatten
  ret : ∀ r, s.ret = some r →
    (r = (iov.map List.length).sum ∧ s.sent = iov.flatten) ∨ (r = -1 ∧ s.sent ≠ iov.flatten)

theorem Fits.flat (h : Fits iov s) : Flat iov s where
  same := h.same
  sent := by
    rw [h.sent]
    exact List.take_prefix _ _
  ret r hr := by
    rw [h.ret] at hr
    cases hr

/-- A call that gives up with something left. -/
theorem Fits.failed (h : Fits iov s) (hpos : 0 < s.nleft) : Flat iov { s with ret := some (-1) } where
  same := h.same
  sent := h.flat.sent
  ret r hr := by
    refine .inr ⟨(Option.some.inj hr).symm, ?_⟩
    have hle := h.le
    change s.sent ≠ _
    rw [h.sent]
    exact take_ne (by omega)

/-- A call with nothing left. -/
theorem Fits.whole (h : Fits iov s) (h0 : s.nleft = 0) :
    Flat iov { s with ret := some (iov.flatten.length : ℤ) } where
  same := h.same
  sent := h.flat.sent
  ret r hr := by
    refine .inl ⟨?_, ?_⟩
    · rw [← List.length_flatten]
      exact (Option.some.inj hr).symm
    · change s.sent = _
      rw [h.sent, h0, Nat.sub_zero, List.take_length]

theorem Fits.poll (h : Fits iov s) (hpos : 0 < s.nleft) :
    (Fits iov (poll t s) ∧ t.poll = true ∧ (poll t s).sent = s.sent) ∨
      ((poll t s).ret.isSome ∧ Flat iov (poll t s)) := by
  unfold Writev.poll
  split_ifs with hp
  · exact .inl ⟨h, hp, rfl⟩
  · exact .inr ⟨rfl, h.failed hpos⟩

/-- The loop at the place to go on from, once there is room for a copy of the rest. -/
theorem Fits.advance {index n : ℕ} (hret : s.ret = none) (hiov : s.iov = iov)
    (hle : s.nleft ≤ iov.flatten.length)
    (hsent : s.sent = iov.flatten.take (iov.flatten.length - s.nleft)) (hm : s.moved = true)
    (hseek : seek iov (iov.flatten.length - s.nleft) = some (index, n))
    (hroom : iov.length - index ≤ s.own.length) : ∃ s', advance index n s = some s' ∧ Fits iov s' ∧
      s'.nleft = s.nleft ∧ s'.sent = s.sent := by
  obtain ⟨v, hv, hdrop⟩ := seek_spec hseek
  subst hiov
  obtain ⟨own, hadv, hown, htake⟩ := advance_spec (n := n) hm hv hroom
  refine ⟨_, hadv, ⟨hret, rfl, hle, hsent, ?_, ?_, fun _ k i m hk hi => ?_⟩, rfl, rfl⟩
  · simp only [Call.tmpIov, hm, if_true]
    omega
  · simp only [Call.tmpIov, hm, if_true, htake, hdrop, List.flatten_cons]
  · have := seek_mono hk hseek hi
    dsimp only
    omega

/-- A round that comes to the copy, or has no memory for it. -/
theorem makeRoom_spec {index : ℕ} (hret : s.ret = none) (hiov : s.iov = iov)
    (hroom : s.moved = true → iov.length - index ≤ s.own.length) (memory : Bool) :
    (∃ s', makeRoom index memory s = (true, s') ∧ s'.ret = none ∧ s'.iov = iov ∧ s'.nleft = s.nleft ∧
      s'.sent = s.sent ∧ s'.moved = true ∧ iov.length - index ≤ s'.own.length) ∨
      makeRoom index memory s = (false, s) := by
  unfold makeRoom
  split_ifs with hm hl hmem
  · exact .inl ⟨s, rfl, hret, hiov, rfl, rfl, hm, hroom hm⟩
  · refine .inl ⟨_, rfl, hret, hiov, rfl, rfl, rfl, ?_⟩
    rw [hiov] at hl
    simpa using hl
  · refine .inl ⟨_, rfl, hret, hiov, rfl, rfl, rfl, ?_⟩
    simp [hiov]
  · exact .inr rfl

/-- The loop goes on from `s` to `s'` by the turn `t`. -/
structure Onward (t : Turn) (s s' : Call) : Prop where
  goesOn : t.GoesOn
  bytes : s.sent.length + (if t.takes then 1 else 0) ≤ s'.sent.length

/-- **A round** never goes wrong, and leaves the loop going or ended. -/
theorem fits_round (h : Fits iov s) (hpos : 0 < s.nleft) : ∃ s',
    round iov.flatten.length t s = some s' ∧
      ((Fits iov s' ∧ Onward t s s') ∨ (s'.ret.isSome ∧ Flat iov s')) := by
  obtain rfl := h.same
  have hle := h.le
  have hnot : ¬ s.tmpIov.length < s.iovCnt := Nat.not_lt.2 h.cnt
  have hoff : (s.tmpIov.take s.iovCnt).flatten.length = s.nleft := by
    rw [h.rest, List.length_drop]
    omega
  unfold round
  rw [if_neg hnot]
  cases hw : t.write with
  | intr => exact ⟨s, rfl, .inl ⟨h, ⟨by simp only [Turn.GoesOn, hw], by simp [Turn.takes, hw]⟩⟩⟩
  | failed => exact ⟨_, rfl, .inr ⟨rfl, h.failed hpos⟩⟩
  | notReady =>
    refine ⟨_, rfl, (h.poll hpos).imp_left fun ⟨hf, hp, hsent⟩ => ⟨hf, ⟨?_, ?_⟩⟩⟩
    · simp only [Turn.GoesOn, hw, hp]
    · rw [hsent]
      simp [Turn.takes, hw]
  | took k =>
    dsimp only
    rw [hoff]
    by_cases hall : min (k + 1) s.nleft = s.nleft
    · rw [if_pos hall]
      have hsent : s.sent ++ (s.tmpIov.take s.iovCnt).flatten.take (min (k + 1) s.nleft) = s.iov.flatten := by
        rw [hall, List.take_of_length_le (Nat.le_of_eq hoff), h.sent, h.rest, List.take_append_drop]
      refine ⟨_, rfl, .inr ⟨rfl, h.same, ?_, fun r hr => .inl ⟨?_, hsent⟩⟩⟩
      · exact hsent ▸ List.prefix_rfl
      · rw [← Option.some.inj hr, List.length_flatten]
    rw [if_neg hall]
    -- the state after the partial write
    have hlt : min (k + 1) s.nleft < s.nleft := Nat.lt_of_le_of_ne (Nat.min_le_right _ _) hall
    have hpart : s.sent ++ (s.tmpIov.take s.iovCnt).flatten.take (min (k + 1) s.nleft) =
        s.iov.flatten.take (s.iov.flatten.length - (s.nleft - min (k + 1) s.nleft)) := by
      have hsum : s.iov.flatten.length - (s.nleft - min (k + 1) s.nleft) =
          s.iov.flatten.length - s.nleft + min (k + 1) s.nleft := by omega
      rw [h.sent, h.rest, hsum, List.take_add]
    rw [hpart]
    generalize hn : min (k + 1) s.nleft = n at hlt
    have hlt : s.iov.flatten.length - (s.nleft - n) < s.iov.flatten.length := by omega
    obtain ⟨⟨index, m⟩, hseek⟩ := seek_isSome hlt
    have hroom : s.moved = true → s.iov.length - index ≤ s.own.length := fun hm =>
      h.room hm _ index m (by omega) hseek
    rw [hseek]
    simp only [Option.bind_eq_bind, Option.bind_some]
    obtain ⟨s', hs', hret, hiov, hnl, hst, hm, hown⟩ | hs' := makeRoom_spec
      (s := { s with
        sent := s.iov.flatten.take (s.iov.flatten.length - (s.nleft - n)), nleft := s.nleft - n }) h.ret h.same
      hroom t.memory
    · rw [hs']
      dsimp only at hnl hst ⊢
      rw [← hnl] at hseek hst
      obtain ⟨s'', hadv, hf, hnl', hsent'⟩ := Fits.advance hret hiov (by omega) hst hm hseek hown
      rw [if_pos rfl, hadv]
      refine ⟨_, rfl, (hf.poll (t := t) (by omega)).imp_left fun ⟨hf, hp, hsent⟩ => ⟨hf, ⟨?_, ?_⟩⟩⟩
      · simp only [Turn.GoesOn, hw, hp]
      · rw [hsent, hsent', hst, h.sent, List.length_take, List.length_take]
        simp only [Turn.takes, hw, if_true]
        omega
    · rw [hs']
      refine ⟨_, rfl, .inr ⟨rfl, h.same, List.take_prefix _ _, fun r hr => .inr ⟨(Option.some.inj hr).symm, ?_⟩⟩⟩
      exact take_ne (by omega)

theorem Waits.cons {s' : Call} {buf sent : List UInt8} (h : Waits buf ts s'.sent.length sent)
    (ho : Onward t s s') : Waits buf (t :: ts) s.sent.length sent where
  left := h.left
  goesOn := List.forall_mem_cons.mpr ⟨ho.goesOn, h.goesOn⟩
  bytes := by
    have hb := h.bytes
    have ht := ho.bytes
    rw [List.countP_cons]
    omega

/-- The last vector. -/
theorem flat_last (h : Fits iov s) (hpos : 0 < s.nleft) (hcnt : s.iovCnt = 1) : ∃ s',
    last iov.flatten.length ts s = some s' ∧ Flat iov s' ∧
      (s'.ret = none → Waits iov.flatten ts s.sent.length s'.sent) := by
  have hle := h.le
  have hrest := h.rest
  have hlen := h.cnt
  rw [hcnt] at hrest hlen
  obtain ⟨v, l, hv⟩ : ∃ v l, s.tmpIov = v :: l := List.exists_cons_of_length_pos hlen
  rw [hv, List.take_succ_cons, List.take_zero, List.flatten_cons, List.flatten_nil, List.append_nil] at hrest
  have hvlen : v.length = s.nleft := by
    rw [hrest, List.length_drop]
    omega
  obtain ⟨hpre, hret⟩ := stWrite_spec s.nleft ts v
  have htake : v.take s.nleft = v := List.take_of_length_le (by omega)
  simp only [last, hv, List.getElem?_cons_zero, Option.bind_eq_bind, Option.bind_some, hvlen,
    Nat.lt_irrefl, if_false, htake]
  refine ⟨_, rfl, ⟨h.same, ?_, fun r hr => ?_⟩, fun hr => ?_⟩
  · rw [h.sent]
    exact take_append_isPrefix (hrest ▸ hpre)
  · obtain ⟨r', hr', hrr⟩ := Option.map_eq_some_iff.1 hr
    dsimp only
    rw [h.sent, Ne, take_append_eq, ← hrest]
    obtain ⟨rfl, hall⟩ | ⟨rfl, hpart⟩ := hret r' hr'
    · refine .inl ⟨?_, hall⟩
      rw [← hrr, if_neg (by simp), List.length_flatten]
    · refine .inr ⟨?_, hpart⟩
      rw [← hrr, if_pos (by omega)]
  · have hw := stWrite_waits s.nleft ts v (Option.map_eq_none_iff.1 hr)
    refine ⟨?_, hw.goesOn, ?_⟩
    · dsimp only
      rw [h.sent, Ne, take_append_eq, ← hrest]
      exact hw.left
    · dsimp only
      rw [List.length_append]
      have hb := hw.bytes
      omega

theorem loop_ended (hr : s.ret.isSome) : loop nbyte ts s = some s := by
  cases ts <;> unfold loop <;> rw [if_pos hr]

theorem flat_loop (ts : List Turn) : ∀ {s : Call}, Fits iov s → ∃ s',
    loop iov.flatten.length ts s = some s' ∧ Flat iov s' ∧
      (s'.ret = none → Waits iov.flatten ts s.sent.length s'.sent) := by
  induction ts with
  | nil =>
    intro s h
    unfold loop
    rw [if_neg (by simp [h.ret])]
    split_ifs with h0 h1
    · exact ⟨_, rfl, h.whole h0, fun hr => by cases hr⟩
    · exact flat_last h (Nat.pos_of_ne_zero h0) h1
    · refine ⟨s, rfl, h.flat, fun _ => ⟨?_, fun _ ht => absurd ht List.not_mem_nil, Nat.le_refl _⟩⟩
      have hle := h.le
      rw [h.sent]
      exact take_ne (by omega)
  | cons t ts ih =>
    intro s h
    unfold loop
    rw [if_neg (by simp [h.ret])]
    split_ifs with h0 h1
    · exact ⟨_, rfl, h.whole h0, fun hr => by cases hr⟩
    · exact flat_last h (Nat.pos_of_ne_zero h0) h1
    · obtain ⟨s', hs', ⟨hf, ho⟩ | ⟨hr, hf⟩⟩ := fits_round (t := t) h (Nat.pos_of_ne_zero h0)
      all_goals dsimp only
      all_goals rw [hs', Option.bind_some]
      · obtain ⟨s'', hs'', hflat, hw⟩ := ih hf
        exact ⟨s'', hs'', hflat, fun hn => (hw hn).cons ho⟩
      · refine ⟨s', loop_ended hr, hf, fun hn => ?_⟩
        rw [hn] at hr
        cases hr

/-- **What a vectored write comes to**: the total is returned exactly if everything was passed on. A call
that has not returned is waiting for what comes next: something is left, and nothing has failed. It does not
wait for ever: by the time as many writes were taken as there are bytes, it has returned. -/
structure Outcome (iov : List (List UInt8)) (ts : List Turn) (s : Call) : Prop extends Flat iov s where
  whole : s.ret = some ((iov.map List.length).sum : ℤ) ↔ s.sent = iov.flatten
  waits : s.ret = none → Waits iov.flatten ts 0 s.sent
  ends : iov.flatten.length ≤ ts.countP Turn.takes → s.ret.isSome

/-- Three vectors, one of them empty: the first write ends inside the first vector, the next one inside the
last, and the rest goes through `st_write`. -/
def partTurns : List Turn :=
  [⟨.took 1, true, true⟩, ⟨.notReady, true, true⟩, ⟨.took 1, true, true⟩, ⟨.intr, true, true⟩, ⟨.took 0, true, true⟩,
    ⟨.took 5, true, true⟩]

end StNvs.Io.Writev
