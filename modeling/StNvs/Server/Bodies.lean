import StNvs.Server.Late

/-! # The bodies of a client's messages

`handle_recv` of a client allocates a body for a request and frees it as soon as it has been read, but leaves
the pointer in the message, and the destructor frees it again. `open_real_video` allocates one for the answer.
`Traced` writes down which buffers these are, with the messages that are to hold them (`allocated`).

As long as no body of a request is read to its end, each of the buffers is freed once, with its message
(`bodies_freed`); one that is read to its end may be freed twice (`body_freed_twice`). -/

namespace StNvs.Server.Bodies

open StNvs.Lib.Holders StNvs.Lib.Runs StNvs.Server.Proto StNvs.Server.Model StNvs.Server.References
open StNvs.Server.Counts StNvs.Server.Messages StNvs.Server.Steps StNvs.Server.Parting StNvs.Server.Registry
open StNvs.Server.Notify StNvs.Server.Touches StNvs.Server.Late Function Token

variable {s s' s₁ : Sys} {c : CuPtr} {m : MsgPtr} {t u : Task} {k : Spot} {r : Result} {e : Event} {b : ℕ}
variable {l : List (ℕ × MsgPtr)} {y : ℕ × MsgPtr}

/-! ### What is traced -/

/-- A state, and the bodies that clients have allocated, with the messages that were to hold them. -/
structure Traced where
  sys : Sys
  bodies : List (ℕ × MsgPtr)

/-- The body that a coroutine at the point `t` has allocated for a client, if it has. -/
def allocated (t : Option Task) (s s' : Sys) : List (ℕ × MsgPtr) :=
  if s'.bufs = s.bufs then []
  else match t with
    | some (.cuHeader c) => [(s.bufs, s.fresh (.client c))]
    | some (.openReal _ m) => [(s.bufs, m)]
    | _ => []

def traced : Machine Traced Event where
  init x := x.sys = Sys.start ∧ x.bodies = []
  enabled x e := machine.enabled x.sys e
  apply x e := ⟨machine.apply x.sys e, allocated x.sys.running x.sys (machine.apply x.sys e) ++ x.bodies⟩

/-- Each body is freed at most once, and it has been when its message is deleted; no message that is still there
points to one that has been freed. -/
structure FreedOnce (x : Traced) : Prop where
  once : ∀ y ∈ x.bodies, x.sys.log.frees.count y.1 ≤ 1 ∧
    ((x.sys.msg y.2).ref = 0 → x.sys.log.frees.count y.1 = 1)
  dangling : ∀ y ∈ x.bodies, ∀ m, (x.sys.msg m).ref ≠ 0 → (x.sys.msg m).body.buf = some y.1 →
    y.1 ∉ x.sys.log.frees

/-- The body of a request has been read to its end. -/
def readsWhole : Task → Event → Bool
  | .cuBody _ _ _, .go (.body _) => true
  | _, _ => false

/-- A step that does not read the body of a request to its end. -/
def Partial (x : Traced) (e : Event) : Prop := ∀ t ∈ x.sys.running, readsWhole t e = false

theorem allocated_same {o : Option Task} (h : s'.bufs = s.bufs) : allocated o s s' = [] := if_pos h

/-! ### Who owns a body -/

/-- A message of a client without a body. -/
structure Draft (s : Sys) (m : MsgPtr) : Prop where
  body : (s.msg m).body = .null
  number : m.number < s.log.news.length
  maker : ∃ c, m.maker = .client c

/-- The buffer that the receiver of a device fills. -/
def taskBuf : Task → Option ℕ
  | .puLoad _ _ buf | .puBody _ _ buf => some buf
  | _ => none

/-- What a coroutine has: a buffer that is not traced, or a message without a body. -/
structure Fine (l : List (ℕ × MsgPtr)) (s : Sys) (t : Task) : Prop where
  buf : ∀ b, taskBuf t = some b → b < s.bufs ∧ ∀ y ∈ l, y.1 ≠ b
  draft : ∀ m, drafted t = some m → Draft s m

/-- A body is held by its own message only, and has not been freed, or it has been freed once. -/
structure Owned (l : List (ℕ × MsgPtr)) (s : Sys) : Prop where
  born : ∀ y ∈ l, y.1 < s.bufs ∧ y.2.number < s.log.news.length ∧ ∃ c, y.2.maker = .client c
  once : ∀ y ∈ l, ((s.msg y.2).ref ≠ 0 ∧ (s.msg y.2).body.buf = some y.1 ∧ y.1 ∉ s.log.frees) ∨
    ((s.msg y.2).ref = 0 ∧ s.log.frees.count y.1 = 1)
  only : ∀ y ∈ l, ∀ m, (s.msg m).body.buf = some y.1 → m = y.2
  tasks : ∀ t ∈ s.tasks, Fine l s t
  bodies : ∀ m b, (s.msg m).body.buf = some b → b < s.bufs
  freed : ∀ b ∈ s.log.frees, b < s.bufs

/-- What a message, a buffer and the coroutines look like is all that counts. -/
structure Alike (s s' : Sys) : Prop where
  msg : s'.msg = s.msg
  bufs : s'.bufs = s.bufs
  frees : s'.log.frees = s.log.frees
  news : s'.log.news = s.log.news

theorem Alike.draft (h : Alike s s') (hd : Draft s m) : Draft s' m := by
  obtain ⟨h1, h2, h3⟩ := hd
  exact ⟨by rw [h.msg, h1], by rw [h.news]; exact h2, h3⟩

theorem Alike.fine (h : Alike s s') (hf : Fine l s t) : Fine l s' t :=
  ⟨fun b hb => by rw [h.bufs]; exact hf.buf b hb, fun m hm => h.draft (hf.draft m hm)⟩

theorem Owned.alike (h : Owned l s) (ha : Alike s s') (ht : ∀ t ∈ s'.tasks, t ∈ s.tasks ∨ Fine l s t) :
    Owned l s' := by
  refine ⟨?_, ?_, ?_, fun t ht' => ha.fine ((ht t ht').elim (h.tasks t) id), ?_, ?_⟩
  · rw [ha.bufs, ha.news]
    exact h.born
  · rw [ha.msg, ha.frees]
    exact h.once
  · rw [ha.msg]
    exact h.only
  · rw [ha.msg, ha.bufs]
    exact h.bodies
  · rw [ha.frees, ha.bufs]
    exact h.freed

theorem Owned.unallocated {o : Option Task} (h : Owned l s') (hb : s'.bufs = s.bufs) :
    Owned (allocated o s s' ++ l) s' := by
  rw [allocated_same hb]
  exact h

theorem Owned.freedOnce (h : Owned l s) : FreedOnce ⟨s, l⟩ := by
  refine ⟨fun y hy => ?_, fun y hy m h0 hb => ?_⟩
  · obtain ⟨h0, -, hf⟩ | ⟨-, hf⟩ := h.once y hy
    · exact ⟨(List.count_eq_zero.2 hf).le.trans (Nat.zero_le 1), fun h => absurd h h0⟩
    · exact ⟨hf.le, fun _ => hf⟩
  · obtain rfl := h.only y hy m hb
    obtain ⟨-, -, hf⟩ | ⟨h1, -⟩ := h.once y hy
    · exact hf
    · exact absurd h1 h0

/-! ### Touches -/

theorem fine_none (hb : taskBuf t = none) (hd : drafted t = none) : Fine l s t :=
  ⟨fun b h => absurd (h.symm.trans hb) (Option.some_ne_none b),
    fun m h => absurd (h.symm.trans hd) (Option.some_ne_none m)⟩

theorem taskBuf_none (h : reading t = none) : taskBuf t = none := by
  cases t <;> first | rfl | cases h

theorem plain_drafted (h : Plain t) : drafted t = none := by
  cases t <;> first | rfl | exact h.2.2

theorem fine_plain (h : Plain t) : Fine l s t :=
  fine_none (taskBuf_none (plain_calm h).2) (plain_drafted h)

theorem fine_signals (h : Signals t u) : Fine l s u := by
  cases h <;> exact fine_none rfl rfl

theorem objects_alike (h : Aside s s') : Alike s s' := ⟨h.msg, h.bufs, h.frees, h.news⟩

theorem place_alike : Alike s (s.place t k) := ⟨place_msg, place_bufs, by rw [place_log], by rw [place_log]⟩

theorem Draft.touch {New : Sys → Task → Spot → Prop} (h : Draft s m) (ht : Touch New s s') : Draft s' m := by
  cases ht with
  | objects ha => exact (objects_alike ha).draft h
  | count x f hf _ =>
    refine ⟨?_, h.number, h.maker⟩
    obtain rfl | hne := eq_or_ne m x
    · simpa [h.body] using hf
    · simpa [hne] using h.body
  | delete x _ =>
    refine ⟨?_, h.number, h.maker⟩
    obtain rfl | hne := eq_or_ne m x
    · simp
    · simpa [hne] using h.body
  | place u k _ => exact place_alike.draft h
  | signal u w _ _ => exact ⟨h.body, h.number, h.maker⟩

theorem Draft.touched {New : Sys → Task → Spot → Prop} (h : Draft s m) (ht : Touched New s s') : Draft s' m := by
  induction ht with
  | refl => exact h
  | tail _ ht ih => exact ih.touch ht

theorem Owned.count (h : Owned l s) {f : Msg → Msg} (hb : (f (s.msg m)).body = (s.msg m).body)
    (hr : (f (s.msg m)).ref = 0 ↔ (s.msg m).ref = 0) : Owned l (s.modMsg m f) := by
  have hbody (x : MsgPtr) : ((s.modMsg m f).msg x).body = (s.msg x).body := by
    obtain rfl | hne := eq_or_ne x m
    · simpa using hb
    · simp [hne]
  have href (x : MsgPtr) : ((s.modMsg m f).msg x).ref = 0 ↔ (s.msg x).ref = 0 := by
    obtain rfl | hne := eq_or_ne x m
    · simpa using hr
    · simp [hne]
  refine ⟨h.born, fun y hy => ?_, fun y hy x hx => h.only y hy x (hbody x ▸ hx),
    fun t ht => ⟨(h.tasks t ht).buf, fun x hx => ?_⟩,
    fun x b hx => h.bodies x b (hbody x ▸ hx), h.freed⟩
  · rw [Ne, href, hbody]
    exact h.once y hy
  · obtain ⟨h1, h2, h3⟩ := (h.tasks t ht).draft x hx
    exact ⟨by rw [hbody, h1], h2, h3⟩

theorem Owned.delete (h : Owned l s) (h1 : (s.msg m).ref = 1) : Owned l (s.deleteMsg m) := by
  have hbody {x : MsgPtr} {b : ℕ} (hx : ((s.deleteMsg m).msg x).body.buf = some b) :
      x ≠ m ∧ (s.msg x).body.buf = some b := by
    obtain rfl | hne := eq_or_ne x m
    · simp [Body.buf] at hx
    · exact ⟨hne, by simpa [hne] using hx⟩
  refine ⟨h.born, fun y hy => ?_, fun y hy x hx => h.only y hy x (hbody hx).2,
    fun t ht => ⟨(h.tasks t ht).buf, fun x hx => ?_⟩, fun x b hx => h.bodies x b (hbody hx).2, fun b hb => ?_⟩
  · obtain rfl | hne := eq_or_ne y.2 m
    · obtain ⟨-, hb, hf⟩ | ⟨h0, -⟩ := h.once y hy
      · exact .inr ⟨by simp, by simp [hb, List.count_eq_zero.2 hf]⟩
      · exact absurd (h0.symm.trans h1) Nat.zero_ne_one
    · have hother : y.1 ∉ (s.msg m).body.buf.toList := fun hb =>
        hne (h.only y hy m (Option.mem_toList.1 hb)).symm
      obtain ⟨h0, hb, hf⟩ | ⟨h0, hf⟩ := h.once y hy
      · exact .inl ⟨by simpa [hne] using h0, by simpa [hne] using hb, by simpa [hf] using hother⟩
      · exact .inr ⟨by simpa [hne] using h0, by simp [hf, List.count_eq_zero.2 hother]⟩
  · obtain ⟨h1, h2, h3⟩ := (h.tasks t ht).draft x hx
    refine ⟨?_, h2, h3⟩
    obtain rfl | hne := eq_or_ne x m
    · simp
    · simpa [hne] using h1
  · obtain hb | hb := List.mem_append.1 hb
    · exact h.bodies m b (Option.mem_toList.1 hb)
    · exact h.freed b hb

/-- What the running coroutine, at the point `t`, has of `Fine`. -/
structure InHand (l : List (ℕ × MsgPtr)) (s : Sys) (t : Task) : Prop where
  buf : ∀ b, taskBuf t = some b → b < s.bufs ∧ ∀ y ∈ l, y.1 ≠ b
  request : ∀ c hdr m, t = .cuMessage c hdr m → Draft s m

/-- The points where a buffer is allocated for a device, and where a request may have been read. -/
def Receives : Task → Prop
  | .puHeader _ | .cuBody _ _ _ => True
  | _ => False

theorem next_fine (hr : ¬ Receives t) (hh : InHand l s t) (h : Next t s u k) : Fine l s u := by
  cases h with
  | other h _ | own h _ => exact fine_plain h
  | begins _ h hd => exact fine_none (taskBuf_none h) hd
  | load _ | whole => exact absurd trivial hr
  | body | again => exact ⟨hh.buf, nofun⟩
  | message h1 h2 h3 => exact ⟨nofun, fun x hx => Option.some.inj hx ▸ ⟨h1, h2, _, h3⟩⟩
  | request => exact ⟨nofun, fun x hx => Option.some.inj hx ▸ hh.request _ _ _ rfl⟩
  | _ => exact fine_none rfl rfl

theorem touch_bufs {New : Sys → Task → Spot → Prop} (h : Touch New s s') : s'.bufs = s.bufs := by
  cases h with
  | objects h => exact h.bufs
  | place u k _ => exact place_bufs
  | _ => rfl

theorem touch_news {New : Sys → Task → Spot → Prop} (h : Touch New s s') : s'.log.news = s.log.news := by
  cases h with
  | objects h => exact h.news
  | place u k _ => rw [place_log]
  | _ => rfl

theorem Owned.touch (h : Owned l s) (hr : ¬ Receives t) (hh : InHand l s t) (ht : Touch (Next t) s s') :
    Owned l s' := by
  cases ht with
  | objects ha =>
    refine h.alike (objects_alike ha) fun u hu => .inl ?_
    rwa [Sys.tasks, ha.running, ha.runq, ha.io, ha.conds] at hu
  | count m f hf href => exact h.count hf href
  | delete m h1 => exact h.delete h1
  | place u k hk =>
    refine h.alike place_alike fun w hw => ?_
    obtain rfl | hw := Sys.mem_place hw
    · exact .inr (next_fine hr hh hk)
    · exact .inl hw
  | signal u w hs hu =>
    refine h.alike ⟨rfl, rfl, rfl, rfl⟩ fun x hx => ?_
    have herase : x ∈ s.conds.erase u → x ∈ s.conds := List.mem_of_mem_erase
    have hcases : x = w ∨ x ∈ s.tasks := by
      simp [Sys.tasks] at hx ⊢
      tauto
    obtain rfl | hx := hcases
    · exact .inr (fine_signals hs)
    · exact .inl hx

theorem InHand.touch {New : Sys → Task → Spot → Prop} (h : InHand l s t) (ht : Touch New s s') : InHand l s' t :=
  ⟨fun b hb => by rw [touch_bufs ht]; exact h.buf b hb, fun c hdr m hm => (h.request c hdr m hm).touch ht⟩

theorem Owned.touched (h : Owned l s) (hr : ¬ Receives t) (hh : InHand l s t) (ht : Touched (Next t) s s') :
    Owned l s' ∧ InHand l s' t := by
  induction ht with
  | refl => exact ⟨h, hh⟩
  | tail _ ht ih => exact ⟨ih.1.touch hr ih.2 ht, ih.2.touch ht⟩

theorem touched_bufs {New : Sys → Task → Spot → Prop} (h : Touched New s s') : s'.bufs = s.bufs := by
  induction h with
  | refl => rfl
  | tail _ h ih => exact (touch_bufs h).trans ih

theorem touched_fresh {New : Sys → Task → Spot → Prop} (h : Touched New s s') (k : Maker) : s'.fresh k = s.fresh k := by
  induction h with
  | refl => rfl
  | tail _ h ih => rw [← ih, Sys.fresh, Sys.fresh, touch_news h]

/-! ### What is special -/

theorem Owned.newBuf (h : Owned l s) : Owned l s.newBuf := by
  have hlt {b : ℕ} (hb : b < s.bufs) : b < s.newBuf.bufs := Nat.lt_succ_of_lt hb
  exact ⟨fun y hy => ⟨hlt (h.born y hy).1, (h.born y hy).2⟩, h.once, h.only,
    fun t ht => ⟨fun b hb => ⟨hlt ((h.tasks t ht).buf b hb).1, ((h.tasks t ht).buf b hb).2⟩, fun m hm =>
      let ⟨h1, h2, h3⟩ := (h.tasks t ht).draft m hm; ⟨h1, h2, h3⟩⟩,
    fun m b hb => hlt (h.bodies m b hb), fun b hb => hlt (h.freed b hb)⟩

theorem Owned.newMsg (h : Owned l s) (k : Maker) (hdr : Header) {body : Body}
    (hbody : ∀ b, body.buf = some b → b < s.bufs ∧ ∀ y ∈ l, y.1 ≠ b) :
    Owned l (s.newMsg (s.fresh k) hdr body) := by
  have hold {x : MsgPtr} (hx : x.number < s.log.news.length) :
      (s.newMsg (s.fresh k) hdr body).msg x = s.msg x := by
    have hne : x ≠ s.fresh k := fun he => absurd hx (by rw [he]; exact lt_irrefl _)
    simp [hne]
  have hlt {x : MsgPtr} (hx : x.number < s.log.news.length) :
      x.number < (s.newMsg (s.fresh k) hdr body).log.news.length := by
    simp
    omega
  refine ⟨fun y hy => ⟨(h.born y hy).1, hlt (h.born y hy).2.1, (h.born y hy).2.2⟩, fun y hy => ?_, fun y hy x hx => ?_,
    fun t ht => ⟨(h.tasks t ht).buf, fun x hx => ?_⟩, fun x b hx => ?_, h.freed⟩
  · rw [hold (h.born y hy).2.1]
    exact h.once y hy
  · obtain rfl | hne := eq_or_ne x (s.fresh k)
    · exact absurd rfl ((hbody y.1 (by simpa using hx)).2 y hy)
    · exact h.only y hy x (by simpa [hne] using hx)
  · obtain ⟨h1, h2, h3⟩ := (h.tasks t ht).draft x hx
    exact ⟨by rw [hold h2, h1], hlt h2, h3⟩
  · obtain rfl | hne := eq_or_ne x (s.fresh k)
    · exact (hbody b (by simpa using hx)).1
    · exact h.bodies x b (by simpa [hne] using hx)

/-- A message gets another body. -/
theorem Owned.write (h : Owned l s) {f : Msg → Msg} (href : (f (s.msg m)).ref = (s.msg m).ref)
    (hbody : ∀ b, (f (s.msg m)).body.buf = some b → b < s.bufs ∧ ∀ y ∈ l, y.1 ≠ b) (hm : ∀ y ∈ l, y.2 ≠ m)
    (hd : ∀ t ∈ s.tasks, drafted t ≠ some m) : Owned l (s.modMsg m f) := by
  refine ⟨h.born, fun y hy => ?_, fun y hy x hx => ?_, fun t ht => ⟨(h.tasks t ht).buf, fun x hx => ?_⟩,
    fun x b hx => ?_,
    h.freed⟩
  · simpa [hm y hy] using h.once y hy
  · obtain rfl | hne := eq_or_ne x m
    · exact absurd rfl ((hbody y.1 (by simpa using hx)).2 y hy)
    · exact h.only y hy x (by simpa [hne] using hx)
  · have hne : x ≠ m := fun he => hd t ht (he ▸ hx)
    obtain ⟨h1, h2, h3⟩ := (h.tasks t ht).draft x hx
    exact ⟨by simpa [hne] using h1, h2, h3⟩
  · obtain rfl | hne := eq_or_ne x m
    · exact (hbody b (by simpa using hx)).1
    · exact h.bodies x b (by simpa [hne] using hx)

theorem Owned.free (h : Owned l s) {body : Body} (hbody : ∀ b, body.buf = some b → b < s.bufs ∧ ∀ y ∈ l, y.1 ≠ b) :
    Owned l (s.free body) := by
  have hother {y : ℕ × MsgPtr} (hy : y ∈ l) : y.1 ∉ body.buf.toList :=
    fun hb => (hbody y.1 (Option.mem_toList.1 hb)).2 y hy rfl
  refine ⟨h.born, fun y hy => ?_, h.only, fun t ht => ⟨(h.tasks t ht).buf, fun x hx =>
    let ⟨h1, h2, h3⟩ := (h.tasks t ht).draft x hx; ⟨h1, h2, h3⟩⟩, h.bodies, fun b hb => ?_⟩
  · obtain ⟨h0, hb, hf⟩ | ⟨h0, hf⟩ := h.once y hy
    · exact .inl ⟨h0, hb, by simpa [hf] using hother hy⟩
    · exact .inr ⟨h0, by simp [hf, List.count_eq_zero.2 (hother hy)]⟩
  · obtain hb | hb := List.mem_append.1 hb
    · exact (hbody b (Option.mem_toList.1 hb)).1
    · exact h.freed b hb

/-- Another body is traced. -/
theorem Owned.add (h : Owned l s) (hborn : b < s.bufs ∧ m.number < s.log.news.length ∧ ∃ c, m.maker = .client c)
    (hlive : (s.msg m).ref ≠ 0 ∧ (s.msg m).body.buf = some b ∧ b ∉ s.log.frees)
    (honly : ∀ x, (s.msg x).body.buf = some b → x = m) (htasks : ∀ t ∈ s.tasks, taskBuf t ≠ some b) :
    Owned ((b, m) :: l) s := by
  refine ⟨List.forall_mem_cons.2 ⟨hborn, h.born⟩, List.forall_mem_cons.2 ⟨.inl hlive, h.once⟩,
    List.forall_mem_cons.2 ⟨honly, h.only⟩, fun t ht => ⟨fun b' hb' => ⟨((h.tasks t ht).buf b' hb').1, ?_⟩,
      (h.tasks t ht).draft⟩, h.bodies, h.freed⟩
  exact List.forall_mem_cons.2 ⟨fun he : b = b' => htasks t ht (he ▸ hb'), ((h.tasks t ht).buf b' hb').2⟩

/-- The new body of a new message. -/
theorem Owned.newBody (h : Owned l s) (k : Maker) (hdr : Header) (bytes : List UInt8) :
    Owned l (s.newBuf.newMsg (s.fresh k) hdr (.held s.bufs bytes)) := by
  refine h.newBuf.newMsg k hdr fun b hb => ?_
  obtain rfl := Option.some.inj hb
  exact ⟨Nat.lt_succ_self _, fun y hy => (h.born y hy).1.ne⟩

theorem Owned.request (h : Owned l s) (c : CuPtr) (hdr : Header) (bytes : List UInt8) :
    Owned ((s.bufs, s.fresh (.client c)) :: l) (s.newBuf.newMsg (s.fresh (.client c)) hdr (.held s.bufs bytes)) := by
  refine (h.newBody (.client c) hdr bytes).add ⟨Nat.lt_succ_self _, by simp [Sys.fresh], c, rfl⟩ ⟨by simp,
    by simp [Body.buf], ?_⟩
    (fun x hx => ?_) fun t ht hb => ?_
  · exact fun hb => absurd (h.freed _ hb) (lt_irrefl _)
  · by_contra hne
    exact absurd (h.bodies x s.bufs (by simpa [hne] using hx)) (lt_irrefl _)
  · exact absurd ((h.tasks t ht).buf _ hb).1 (lt_irrefl _)

theorem Owned.copy (h : Owned l s) {f : Msg → Msg} {bytes : List UInt8} (hd : Draft s m)
    (hone : ∀ t ∈ s.tasks, drafted t ≠ some m) (h0 : (s.msg m).ref ≠ 0)
    (href : (f (s.msg m)).ref = (s.msg m).ref) (hbody : (f (s.msg m)).body = .held s.bufs bytes) :
    Owned ((s.bufs, m) :: l) (s.newBuf.modMsg m f) := by
  have hm : ∀ y ∈ l, y.2 ≠ m := by
    rintro y hy rfl
    obtain ⟨-, hb, -⟩ | ⟨h1, -⟩ := h.once y hy
    · rw [hd.body] at hb
      cases hb
    · exact h0 h1
  refine (h.newBuf.write href (fun b hb => ?_) hm hone).add ⟨Nat.lt_succ_self _, hd.number, hd.maker⟩ ⟨?_, ?_, ?_⟩
    (fun x hx => ?_) fun t ht hb => ?_
  · obtain rfl := Option.some.inj ((congrArg Body.buf hbody).symm.trans hb)
    exact ⟨Nat.lt_succ_self _, fun y hy => (h.born y hy).1.ne⟩
  · simpa [href] using h0
  · simp [hbody, Body.buf]
  · exact fun hb => absurd (h.freed _ hb) (lt_irrefl _)
  · by_contra hne
    exact absurd (h.bodies x s.bufs (by simpa [hne] using hx)) (lt_irrefl _)
  · exact absurd ((h.tasks t ht).buf _ hb).1 (lt_irrefl _)

theorem inHand_none (hb : taskBuf t = none) (hm : ∀ c hdr m, t ≠ .cuMessage c hdr m) : InHand l s t :=
  ⟨fun b h => absurd (h.symm.trans hb) (Option.some_ne_none b), fun c hdr m h => absurd h (hm c hdr m)⟩

/-- What is needed of the state in which a coroutine goes on at `t`: who has made the answer of a device, and that
nobody else has the message of the request. -/
structure Apart (s : Sys) (t : Task) : Prop where
  video : ∀ p v, (s.pu p).video = some v → v.maker = .device p
  draft : ∀ c m, t = .openReal c m → Draft s m ∧ ∀ u ∈ s.tasks, drafted u ≠ some m

theorem Apart.touch (h : Apart s t) (ht : Touch (Next t) s s') : Apart s' t := by
  refine ⟨fun p v hv => ?_, fun c m hm => ⟨(h.draft c m hm).1.touch ht, fun u hu => ?_⟩⟩
  · refine h.video p v ?_
    cases ht with
    | objects ha => rwa [ha.video] at hv
    | _ => simpa using hv
  · have hold := (h.draft c m hm).2
    cases ht with
    | objects ha =>
      rw [Sys.tasks, ha.running, ha.runq, ha.io, ha.conds] at hu
      exact hold u hu
    | place w k hk =>
      obtain rfl | hu := Sys.mem_place hu
      · subst hm
        cases hk with
        | other h _ | own h _ =>
          rw [plain_drafted h]
          exact (Option.some_ne_none m).symm
        | begins h _ _ => exact absurd h id
      · exact hold u hu
    | signal w w' hs hw =>
      have herase : u ∈ s.conds.erase w → u ∈ s.conds := List.mem_of_mem_erase
      have hcases : u = w' ∨ u ∈ s.tasks := by
        simp [Sys.tasks] at hu ⊢
        tauto
      obtain rfl | hu := hcases
      · cases hs <;> rintro ⟨⟩
      · exact hold u hu
    | _ => exact hold u hu

theorem Apart.touched (h : Apart s t) (ht : Touched (Next t) s s') : Apart s' t := by
  induction ht with
  | refl => exact h
  | tail _ ht ih => exact ih.touch ht

/-- The special change of a coroutine that does not receive. -/
theorem Owned.special (h : Owned l s) (hr : ¬ Receives t) (hh : InHand l s t) (ha : Apart s t)
    (hs : Special t s s') : Owned (allocated (some t) s s' ++ l) s' ∧ InHand (allocated (some t) s s' ++ l) s' t := by
  -- what the special changes of the others allocate is not traced
  have hnone (hx : allocated (some t) s s' = []) (ho : Owned l s') (hi : InHand l s' t) :
      Owned (allocated (some t) s s' ++ l) s' ∧ InHand (allocated (some t) s s' ++ l) s' t := by
    rw [hx]
    exact ⟨ho, hi⟩
  cases hs with
  | session | client =>
    refine hnone (allocated_same rfl) (h.alike ⟨rfl, rfl, rfl, rfl⟩ fun _ => .inl) (inHand_none rfl nofun)
  | header | body => exact absurd trivial hr
  | @frame _ p hdr buf hdr' bytes =>
    exact hnone (allocated_same rfl) (h.newMsg (.frame p) hdr' fun b hb => hh.buf b hb) ⟨hh.buf, nofun⟩
  | @answer _ p hdr buf v bytes f hv href hbody =>
    have hmaker := ha.video p v hv
    have hclient {x : MsgPtr} (hx : ∃ c, x.maker = .client c) : x ≠ v := by
      rintro rfl
      obtain ⟨c, hc⟩ := hx
      exact nomatch hc.symm.trans hmaker
    have hv (y) (hy : y ∈ l) : y.2 ≠ v := hclient (h.born y hy).2.2
    refine hnone (allocated_same rfl) (.write (h.free fun b hb => ⟨h.bodies v b hb, fun y hy he => ?_⟩)
      href (fun b hb => ?_) hv
      fun t ht hd => ?_) ⟨hh.buf, nofun⟩
    · exact hv y hy (h.only y hy v (he ▸ hb)).symm
    · have hb : (f (s.msg v)).body.buf = some b := hb
      rw [hbody] at hb
      exact hh.buf b hb
    · exact hclient ((h.tasks t ht).draft v hd).maker rfl
  | @beat _ p count hdr =>
    exact hnone (allocated_same rfl) (h.newMsg (.device p) hdr nofun) (inHand_none rfl nofun)
  | @opened _ p hdr bytes =>
    refine hnone ?_ ((h.newBody (.device p) hdr bytes).alike ⟨rfl, rfl, rfl, rfl⟩ fun _ => .inl) (inHand_none rfl nofun)
    exact if_neg (Nat.succ_ne_self s.bufs)
  | @request _ c hdr bytes =>
    have hx : allocated (some (.cuHeader c)) s (s.newBuf.newMsg (s.fresh (.client c)) hdr (.held s.bufs bytes)) =
        [(s.bufs, s.fresh (.client c))] := if_neg (Nat.succ_ne_self s.bufs)
    rw [hx]
    exact ⟨h.request c hdr bytes, inHand_none rfl nofun⟩
  | @empty _ c hdr => exact hnone (allocated_same rfl) (h.newMsg (.client c) hdr nofun) (inHand_none rfl nofun)
  | @copy _ c m bytes f h0 href hbody =>
    have hx : allocated (some (.openReal c m)) s (s.newBuf.modMsg m f) = [(s.bufs, m)] :=
      if_neg (Nat.succ_ne_self s.bufs)
    rw [hx]
    obtain ⟨hd, hone⟩ := ha.draft c m rfl
    exact ⟨h.copy hd hone h0 href hbody, inHand_none rfl nofun⟩

/-- **A coroutine that does not receive keeps the bodies owned.** -/
theorem passed_owned (h : Owned l s) (hr : ¬ Receives t) (hh : InHand l s t) (ha : Apart s t)
    (hp : Passed t s s') : Owned (allocated (some t) s s' ++ l) s' := by
  cases hp with
  | plain ht =>
    exact (h.touched hr hh ht).1.unallocated (touched_bufs ht)
  | @once s₁ s₂ ht hs ht' =>
    obtain ⟨h₁, hh₁⟩ := h.touched hr hh ht
    obtain ⟨h₂, hh₂⟩ := h₁.special hr hh₁ (ha.touched ht) hs
    have hsame : allocated (some t) s s' = allocated (some t) s₁ s₂ := by
      simp only [allocated, touched_bufs ht, touched_bufs ht', touched_fresh ht]
    rw [hsame]
    exact (h₂.touched hr hh₂ ht').1

/-! ### Steps -/

theorem Owned.place (h : Owned l s) (hf : Fine l s t) : Owned l (s.place t k) :=
  h.alike place_alike fun _ hw => (Sys.mem_place hw).elim (fun he => .inr (he ▸ hf)) .inl

/-- Nothing happens to the bodies when a coroutine that does not receive has gone on. -/
theorem Owned.via {B : Prop} {o : Outcome} (h : Owned l s) (hr : ¬ Receives t) (hh : InHand l s t)
    (hv : Via (Next t) B s o) : Owned l (Sys.ended o) ∧ (Sys.ended o).bufs = s.bufs := by
  obtain ⟨s₁, ht, ho⟩ := hv.ended
  have hbufs : s₁.bufs = s.bufs := touched_bufs ht
  obtain rfl | ⟨e, rfl, -⟩ := ho
  · exact ⟨(h.touched hr hh ht).1, hbufs⟩
  · exact ⟨(h.touched hr hh ht).1.alike ⟨rfl, rfl, rfl, rfl⟩ fun _ => .inl, hbufs⟩

theorem puHeader_owned {p : PuPtr} (h : Owned l s) : Owned l (Sys.ended (s.resume r (.puHeader p))) := by
  have hplain (u : Task) (hu : Plain u) : Owned l (s.place u .running) := h.place (fine_plain hu)
  simp only [Sys.resume]
  split
  next raw =>
    unfold Sys.puOnHeader
    split_ifs
    · exact hplain (.puRecv p) ⟨rfl, rfl, rfl⟩
    · exact hplain (.puClose p) ⟨rfl, rfl, rfl⟩
    · refine h.newBuf.place (t := .puLoad p (transferIn raw) s.bufs) (k := .running) ⟨fun b hb => ?_, by rintro m ⟨⟩⟩
      obtain rfl := Option.some.inj hb
      exact ⟨Nat.lt_succ_self _, fun y hy => (h.born y hy).1.ne⟩
  · exact hplain (.puClose p) ⟨rfl, rfl, rfl⟩

theorem cuBody_owned (c : CuPtr) (hdr : Header) (m : MsgPtr) (h : Owned l s) (hr : ∀ bytes, r ≠ .body bytes) :
    Owned l (Sys.ended (s.resume r (.cuBody c hdr m))) ∧ (Sys.ended (s.resume r (.cuBody c hdr m))).bufs = s.bufs := by
  -- any point will do that does not receive
  have hclose : ¬ Receives (.cuClose c) ∧ InHand l s (.cuClose c) := ⟨id, inHand_none rfl nofun⟩
  simp only [Sys.resume]
  split
  · exact h.via hclose.1 hclose.2 (B := False) (via_block (.other ⟨rfl, rfl, rfl⟩ rfl))
  next bytes => exact absurd rfl (hr bytes)
  · exact h.via hclose.1 hclose.2 (B := False) via_cuGiveUp

theorem puHeader_allocated {p : PuPtr} : allocated (some (.puHeader p)) s s' = [] := by
  unfold allocated
  split <;> rfl

/-- The message of a request is in no other hand. -/
theorem Sound.one_draft {H : Hand} (hs : Sound H s) (hrun : s.running = some t) (ht : drafted t = some m)
    (hu : u ∈ s.runq ++ s.io ++ s.conds) : drafted u ≠ some m := by
  intro hd
  have hgrants {t : Task} (ht : drafted t = some m) : draft m ∈ grants t := by
    cases t <;> simp [drafted] at ht <;> simp [grants, ht]
  have hcount : 1 ≤ (held grants (s.runq ++ s.io ++ s.conds)).count (draft m) :=
    Multiset.one_le_count_iff_mem.2 (mem_held.2 ⟨u, hu, hgrants hd⟩)
  have hcount' : 1 ≤ (grants t).count (draft m) := Multiset.one_le_count_iff_mem.2 (hgrants ht)
  have hle : (H + tokens s).count (draft m) ≤ 1 := by
    obtain h | h := hs.balanced.draft m <;> omega
  rw [tokens, held_tasks, hrun] at hle
  simp only [held_append, Option.toList_some, held_cons, held_nil, Multiset.count_add] at hcount hle
  omega

theorem Owned.go {H : Hand} (h : Owned l s) (hs : Sound H s) (hrun : s.running = some t)
    (he : s.step (.go r) = some s') (hr : ∀ c hdr m bytes, t = .cuBody c hdr m → r ≠ .body bytes) :
    Owned (allocated s.running s s' ++ l) s' := by
  have hmem : t ∈ s.tasks := by simp [Sys.tasks, hrun]
  have hfine := h.tasks t hmem
  have hrest {u : Task} (hu : u ∈ Sys.tasks { s with running := none }) : u ∈ s.runq ++ s.io ++ s.conds := by
    simpa [Sys.tasks] using hu
  have hold : Owned l { s with running := none } := h.alike ⟨rfl, rfl, rfl, rfl⟩ fun u hu => .inl (by
    have := hrest hu
    simp [Sys.tasks] at this ⊢
    tauto)
  rw [hrun]
  by_cases hreceives : Receives t
  · simp only [Sys.step, hrun] at he
    have hstop : Owned l (Sys.ended (Sys.stop { s with running := none } .dead)) :=
      hold.alike ⟨rfl, rfl, rfl, rfl⟩ fun _ => .inl
    split at he
    · obtain rfl := Option.some.inj he
      exact hstop.unallocated rfl
    · obtain rfl := Option.some.inj he
      cases t with
      | puHeader p =>
        rw [puHeader_allocated]
        exact puHeader_owned hold
      | cuBody c hdr m =>
        obtain ⟨ho, hb⟩ := cuBody_owned c hdr m hold fun bytes => hr c hdr m bytes rfl
        exact ho.unallocated hb
      | _ => exact absurd hreceives id
  · obtain ⟨s₁, hpassed, hend⟩ := go_comes hrun he
    have hhand : InHand l { s with running := none } t := by
      refine ⟨hfine.buf, fun c hdr m ht => ?_⟩
      obtain ⟨h1, h2, h3⟩ := hfine.draft m (ht ▸ rfl)
      exact ⟨h1, h2, h3⟩
    have hapart : Apart { s with running := none } t := by
      refine ⟨hs.made.video, fun c m ht => ?_⟩
      have hd : drafted t = some m := ht ▸ rfl
      obtain ⟨h1, h2, h3⟩ := hfine.draft m hd
      exact ⟨⟨h1, h2, h3⟩, fun u hu => Sound.one_draft hs hrun hd (hrest hu)⟩
    have ho := passed_owned hold hreceives hhand hapart hpassed
    obtain rfl | ⟨e, rfl, -⟩ := hend
    · exact ho
    · exact ho.alike ⟨rfl, rfl, rfl, rfl⟩ fun _ => .inl

/-! ### Runs -/

theorem owned_start : Owned [] Sys.start := by
  refine ⟨nofun, nofun, nofun, fun t ht => ?_, nofun, nofun⟩
  obtain rfl := List.mem_singleton.1 ht
  exact fine_none rfl rfl

theorem Owned.step {H : Hand} (h : Owned l s) (hs : Sound H s) (he : s.step e = some s')
    (hpart : Partial ⟨s, l⟩ e) : Owned (allocated s.running s s' ++ l) s' := by
  cases e with
  | deliver t =>
    simp only [Sys.step] at he
    split at he
    next hd =>
      obtain rfl := Option.some.inj he
      refine .unallocated (s := s) ?_ rfl
      refine h.alike ⟨rfl, rfl, rfl, rfl⟩ fun u hu => .inl ?_
      have herase : u ∈ s.io.erase t → u ∈ s.io := List.mem_of_mem_erase
      simp [Sys.tasks] at hu ⊢
      obtain hu | hu | rfl | hu | hu := hu <;> tauto
    next => cases he
  | schedule =>
    simp only [Sys.step] at he
    split at he
    next t runq hrun hq =>
      obtain rfl := Option.some.inj he
      refine .unallocated (s := s) ?_ rfl
      refine h.alike ⟨rfl, rfl, rfl, rfl⟩ fun u hu => .inl ?_
      simp [Sys.tasks, hrun, hq] at hu ⊢
      tauto
    next => cases he
  | go r =>
    cases hrun : s.running with
    | none => simp [Sys.step, hrun] at he
    | some t =>
      rw [← hrun]
      refine h.go hs hrun he fun c hdr m bytes ht hr => ?_
      subst ht hr
      exact Bool.noConfusion (hpart _ hrun)

/-- **Each body is freed once**, with the message that holds it, as long as no request is read to its end. -/
theorem bodies_freed {x : Traced} (h : ReachVia traced Partial x) : FreedOnce x := by
  have howned : Owned x.bodies x.sys ∧ Reach machine x.sys := by
    refine h.invariant (I := fun x => Owned x.bodies x.sys ∧ Reach machine x.sys) ?_ ?_
    · rintro ⟨s, l⟩ ⟨rfl, rfl⟩
      exact ⟨owned_start, .init rfl⟩
    · rintro ⟨s, l⟩ e ⟨ho, hreach⟩ he hpart
      obtain ⟨H, hs, -⟩ := reach_sound hreach
      obtain ⟨s', hs'⟩ := Option.isSome_iff_exists.1 he.2
      have happly : machine.apply s e = s' := by simp [machine, hs']
      refine ⟨?_, .step hreach he trivial⟩
      simp only [traced, happly]
      exact ho.step hs hs' hpart
  exact howned.1.freedOnce

/-- A client sends a heartbeat with a body of four bytes, and the header arrives. -/
def heartbeatRun : List Event :=
  clientRun ++ wake (.cuHeader 0) (.header (transferIn ⟨hmcmdHeartbeat, 4, 0, 0⟩)) ++ [.go .done]

/-- The connection breaks before the body has arrived. -/
def cutRun : List Event :=
  heartbeatRun ++ wake (.cuBody 0 ⟨hmcmdHeartbeat, 4, 0, 0⟩ request) .failed

/-- The body arrives, and the heartbeat is answered. -/
def wholeRun : List Event :=
  heartbeatRun ++ wake (.cuBody 0 ⟨hmcmdHeartbeat, 4, 0, 0⟩ request) (.body [1, 2, 3, 4]) ++ [.go .done, .go .done] ++
    next ++ [.go .done] ++ wake (.cuWrite 0 (Sent.encode ⟨request, ⟨0x80000000 ||| hmcmdHeartbeat, 0, 0, 0⟩, []⟩ 0)
      request []) .done

instance decidableTraced (x : Traced) (e : Event) : Decidable (traced.enabled x e) :=
  inferInstanceAs (Decidable (machine.enabled x.sys e))

instance decidablePartial (x : Traced) (e : Event) : Decidable (Partial x e) :=
  inferInstanceAs (Decidable (∀ t ∈ x.sys.running, readsWhole t e = false))

theorem traced_start : traced.init ⟨Sys.start, []⟩ := ⟨rfl, rfl⟩

theorem cutRun_freed : ∃ x, x = cutRun.foldl traced.apply ⟨Sys.start, []⟩ ∧ FreedOnce x :=
  ⟨_, rfl, bodies_freed ((ReachVia.init traced_start).foldl cutRun (by decide +kernel))⟩

/-- **A body that has been read to its end is freed twice**, by `handle_recv` and with its message. -/
theorem body_freed_twice : ¬ ∀ x, Reach traced x → FreedOnce x := by
  intro h
  have hreach : Reach traced (wholeRun.foldl traced.apply ⟨Sys.start, []⟩) :=
    (ReachVia.init traced_start).foldl wholeRun (by decide +kernel)
  have hmem : (1, request) ∈ (wholeRun.foldl traced.apply ⟨Sys.start, []⟩).bodies := by decide +kernel
  have htwice : (wholeRun.foldl traced.apply ⟨Sys.start, []⟩).sys.log.frees.count 1 = 2 := by decide +kernel
  exact absurd (htwice ▸ ((h _ hreach).once _ hmem).1) (by decide)

end StNvs.Server.Bodies
