import StNvs.Server.Touches

/-! # Late references

`heart_thread` and `handle_open_video` are created without a reference and take theirs when they first run, and
`_real_video_cmd` is null until the latter has run. That is safe because of the order of the run queue
(`Ordered`): who has a reference when they are created is still there when they run, for a call only completes,
and a sleeper only expires, when nobody is left in the queue.

`late_safe` is the result, for all runs. -/

namespace StNvs.Server.Late

open StNvs.Lib.Holders StNvs.Lib.Runs StNvs.Server.Proto StNvs.Server.Model StNvs.Server.References
open StNvs.Server.Counts StNvs.Server.Rights StNvs.Server.Messages StNvs.Server.Steps StNvs.Server.Parting
open StNvs.Server.Registry StNvs.Server.Touches Function Token

variable {s s' s₁ : Sys} {p : PuPtr} {c : CuPtr} {t u : Task} {k : Spot} {r : Result} {e : Event}

/-! ### What is safe -/

/-- The null pointer that a coroutine meets is none of `_real_video_cmd`. -/
def Elsewhere (s : Sys) : Task → Prop
  | .handshake _ sn => sn = none
  | .login sn _ => s.deviceMap sn = none
  | .openReal c _ | .leave c _ => (s.cu c).puProxy = none
  | _ => False

/-- References are taken while there is one, no coroutine of a device goes on when its object has been deleted,
and neither `handle_recv` nor the destructor finds `_real_video_cmd` null. -/
structure Safe (s : Sys) : Prop where
  add : ∀ p, s.running = some (.heart p) ∨ s.running = some (.openVideo p) → 1 ≤ (s.pu p).ref
  alive : ∀ t p, s.running = some t → device t = some p → (s.pu p).ref ≠ 0
  receiver : ∀ p hdr buf, s.running = some (.puBody p hdr buf) → (s.pu p).video ≠ none
  null : ∀ t r s', s.running = some t → s.step (.go r) = some s' → s'.fault = some .null → Elsewhere s t

/-! ### The order of the run queue -/

/-- Who will run before a call completes or a sleeper expires, in this order. -/
def line (s : Sys) : List Task := s.running.toList ++ s.runq

/-- What the order is good for: `opens` says that a session has set `_real_video_cmd` or somebody in the line
will; `heart` and `beat` name who holds a reference when these take theirs. -/
structure Ordered (s : Sys) : Prop where
  opens : ∀ t ∈ s.tasks, ∀ p, session t = some p → (s.pu p).video = none → ∃ u ∈ line s, young u = some p
  idle : s.idle → s.running = none ∧ ∀ u ∈ s.runq, young u = none
  io : ∀ u ∈ s.io, young u = none
  reads : ∀ u ∈ line s, ∀ p, reading u = some p → (s.pu p).video ≠ none
  heart : ∀ l₁ l₂ p, line s = l₁ ++ .heart p :: l₂ → .puWait p ∈ s.conds ∨ .puNotified p ∈ l₂
  beat : ∀ p, .openVideo p ∈ line s → ∃ n, .beat p n ∈ s.io
  clients : ∀ p, .client p ∈ s.tasks → (s.pu p).video ≠ none
  proxies : ∀ c p, (s.cu c).puProxy = some p → (s.pu p).video ≠ none
  born : ∀ p, (s.pu p).video ≠ none → p < s.pus

theorem session_reading (h : reading t = some p) : session t = some p := by
  cases t <;> first | exact h | cases h

theorem mem_line : t ∈ line s ↔ s.running = some t ∨ t ∈ s.runq := by
  simp [line]

/-! ### Going on -/

/-- What a coroutine that goes on at `t`, and does not begin a session, does to the queue: it adds `q`. -/
structure Onward (t : Task) (s : Sys) (q : List Task) (s' : Sys) : Prop where
  idle : s'.idle = s.idle
  runq : s'.runq = s.runq ++ q
  queued : ∀ u ∈ q, young u = none ∧ reading u = none
  running : ∀ u, s'.running = some u → s.running = some u ∨ young u = none ∧ (reading u = none ∨ reading u = reading t)
  io : ∀ u ∈ s.io, u ∈ s'.io
  posted : ∀ u ∈ s'.io, u ∈ s.io ∨ young u = none
  wait : ∀ p, .puWait p ∈ s.conds → .puWait p ∈ s'.conds ∨ .puNotified p ∈ q
  session : ∀ u ∈ s'.tasks, ∀ p, session u = some p → (∃ w ∈ s.tasks, session w = some p) ∨ session t = some p
  video : ∀ p, (s.pu p).video ≠ none → (s'.pu p).video ≠ none
  clients : ∀ p, .client p ∈ s'.tasks → .client p ∈ s.tasks ∨ (s'.pu p).video ≠ none
  proxies : ∀ c p, (s'.cu c).puProxy = some p → (s.cu c).puProxy = some p ∨ t = .client p
  born : ∀ p, (s'.pu p).video ≠ none → p < s'.pus
  pus : s.pus ≤ s'.pus

/-- The coroutines and their order are as they were. -/
structure Still (s s' : Sys) : Prop where
  running : s'.running = s.running
  runq : s'.runq = s.runq
  idle : s'.idle = s.idle
  io : s'.io = s.io
  conds : s'.conds = s.conds

variable {q : List Task}

theorem Still.tasks (h : Still s s') : s'.tasks = s.tasks := by
  rw [Sys.tasks, Sys.tasks, h.running, h.runq, h.io, h.conds]

/-- A change that leaves the coroutines where they are. -/
theorem Onward.still (h : Onward t s q s₁) (hs : Still s₁ s')
    (hv : ∀ p, (s₁.pu p).video ≠ none → (s'.pu p).video ≠ none)
    (hproxies : ∀ c p, (s'.cu c).puProxy = some p → (s₁.cu c).puProxy = some p ∨ t = .client p)
    (hborn : ∀ p, (s'.pu p).video ≠ none → p < s'.pus) (hpus : s₁.pus ≤ s'.pus) : Onward t s q s' where
  idle := hs.idle.trans h.idle
  runq := hs.runq.trans h.runq
  queued := h.queued
  running u hu := h.running u (hs.running ▸ hu)
  io u hu := hs.io.symm ▸ h.io u hu
  posted u hu := h.posted u (hs.io ▸ hu)
  wait p hp := hs.conds.symm ▸ h.wait p hp
  session u hu := h.session u (hs.tasks ▸ hu)
  video p hp := hv p (h.video p hp)
  clients p hp := (h.clients p (hs.tasks ▸ hp)).imp_right (hv p)
  proxies c p hp := (hproxies c p hp).elim (h.proxies c p) .inr
  born := hborn
  pus := h.pus.trans hpus

/-! ### Where a coroutine can come to -/

theorem plain_calm (h : Plain u) : young u = none ∧ reading u = none := by
  cases u <;> first | exact absurd h id | exact ⟨rfl, rfl⟩ | exact ⟨h.1, h.2.1⟩

theorem next_young (hb : ¬ Begins t) (h : Next t s u k) : young u = none := by
  cases h with
  | other h _ | own h _ => exact (plain_calm h).1
  | begins h _ _ => exact absurd h hb
  | _ => rfl

theorem next_session (hb : ¬ Begins t) (h : Next t s u k) : session u = none ∨ session u = session t := by
  cases h with
  | other _ h => exact .inl h
  | own _ h => exact .inr h
  | begins h _ _ => exact absurd h hb
  | client _ => exact .inl rfl
  | _ => exact .inr rfl

theorem next_runq (hb : ¬ Begins t) (h : Next t s u .runq) : young u = none ∧ reading u = none := by
  cases h with
  | other h _ | own h _ => exact plain_calm h
  | begins h _ _ => exact absurd h hb
  | request => exact ⟨rfl, rfl⟩

theorem next_running (hb : ¬ Begins t) (h : Next t s u .running) : reading u = none ∨ reading u = reading t := by
  cases h with
  | other h _ | own h _ => exact .inl (plain_calm h).2
  | begins h _ _ => exact absurd h hb
  | _ => exact .inr rfl

theorem next_client (hb : ¬ Begins t) (h : Next t s (.client p) k) : (s.pu p).video ≠ none := by
  cases h with
  | other h _ | own h _ => exact absurd h id
  | begins h _ _ => exact absurd h hb
  | client h => exact h

theorem calm_signals (h : Signals t u) : young u = none ∧ reading u = none := by
  cases h <;> exact ⟨rfl, rfl⟩

theorem session_signals (h : Signals t u) : session u = session t := by
  cases h <;> rfl

theorem Onward.place (h : Onward t s q s₁) (hb : ¬ Begins t) (hk : Next t s₁ u k) :
    ∃ q, Onward t s q (s₁.place u k) := by
  have hkept {q' : List Task} (hrunq : (s₁.place u k).runq = s.runq ++ q')
      (hqueued : ∀ w ∈ q', young w = none ∧ reading w = none)
      (hwait : ∀ p, .puWait p ∈ s.conds → .puWait p ∈ (s₁.place u k).conds ∨ .puNotified p ∈ q') :
      Onward t s q' (s₁.place u k) := by
    refine ⟨?_, hrunq, hqueued, fun w hw => ?_, fun w hw => ?_, fun w hw => ?_, hwait, fun w hw p hp => ?_, ?_,
      fun p hp => ?_, ?_, ?_, ?_⟩
    · cases k <;> exact h.idle
    · cases k with
      | running =>
        obtain rfl := Option.some.inj hw
        exact .inr ⟨next_young hb hk, next_running hb hk⟩
      | _ => exact h.running w hw
    · have hio := h.io w hw
      cases k <;> simp [Sys.place, hio]
    · have hio := h.posted w
      cases k with
      | io =>
        obtain hw | hw := List.mem_append.1 hw
        · exact hio hw
        · exact .inr (List.mem_singleton.1 hw ▸ next_young hb hk)
      | _ => exact hio hw
    · obtain rfl | hw := Sys.mem_place hw
      · obtain hn | hn := next_session hb hk
        · exact absurd (hp.symm.trans hn) (Option.some_ne_none p)
        · exact .inr (hn ▸ hp)
      · exact h.session w hw p hp
    · simpa using h.video
    · obtain rfl | hp := Sys.mem_place hp
      · exact .inr (by simpa using next_client hb hk)
      · simpa using h.clients p hp
    · simpa using h.proxies
    · simpa using h.born
    · simpa using h.pus
  cases k with
  | runq =>
    refine ⟨q ++ [u], hkept ?_ (fun w hw => ?_) fun p hp => ?_⟩
    · simp [Sys.place, h.runq]
    · obtain hw | hw := List.mem_append.1 hw
      · exact h.queued w hw
      · exact List.mem_singleton.1 hw ▸ next_runq hb hk
    · exact (h.wait p hp).imp id (List.mem_append_left [u])
  | conds => exact ⟨q, hkept h.runq h.queued fun p hp => (h.wait p hp).imp_left (List.mem_append_left [u])⟩
  | _ => exact ⟨q, hkept h.runq h.queued h.wait⟩

theorem Onward.signal (h : Onward t s q s₁) {w : Task} (hs : Signals u w) (hu : u ∈ s₁.conds) :
    Onward t s (q ++ [w]) { s₁ with conds := s₁.conds.erase u, runq := s₁.runq ++ [w] } := by
  have hmem {x : Task} (hx : x ∈ Sys.tasks { s₁ with conds := s₁.conds.erase u, runq := s₁.runq ++ [w] }) :
      x = w ∨ x ∈ s₁.tasks := by
    have herase : x ∈ s₁.conds.erase u → x ∈ s₁.conds := List.mem_of_mem_erase
    simp [Sys.tasks] at hx ⊢
    tauto
  have hmem' : u ∈ s₁.tasks := by simp [Sys.tasks, hu]
  refine ⟨h.idle, ?_, fun x hx => ?_, h.running, h.io, h.posted, fun p hp => ?_, fun x hx p hp => ?_, h.video,
    fun p hp => ?_, h.proxies, h.born, h.pus⟩
  · simp [h.runq]
  · obtain hx | hx := List.mem_append.1 hx
    · exact h.queued x hx
    · exact List.mem_singleton.1 hx ▸ calm_signals hs
  · obtain hp | hp := h.wait p hp
    · obtain rfl | hne := eq_or_ne u (.puWait p)
      · cases hs
        exact .inr (by simp)
      · exact .inl ((List.mem_erase_of_ne hne.symm).2 hp)
    · exact .inr (List.mem_append_left [w] hp)
  · obtain rfl | hx := hmem hx
    · exact h.session u hmem' p (session_signals hs ▸ hp)
    · exact h.session x hx p hp
  · obtain rfl | hp := hmem hp
    · cases hs
    · exact h.clients p hp

/-- What is special about a point leaves the coroutines where they are. -/
theorem special_still (h : Special t s s') : Still s s' := by
  cases h <;> exact ⟨rfl, rfl, rfl, rfl, rfl⟩

theorem Onward.special (h : Onward t s q s₁) (hopen : ∀ p, t = .openVideo p → p < s.pus)
    (hs : Special t s₁ s') : Onward t s q s' := by
  have hstill := special_still hs
  cases hs with
  | session sn =>
    have hnew (p : PuPtr) (hp : p ≠ s₁.pus) : ((s₁.newPu sn).pu p) = s₁.pu p := by simp [hp]
    refine h.still hstill (fun p hp => ?_) (fun _ _ => .inl) (fun p hp => ?_) (Nat.le_succ _)
    · rwa [hnew p (h.born p hp).ne]
    · obtain rfl | hne := eq_or_ne p s₁.pus
      · exact Nat.lt_succ_self _
      · exact (h.born p (hnew p hne ▸ hp)).trans (Nat.lt_succ_self _)
  | client =>
    refine h.still hstill (fun _ => id) (fun d p hp => ?_) h.born le_rfl
    obtain rfl | hd := eq_or_ne d s₁.cus
    · exact .inr (by simpa using hp)
    · exact .inl (by simpa [hd] using hp)
  | @opened _ x hdr bytes =>
    refine h.still hstill (fun p hp => ?_) (fun _ _ => .inl) (fun p hp => ?_) le_rfl
    · obtain rfl | hne := eq_or_ne p x
      · simp
      · simpa [hne] using hp
    · obtain rfl | hne := eq_or_ne p x
      · exact lt_of_lt_of_le (hopen p rfl) h.pus
      · exact h.born p (by simpa [hne] using hp)
  | _ => exact h.still hstill (fun _ => id) (fun _ _ => .inl) h.born le_rfl

theorem Onward.touched (h : Onward t s q s₁) (hb : ¬ Begins t) (ht : Touched (Next t) s₁ s') :
    ∃ q, Onward t s q s' := by
  induction ht with
  | refl => exact ⟨q, h⟩
  | tail _ ht ih =>
    obtain ⟨q, ih⟩ := ih
    cases ht with
    | objects h =>
      refine ⟨q, ih.still ⟨h.running, h.runq, h.idle, h.io, h.conds⟩ (fun p => ?_) (fun c p => .inl ∘ h.puProxy c p)
        (fun p => ?_) (le_of_eq h.pus.symm)⟩
      · rw [h.video]
        exact id
      · rw [h.video, h.pus]
        exact ih.born p
    | count m f _ _ | delete m _ =>
      exact ⟨q, ih.still ⟨rfl, rfl, rfl, rfl, rfl⟩ (fun _ => id) (fun _ _ => .inl) ih.born le_rfl⟩
    | place u k hk => exact ih.place hb hk
    | signal u w hs hu => exact ⟨q ++ [w], ih.signal hs hu⟩

theorem onward_refl (hborn : ∀ p, (s.pu p).video ≠ none → p < s.pus) : Onward t s [] s :=
  ⟨rfl, (List.append_nil _).symm, nofun, fun _ => .inl, fun _ => id, fun _ => .inl, fun _ => .inl,
    fun u hu _ hp => .inl ⟨u, hu, hp⟩, fun _ => id, fun _ => .inl, fun _ _ => .inl, hborn, le_rfl⟩

/-- **A coroutine that goes on adds to the queue.** -/
theorem passed_onward (hb : ¬ Begins t) (hborn : ∀ p, (s.pu p).video ≠ none → p < s.pus)
    (hopen : ∀ p, t = .openVideo p → p < s.pus) (h : Passed t s s') : ∃ q, Onward t s q s' := by
  cases h with
  | plain h => exact (onward_refl hborn).touched hb h
  | once h hs h' =>
    obtain ⟨q, ho⟩ := (onward_refl hborn).touched hb h
    exact (ho.special hopen hs).touched hb h'

/-! ### Steps -/

theorem mem_tasks_line : t ∈ s.tasks ↔ t ∈ line s ∨ t ∈ s.io ∨ t ∈ s.conds := by
  simp [Sys.tasks, line, or_assoc]

/-- When nobody is in the line who is yet to set `_real_video_cmd`, it is set. -/
theorem Ordered.video (h : Ordered s) (hnone : ∀ u ∈ line s, young u = none) (ht : t ∈ s.tasks)
    (hp : session t = some p) : (s.pu p).video ≠ none := fun hv => by
  obtain ⟨u, hu, hy⟩ := h.opens t ht p hp hv
  exact absurd ((hnone u hu).symm.trans hy) (Option.some_ne_none p).symm

theorem Ordered.deliver (h : Ordered s) (ht : t ∈ s.io) (hrun : s.running = none) (hq : s.runq = [] ∨ s.idle) :
    Ordered { s with io := s.io.erase t, runq := s.runq ++ [t], idle := true } := by
  have hold : ∀ u ∈ s.runq, young u = none := by
    obtain hq | hidle := hq
    · simp [hq]
    · exact (h.idle hidle).2
  have hnone : ∀ u ∈ line s, young u = none := fun u hu => hold u (by simpa [line, hrun] using hu)
  have hline : line { s with io := s.io.erase t, runq := s.runq ++ [t], idle := true } = s.runq ++ [t] := by
    simp [line, hrun]
  have hnone' : ∀ u ∈ s.runq ++ [t], young u = none := by
    simpa [or_imp, forall_and] using ⟨hold, h.io t ht⟩
  have hmem {u : Task} (hu : u ∈ Sys.tasks { s with io := s.io.erase t, runq := s.runq ++ [t], idle := true }) :
      u ∈ s.tasks := by
    have herase : u ∈ s.io.erase t → u ∈ s.io := List.mem_of_mem_erase
    simp [Sys.tasks] at hu ⊢
    obtain hu | hu | rfl | hu | hu := hu <;> tauto
  refine ⟨fun u hu p hp hv => absurd hv (h.video hnone (hmem hu) hp), fun _ => ⟨hrun, hnone'⟩,
    fun u hu => h.io u (List.mem_of_mem_erase hu), ?_, ?_, ?_, fun p hp => h.clients p (hmem hp), h.proxies, h.born⟩
  · rw [hline]
    intro u hu p hp
    obtain hu | hu := List.mem_append.1 hu
    · exact h.reads u (mem_line.2 (.inr hu)) p hp
    · obtain rfl := List.mem_singleton.1 hu
      exact h.video hnone (mem_tasks_line.2 (.inr (.inl ht))) (session_reading hp)
  · rw [hline]
    intro l₁ l₂ p hl
    exact absurd (hnone' (.heart p) (hl ▸ by simp)) (Option.some_ne_none p)
  · rw [hline]
    intro p hp
    exact absurd (hnone' _ hp) (Option.some_ne_none p)

theorem Ordered.schedule (h : Ordered s) {q : List Task} (hrun : s.running = none) (hq : s.runq = t :: q) :
    Ordered { s with running := some t, runq := q, idle := false } := by
  have hline : line { s with running := some t, runq := q, idle := false } = line s := by
    simp [line, hrun, hq]
  have hmem (u : Task) : u ∈ Sys.tasks { s with running := some t, runq := q, idle := false } ↔ u ∈ s.tasks := by
    rw [mem_tasks_line, mem_tasks_line, hline]
  refine ⟨fun u hu => ?_, nofun, h.io, ?_, ?_, ?_, fun p hp => h.clients p ((hmem _).1 hp), h.proxies, h.born⟩
  · rw [hline]
    exact h.opens u ((hmem u).1 hu)
  · rw [hline]
    exact h.reads
  · rw [hline]
    exact h.heart
  · rw [hline]
    exact h.beat

/-- A place in a list is in a part of it when what is there is in no other part. -/
theorem split_middle {l q l₁ l₂ : List Task} {o : Option Task} (h : o.toList ++ (l ++ q) = l₁ ++ u :: l₂)
    (ho : o ≠ some u) (hq : u ∉ q) : ∃ l₁' l₂', l = l₁' ++ u :: l₂' ∧ l₂ = l₂' ++ q := by
  rw [← List.append_assoc] at h
  obtain ⟨l₃, -, rfl⟩ | ⟨l₂', hl, hl₂⟩ := List.append_eq_append_iff.1 h
  · exact absurd (by simp) hq
  · cases l₂' with
    | nil => exact absurd (by rw [← List.nil_append q, ← hl₂]; simp) hq
    | cons x l₂' =>
      obtain ⟨rfl, rfl⟩ := List.cons.inj hl₂
      cases o with
      | none => exact ⟨l₁, l₂', hl, rfl⟩
      | some w =>
        cases l₁ with
        | nil => exact absurd (congrArg some (List.cons.inj hl).1) ho
        | cons y l₁ => exact ⟨l₁, l₂', (List.cons.inj hl).2, rfl⟩

theorem Ordered.onward (h : Ordered s) {q : List Task} (hrun : s.running = some t) (hb : ¬ Begins t)
    (ho : Onward t { s with running := none } q s') (hopen : ∀ p, t = .openVideo p → (s'.pu p).video ≠ none) :
    Ordered s' := by
  have hline : line s = t :: s.runq := by simp [line, hrun]
  have hline' : line s' = s'.running.toList ++ (s.runq ++ q) := by rw [line, ho.runq]
  have hnone {u : Task} (hu : s'.running = some u) : young u = none ∧ (reading u = none ∨ reading u = reading t) :=
    (ho.running u hu).resolve_left (Option.some_ne_none u ∘ Eq.symm)
  have hmem {u : Task} (hu : u ∈ Sys.tasks { s with running := none }) : u ∈ s.tasks := by
    simp [Sys.tasks] at hu ⊢
    tauto
  -- who is yet to set `_real_video_cmd` has not been added, and is not where the coroutine has come to
  have hyoung {u : Task} (hy : young u ≠ none) (hu : u ∈ line s') : u ∈ s.runq := by
    rw [hline', List.mem_append, List.mem_append, Option.mem_toList] at hu
    obtain hu | hu | hu := hu
    · exact absurd (hnone hu).1 hy
    · exact hu
    · exact absurd ((ho.queued u hu).1) hy
  refine ⟨fun u hu p hp hv => ?_, fun hidle => ?_, fun u hu => ?_, fun u hu p hp => ?_, fun l₁ l₂ p hl => ?_,
    fun p hp => ?_, fun p hp => ?_, fun c p hp => ?_, ho.born⟩
  · -- the session is not new
    have hv' : (s.pu p).video = none := by
      by_contra hne
      exact ho.video p hne hv
    obtain ⟨w, hw, hwp⟩ : ∃ w ∈ s.tasks, session w = some p := by
      obtain ⟨w, hw, hwp⟩ | htp := ho.session u hu p hp
      · exact ⟨w, hmem hw, hwp⟩
      · exact ⟨t, by simp [Sys.tasks, hrun], htp⟩
    obtain ⟨y, hy, hyp⟩ := h.opens w hw p hwp hv'
    rw [hline, List.mem_cons] at hy
    obtain rfl | hy := hy
    · cases y with
      | openVideo x =>
        obtain rfl := Option.some.inj hyp
        exact absurd hv (hopen x rfl)
      | puSend x | heart x => exact absurd trivial hb
      | _ => cases hyp
    · exact ⟨y, by rw [hline']; simp [hy], hyp⟩
  · exact absurd (hrun.symm.trans (h.idle (ho.idle ▸ hidle)).1) (Option.some_ne_none t)
  · exact (ho.posted u hu).elim (h.io u) id
  · refine ho.video p ?_
    rw [hline', List.mem_append, List.mem_append, Option.mem_toList] at hu
    obtain hu | hu | hu := hu
    · obtain hn | hn := (hnone hu).2
      · exact absurd (hp.symm.trans hn) (Option.some_ne_none p)
      · exact h.reads t (by simp [hline]) p (hn ▸ hp)
    · exact h.reads u (by simp [hline, hu]) p hp
    · exact absurd (hp.symm.trans ((ho.queued u hu).2)) (Option.some_ne_none p)
  · have hq : .heart p ∉ q := fun hq => absurd ((ho.queued _ hq).1) (Option.some_ne_none p)
    obtain ⟨l₁', l₂', hl', rfl⟩ := split_middle (hline' ▸ hl)
      (fun hw : s'.running = some (.heart p) => absurd (hnone hw).1 (Option.some_ne_none p)) hq
    obtain hw | hw := h.heart (t :: l₁') l₂' p (by rw [hline, hl']; rfl)
    · exact (ho.wait p hw).imp_right (List.mem_append_right l₂')
    · exact .inr (List.mem_append_left q hw)
  · obtain ⟨n, hn⟩ := h.beat p (by rw [hline]; exact List.mem_cons_of_mem t (hyoung (Option.some_ne_none p) hp))
    exact ⟨n, ho.io _ hn⟩
  · exact (ho.clients p hp).elim (fun hp => ho.video p (h.clients p (hmem hp))) id
  · obtain hp | rfl := ho.proxies c p hp
    · exact ho.video p (h.proxies c p hp)
    · exact ho.video p (h.clients p (by simp [Sys.tasks, hrun]))

/-! ### A session begins -/

/-- A coroutine at `t` has ended or waits, and the session has new ones: `q` to run, `i` asleep, `w` waiting. -/
structure Begun (t : Task) (s : Sys) (q i w : List Task) (s' : Sys) : Prop where
  running : s'.running = none
  runq : s'.runq = s.runq ++ q
  io : s'.io = s.io ++ i
  conds : s'.conds = s.conds ++ w
  idle : s'.idle = s.idle
  video : ∀ p, (s'.pu p).video = (s.pu p).video
  cu : s'.cu = s.cu
  pus : s'.pus = s.pus
  queued : ∀ u ∈ q, reading u = none
  asleep : ∀ u ∈ i, young u = none
  client : ∀ p, .client p ∉ q ++ i ++ w
  opens : ∀ u ∈ q ++ i ++ w, ∀ p, session u = some p → ∃ y ∈ q, young y = some p
  next : ∀ p, young t = some p → ∃ y ∈ q, young y = some p
  heart : ∀ p, .heart p ∈ q → .puWait p ∈ w
  beat : ∀ p, .openVideo p ∈ q → ∃ n, .beat p n ∈ i

theorem Ordered.begun (h : Ordered s) {q i w : List Task} (hrun : s.running = some t) (hb : Begun t s q i w s') :
    Ordered s' := by
  have hline : line s = t :: s.runq := by simp [line, hrun]
  have hline' : line s' = s.runq ++ q := by simp [line, hb.running, hb.runq]
  have hmem {u : Task} (hu : u ∈ s'.tasks) : u ∈ s.tasks ∨ u ∈ q ++ i ++ w := by
    simp [Sys.tasks, hb.running, hb.runq, hb.io, hb.conds] at hu ⊢
    tauto
  refine ⟨fun u hu p hp hv => ?_, fun hidle => ?_, fun u hu => ?_, fun u hu p hp => ?_, fun l₁ l₂ p hl => ?_,
    fun p hp => ?_, fun p hp => ?_, fun c p hp => ?_, fun p hp => ?_⟩
  · rw [hline']
    obtain hu | hu := hmem hu
    · obtain ⟨y, hy, hyp⟩ := h.opens u hu p hp (hb.video p ▸ hv)
      rw [hline, List.mem_cons] at hy
      obtain rfl | hy := hy
      · obtain ⟨y', hy', hyp'⟩ := hb.next p hyp
        exact ⟨y', List.mem_append_right _ hy', hyp'⟩
      · exact ⟨y, List.mem_append_left q hy, hyp⟩
    · obtain ⟨y, hy, hyp⟩ := hb.opens u hu p hp
      exact ⟨y, List.mem_append_right _ hy, hyp⟩
  · exact absurd (hrun.symm.trans (h.idle (hb.idle ▸ hidle)).1) (Option.some_ne_none t)
  · rw [hb.io] at hu
    exact (List.mem_append.1 hu).elim (h.io u) (hb.asleep u)
  · rw [hb.video]
    rw [hline'] at hu
    obtain hu | hu := List.mem_append.1 hu
    · exact h.reads u (by simp [hline, hu]) p hp
    · exact absurd (hp.symm.trans (hb.queued u hu)) (Option.some_ne_none p)
  · -- the heart is one of the old ones, or the new one
    have hnew (hq : .heart p ∈ q) : .puWait p ∈ s'.conds ∨ .puNotified p ∈ l₂ :=
      .inl (hb.conds ▸ List.mem_append_right _ (hb.heart p hq))
    rw [hline'] at hl
    obtain ⟨l₃, -, rfl⟩ | ⟨l₃, hl₁, hl₂⟩ := List.append_eq_append_iff.1 hl
    · exact hnew (by simp)
    · cases l₃ with
      | nil => exact hnew (by rw [← List.nil_append q, ← hl₂]; simp)
      | cons x l₃ =>
        obtain ⟨rfl, rfl⟩ := List.cons.inj hl₂
        obtain hw | hw := h.heart (t :: l₁) l₃ p (by rw [hline, hl₁]; rfl)
        · exact .inl (hb.conds ▸ List.mem_append_left w hw)
        · exact .inr (List.mem_append_left q hw)
  · rw [hline'] at hp
    rw [hb.io]
    obtain hp | hp := List.mem_append.1 hp
    · obtain ⟨n, hn⟩ := h.beat p (by simp [hline, hp])
      exact ⟨n, List.mem_append_left i hn⟩
    · obtain ⟨n, hn⟩ := hb.beat p hp
      exact ⟨n, List.mem_append_right _ hn⟩
  · rw [hb.video]
    exact h.clients p ((hmem hp).resolve_right (hb.client p))
  · rw [hb.video]
    exact h.proxies c p (hb.cu ▸ hp)
  · rw [hb.pus]
    exact h.born p (hb.video p ▸ hp)

/-- `run` has created the receiver and the sender. -/
theorem login_begun {sn : String} {made : PuPtr}
    (he : Sys.runDevice { s with running := none } sn = .ok s') :
    ∃ p, Begun (.login sn made) s [.puRecv p, .puSend p] [] [] s' := by
  unfold Sys.runDevice at he
  split at he
  · cases he
  next p hp =>
    obtain ⟨s₁, h₁, he⟩ := bind_ok he
    obtain ⟨s₂, h₂, he⟩ := bind_ok he
    obtain ⟨s₃, h₃, he⟩ := bind_ok he
    obtain ⟨rfl, -⟩ := callPu_ok h₁
    obtain ⟨rfl, -⟩ := callPu_ok h₂
    obtain ⟨rfl, -⟩ := callPu_ok h₃
    unfold Sys.releasePu at he
    split at he
    · cases he
    · split at he
      next h1 => simp [Sys.puRun, Sys.fork, Sys.addPu] at h1
      next =>
        obtain rfl := Except.ok.inj he
        refine ⟨p, rfl, ?_, (List.append_nil _).symm, (List.append_nil _).symm, rfl, fun x => ?_, rfl, rfl, ?_,
          by rintro q ⟨⟩, ?_, ?_, by rintro q ⟨⟩, ?_, ?_⟩
        · exact List.append_assoc ..
        · obtain rfl | hx := eq_or_ne x p
          · simp [Sys.puRun, Sys.fork, Sys.addPu]
          · simp [Sys.puRun, Sys.fork, Sys.addPu, hx]
        · simp [reading]
        · simp
        · simp [session, device, young]
        · simp
        · simp

/-- `handle_send` has created `heart_thread`, and waits. -/
theorem puSend_begun : Begun (.puSend p) s [.heart p] [] [.puWait p]
    { s with running := none, runq := s.runq ++ [.heart p], conds := s.conds ++ [.puWait p] } := by
  refine ⟨rfl, rfl, (List.append_nil _).symm, rfl, rfl, fun _ => rfl, rfl, rfl, ?_, nofun, ?_, ?_, ?_, ?_, ?_⟩
  all_goals simp [reading, session, device, young]

/-- `heart_thread` has created `handle_open_video`, and sleeps with its reference. -/
theorem heart_begun : Begun (.heart p) s [.openVideo p] [.beat p 1] []
    { s.addPu p with running := none, runq := s.runq ++ [.openVideo p], io := s.io ++ [.beat p 1] } := by
  refine ⟨rfl, rfl, rfl, (List.append_nil _).symm, rfl, fun x => ?_, rfl, rfl, ?_, ?_, ?_, ?_, ?_, ?_, ?_⟩
  · obtain rfl | hx := eq_or_ne x p
    · simp [Sys.addPu]
    · simp [Sys.addPu, hx]
  all_goals simp [reading, session, device, young]

/-! ### Runs -/

/-- `handle_open_video` has set `_real_video_cmd`. -/
theorem openVideo_video (hborn : ∀ q, (s.pu q).video ≠ none → q < s.pus) (hp : p < s.pus)
    (h : s.handleOpenVideo p = .ok s') : (s'.pu p).video ≠ none := by
  have hb : ¬ Begins (.openVideo p) := id
  obtain ⟨_, h₁⟩ := (onward_refl hborn).touched hb touched_addPu
  have h₂ := h₁.special (fun q hq => Task.openVideo.inj hq ▸ hp) special_videoOpened
  obtain ⟨s₁, htouched, hok | ⟨e, herr, -⟩⟩ := (videoOpened_resumed (s := s) (p := p)).ended
  · obtain rfl := Except.ok.inj (h.symm.trans hok)
    obtain ⟨_, h₃⟩ := (onward_refl h₂.born).touched hb htouched
    exact h₃.video p (by simp [videoOpened_video])
  · cases h.symm.trans herr

theorem Ordered.go (h : Ordered s) (hrun : s.running = some t) (hopen : ∀ p, t = .openVideo p → p < s.pus)
    (he : s.step (.go r) = some s') (hf' : s'.fault = none) : Ordered s' := by
  have hok := go_ok hrun he hf'
  by_cases hb : Begins t
  · cases t with
    | login sn made =>
      obtain ⟨p, hb⟩ := login_begun hok
      exact h.begun hrun hb
    | puSend p =>
      obtain rfl := Except.ok.inj hok
      exact h.begun hrun puSend_begun
    | heart p =>
      obtain rfl := Except.ok.inj hok
      exact h.begun hrun heart_begun
    | _ => exact absurd hb id
  · obtain ⟨s₁, hpassed, hend⟩ := go_comes hrun he
    obtain rfl : s' = s₁ := by
      obtain rfl | ⟨e, rfl, -⟩ := hend
      · rfl
      · cases hf'
    obtain ⟨q, ho⟩ := passed_onward (s := { s with running := none }) hb h.born hopen hpassed
    refine h.onward hrun hb ho fun p hp => ?_
    subst hp
    exact openVideo_video (s := { s with running := none }) h.born (hopen p rfl) hok

theorem reach_sound (h : Reach machine s) : ∃ H, Sound H s ∧ (s.fault = none → Rest H s) := by
  obtain ⟨H, hs, -, hrest⟩ := run_moves .any (J := fun _ _ => True) trivial (fun _ _ _ => trivial)
    (h.mono fun s e _ => obeys_any)
  exact ⟨H, hs, hrest⟩

theorem ordered_start : Ordered Sys.start := by
  refine ⟨fun t ht p hp => ?_, nofun, nofun, fun u hu p hp => ?_, fun l₁ l₂ p hl => ?_, fun p hp => ?_,
    fun p hp => ?_, nofun, fun p hp => absurd rfl hp⟩
  · obtain rfl : t = .connections := List.mem_singleton.1 ht
    cases hp
  · obtain rfl : u = .connections := List.mem_singleton.1 hu
    cases hp
  · have hmem : .heart p ∈ line Sys.start := hl ▸ by simp
    cases List.mem_singleton.1 hmem
  · cases List.mem_singleton.1 hp
  · cases List.mem_singleton.1 hp

/-- **The run queue is in order** in every state that is reached. -/
theorem ordered (h : Reach machine s) (hf : s.fault = none) : Ordered s := by
  refine ReachVia.invariant_of (J := fun s => s.fault = none → Ordered s) (fun s => reach_sound) ?_
    (fun s e ⟨H, hs, _⟩ hI he _ hf' => ?_) h hf
  · rintro s rfl -
    exact ordered_start
  obtain ⟨hf, hstep⟩ := he
  obtain ⟨s', hs'⟩ := Option.isSome_iff_exists.1 hstep
  obtain happly : machine.apply s e = s' := by simp [machine, hs']
  rw [happly] at hf' ⊢
  cases e with
  | deliver t =>
    simp only [Sys.step] at hs'
    split at hs'
    next hd =>
      obtain rfl := Option.some.inj hs'
      exact (hI hf).deliver hd.1 hd.2.1 hd.2.2
    next => cases hs'
  | schedule =>
    simp only [Sys.step] at hs'
    split at hs'
    next t runq hrun hq =>
      obtain rfl := Option.some.inj hs'
      exact (hI hf).schedule hrun hq
    next => cases hs'
  | go r =>
    cases hrun : s.running with
    | none => simp [Sys.step, hrun] at hs'
    | some t =>
      refine (hI hf).go hrun (fun p hp => ?_) hs' hf'
      subst hp
      exact hs.balanced.born (opening p) (task_tokens (t := .openVideo p) (by simp [Sys.tasks, hrun])
        (by simp [grants]))

/-- Who is yet to set `_real_video_cmd`, or somebody who will not have gone on before, holds a reference. -/
theorem Ordered.holder (h : Ordered s) {l₁ l₂ : List Task} (hl : line s = l₁ ++ u :: l₂) (hy : young u = some p) :
    pu p ∈ grants u ∨ ∃ w ∈ l₂ ++ s.io ++ s.conds, pu p ∈ grants w := by
  cases u with
  | puSend x =>
    obtain rfl := Option.some.inj hy
    exact .inl (by simp [grants])
  | heart x =>
    obtain rfl := Option.some.inj hy
    obtain hw | hw := h.heart l₁ l₂ x hl
    · exact .inr ⟨_, List.mem_append_right _ hw, by simp [grants]⟩
    · exact .inr ⟨_, List.mem_append_left _ (List.mem_append_left _ hw), by simp [grants]⟩
  | openVideo x =>
    obtain rfl := Option.some.inj hy
    obtain ⟨n, hn⟩ := h.beat x (by rw [hl]; simp)
    exact .inr ⟨_, List.mem_append_left _ (List.mem_append_right _ hn), by simp [grants]⟩
  | _ => cases hy

theorem line_running (hrun : s.running = some t) : line s = t :: s.runq := by simp [line, hrun]

/-- While `_real_video_cmd` of a session is null, the running coroutine is not the last with a reference. -/
theorem Ordered.two_refs {H : Hand} (h : Ordered s) (hs : Sound H s) (hrun : s.running = some t)
    (ht : session t = some p) (hy : young t = none) (hp : pu p ∈ grants t) (hv : (s.pu p).video = none) :
    (s.pu p).ref ≠ 1 := by
  obtain ⟨u, hu, huy⟩ := h.opens t (by simp [Sys.tasks, hrun]) p ht hv
  have hline := line_running hrun
  obtain rfl | hu := List.mem_cons.1 (hline ▸ hu)
  · exact absurd (hy.symm.trans huy) (Option.some_ne_none p).symm
  obtain ⟨l₁, l₂, hl⟩ := List.append_of_mem hu
  have hother : ∃ w ∈ s.runq ++ s.io ++ s.conds, pu p ∈ grants w := by
    obtain hg | ⟨w, hw, hg⟩ := h.holder (by rw [hline, hl]; rfl : line s = (t :: l₁) ++ u :: l₂) huy
    · exact ⟨u, by simp [hu], hg⟩
    · refine ⟨w, ?_, hg⟩
      rw [hl]
      simp at hw ⊢
      tauto
  have hcount : 1 ≤ (held grants (s.runq ++ s.io ++ s.conds)).count (pu p) :=
    Multiset.one_le_count_iff_mem.2 (mem_held.2 hother)
  have hcount' : 1 ≤ (grants t).count (pu p) := Multiset.one_le_count_iff_mem.2 hp
  rw [hs.balanced.pu, tokens, held_tasks, hrun]
  simp only [held_append, Option.toList_some, held_cons, held_nil, Multiset.count_add] at hcount ⊢
  omega

/-- **Late references are safe**, in every state that is reached. -/
theorem late_safe (h : Reach machine s) (hf : s.fault = none) : Safe s := by
  obtain ⟨H, hs, -⟩ := reach_sound h
  have hord := ordered h hf
  have hmem {t : Task} (hrun : s.running = some t) : t ∈ s.tasks := by simp [Sys.tasks, hrun]
  -- a coroutine that has no reference yet finds that of somebody else
  have hyoung {t : Task} {p : PuPtr} (hrun : s.running = some t) (hy : young t = some p) : (s.pu p).ref ≠ 0 := by
    have hline : line s = [] ++ t :: s.runq := line_running hrun
    obtain hg | ⟨w, hw, hg⟩ := hord.holder hline hy
    · exact pu_ref_ne hs (task_tokens (hmem hrun) hg)
    · refine pu_ref_ne hs (task_tokens ?_ hg)
      simp [Sys.tasks] at hw ⊢
      tauto
  refine ⟨fun p hrun => ?_, fun t p hrun hd => ?_, fun p hdr buf hrun => ?_, fun t r s' hrun he hnull => ?_⟩
  · obtain hrun | hrun := hrun <;> exact Nat.one_le_iff_ne_zero.2 (hyoung hrun rfl)
  · cases t with
    | heart x | openVideo x =>
      obtain rfl := Option.some.inj hd
      exact hyoung hrun rfl
    | _ =>
      cases hd
      all_goals exact pu_ref_ne hs (task_tokens (hmem hrun) (by simp [grants]))
  · exact hord.reads _ (mem_line.2 (.inl hrun)) p rfl
  · obtain ⟨s₁, hpassed, hend⟩ := go_comes hrun he
    obtain rfl | ⟨e, rfl, hB⟩ := hend
    · exact absurd (hnull.symm.trans (hpassed.fault.trans hf)) (Option.some_ne_none _)
    have hB := hB (Option.some.inj hnull)
    -- the last reference of a session is given back when `_real_video_cmd` has been set
    have hlast {p : PuPtr} (ht : session t = some p) (hy : young t = none) (hp : pu p ∈ grants t)
        (h1 : (s.pu p).ref = 1) (hv : (s.pu p).video = none) : Elsewhere s t :=
      absurd h1 (hord.two_refs hs hrun ht hy hp hv)
    cases t with
    | handshake type sn | login sn made | openReal c m => exact hB
    | puBody p hdr buf => exact absurd hB (hord.reads _ (mem_line.2 (.inl hrun)) p rfl)
    | puClose p | beat p n => exact hlast rfl rfl (by simp [grants]) hB.1 hB.2
    | parted c m =>
      obtain ⟨p, hp, hv⟩ := hB
      exact absurd hv (hord.proxies c p hp)
    | leave c m =>
      show (s.cu c).puProxy = none
      by_contra hne
      obtain ⟨p, hp⟩ := Option.ne_none_iff_exists'.1 hne
      exact hord.proxies c p hp (hB p hp).2
    | _ => exact absurd hB id

/-- The socket of a device fails before its receiver reads anything; `heart_thread` is about to begin. -/
def brokenRun : List Event :=
  next ++ connect "10" "A" ++ wake (.login "\"A\"" 0) .done ++ [.schedule, .go .failed, .go .done] ++ next ++
    [.schedule]

theorem brokenRun_safe : Safe (brokenRun.foldl machine.apply Sys.start) :=
  late_safe ((ReachVia.init rfl).foldl brokenRun (by decide +kernel)) (by decide +kernel)

/-- The sender is the only one that holds a reference. -/
example : (brokenRun.foldl machine.apply Sys.start).running = some (.heart 0) ∧
    ((brokenRun.foldl machine.apply Sys.start).pu 0).ref = 1 := by decide +kernel

end StNvs.Server.Late
