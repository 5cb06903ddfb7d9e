import StNvs.Sched.Threads

/-! # The invariant of the scheduler

Besides what holds of each thread (`Sched.Threads`): only the current thread runs, the idle thread
exists, `_st_active_count` counts the threads that have not called `st_thread_exit`, who is waited for in
`st_thread_join` is joinable and waited for by one thread (`Joins`), and the operations in flight or
finished are those of the threads that wait for one (`Posted`).

`sound_move`: every move keeps all of it. -/

namespace StNvs.Sched.Invariant

open StNvs.Sched.Sleep StNvs.Sched.Model StNvs.Sched.Moves StNvs.Sched.Threads Function

variable {s s' : Vp} {t u : ThreadPtr}

/-! ### All threads together -/

/-- The thread counts as active: it has not called `st_thread_exit`. -/
def Active (s : Vp) (t : ThreadPtr) : Prop :=
  t ≠ s.idle ∧ ¬ ∃ v, (s.thr t).ctx = .within (.exit v)

instance decidableActive (s : Vp) (t : ThreadPtr) : Decidable (Active s t) :=
  inferInstanceAs (Decidable (_ ∧ ¬ _))

/-- Nobody is inside `st_thread_join(t)`. -/
def Unjoined (s : Vp) (t : ThreadPtr) : Prop :=
  ∀ x ∈ s.live, (s.thr x).ctx ≠ .within (.join t)

/-- Who is waited for exists, is joinable and not joined; one thread at most waits for it. -/
structure Joins (s : Vp) : Prop where
  target : ∀ x ∈ s.live, ∀ t, (s.thr x).ctx = .within (.join t) →
    t ≠ x ∧ t ∈ s.live ∧ (s.thr t).term = true ∧ ¬ s.Joined t
  unique : ∀ x ∈ s.live, ∀ y ∈ s.live, ∀ t, (s.thr x).ctx = .within (.join t) →
    (s.thr y).ctx = .within (.join t) → x = y

/-- The operations in flight or finished are those of the threads that wait for one, one each. -/
structure Posted (s : Vp) : Prop where
  nodup : ((s.inflight ++ s.readyQ).map Entry.thread).Nodup
  waiter : ∀ e ∈ s.inflight ++ s.readyQ, e.thread ∈ s.live ∧ (s.thr e.thread).state = .ioWait ∧
    ∃ o, (s.thr e.thread).ctx = .within (.io e.kind o e.num)
  posted : ∀ t ∈ s.live, (s.thr t).state = .ioWait →
    t ∈ (s.inflight ++ s.readyQ).map Entry.thread

/-- **The invariant** of the scheduler. -/
structure Sound (s : Vp) : Prop where
  good : ∀ t, Good (view s t)
  only : ∀ t ∈ s.live, (s.thr t).state = .running → t = s.current
  idleLive : s.idle ∈ s.live
  active : s.activeCount = (s.live.countP fun t => Active s t : ℕ)
  joins : Joins s
  posted : Posted s

theorem thr_of_view (h : view s' t = view s t) : s'.thr t = s.thr t := congrArg View.th h

theorem live_of_view (h : view s' t = view s t) : t ∈ s'.live ↔ t ∈ s.live := by
  have ha : s'.live.count t = s.live.count t := congrArg View.alive h
  rw [← List.count_pos_iff, ha, List.count_pos_iff]

theorem nodup_live (h : ∀ t, Good (view s t)) : s.live.Nodup :=
  List.nodup_iff_count.mpr fun t => (h t).alive

/-! ### Who runs -/

/-- Only a thread that ran before a move runs after it. -/
theorem only_of_own (hv : ∀ t ≠ u, view s' t = view s t) (hc : s'.current = s.current)
    (hu : u ∈ s'.live → (s'.thr u).state = .running → u ∈ s.live ∧ (s.thr u).state = .running)
    (h : ∀ t ∈ s.live, (s.thr t).state = .running → t = s.current) :
    ∀ t ∈ s'.live, (s'.thr t).state = .running → t = s'.current := by
  intro t ht hs
  rw [hc]
  by_cases htu : t = u
  · subst htu
    exact h t (hu ht hs).1 (hu ht hs).2
  · exact h t ((live_of_view (hv t htu)).mp ht) (by rw [← thr_of_view (hv t htu)]; exact hs)

theorem live_wake (w : Wake) : (s.wake u w).live = s.live := by
  unfold Vp.wake; split <;> rfl

theorem live_expireThread : (s.expireThread u).live = s.live := by
  unfold Vp.expireThread; dsimp only; split <;> rfl

theorem live_vpSchedule : s.vpSchedule.live = s.live := by
  unfold Vp.vpSchedule; split <;> rfl

theorem current_wake (w : Wake) : (s.wake u w).current = s.current := by
  unfold Vp.wake; split <;> rfl

theorem trace_wake (w : Wake) : (s.wake u w).trace = .woken u w :: s.trace := by
  unfold Vp.wake; split <;> rfl

theorem current_expireThread : (s.expireThread u).current = s.current := by
  unfold Vp.expireThread; dsimp only; split <;> rfl

theorem only_move (hm : Move u s s') (h : ∀ t ∈ s.live, (s.thr t).state = .running → t = s.current) :
    ∀ t ∈ s'.live, (s'.thr t).state = .running → t = s'.current := by
  have hv := hm.view_of_ne
  cases hm with
  | schedule hs =>
    intro t ht hst
    by_contra hne
    exact hs t ((live_of_view (hv t hne)).mp ht) (by rw [← thr_of_view (hv t hne)]; exact hst)
  | called op hr | reply hr | answer hr | leave hr | depart hr | cleanup hr | idle p' hr =>
    exact only_of_own hv rfl (fun _ _ => ⟨hr.live, hr.state⟩) h
  | pause hi _ hp =>
    refine only_of_own hv rfl (fun _ hst => ?_) h
    cases hp <;> simp at hst
  | flag hu => exact only_of_own hv rfl (fun _ hst => ⟨hu, by simpa using hst⟩) h
  | signal | interrupt | drain =>
    exact only_of_own hv (current_wake _) (fun _ hst => by simp at hst) h
  | expire =>
    exact only_of_own hv current_expireThread (fun _ hst => by simp at hst) h
  | create => exact only_of_own hv rfl (fun _ hst => by simp [Vp.newThread] at hst) h
  | die => exact only_of_own hv rfl (fun _ hst => by simp at hst) h
  | join | handOff => exact only_of_own hv rfl (fun _ hst => by simp at hst) h
  | yield => exact only_of_own hv rfl (fun _ hst => by simp [Vp.setCtx, Vp.setState] at hst) h
  | tick | acquire | release | ioSkip => exact only_of_own hv rfl (fun hl hst => ⟨hl, hst⟩) h
  | ioPause => 
    refine only_of_own hv rfl (fun _ hst => ?_) h
    simp [Moves.pause] at hst
  | @complete _ e n =>
    obtain ⟨v, hc⟩ := complete_eq (s := s) e n
    exact only_of_own hv (by rw [hc]; rfl)
      (fun hl hst => by rw [hc] at hl hst; exact ⟨hl, by simpa using hst⟩) h

/-! ### Joining -/

/-- What a move has to keep for `Joins`: a thread that somebody waits for stays joinable and unjoined,
and a new joiner finds such a thread that nobody else waits for. -/
theorem joins_of_own (hv : ∀ t ≠ u, view s' t = view s t)
    (hkeep : Unjoined s u ∨ (u ∈ s.live → u ∈ s'.live) ∧ (s'.thr u).term = (s.thr u).term ∧
      (s'.Joined u → s.Joined u))
    (hnew : u ∈ s'.live → ∀ t, (s'.thr u).ctx = .within (.join t) →
      u ∈ s.live ∧ (s.thr u).ctx = .within (.join t) ∨
      t ≠ u ∧ t ∈ s.live ∧ (s.thr t).term = true ∧ ¬ s.Joined t ∧ Unjoined s t)
    (h : Joins s) : Joins s' := by
  -- who waits after the move waited before it, or is `u` and waits for a thread nobody waited for
  have hold : ∀ x ∈ s'.live, ∀ t, (s'.thr x).ctx = .within (.join t) →
      x ∈ s.live ∧ (s.thr x).ctx = .within (.join t) ∨
      x = u ∧ t ≠ u ∧ t ∈ s.live ∧ (s.thr t).term = true ∧ ¬ s.Joined t ∧ Unjoined s t := by
    intro x hx t hc
    by_cases hxu : x = u
    · subst hxu
      rcases hnew hx t hc with hn | hn
      · exact .inl hn
      · exact .inr ⟨rfl, hn⟩
    · exact .inl ⟨(live_of_view (hv x hxu)).mp hx, by rw [← thr_of_view (hv x hxu)]; exact hc⟩
  refine ⟨fun x hx t hc => ?_, fun x hx y hy t hcx hcy => ?_⟩
  · have hx' := hold x hx t hc
    obtain ⟨hne, ht, htm, hj⟩ : t ≠ x ∧ t ∈ s.live ∧ (s.thr t).term = true ∧ ¬ s.Joined t := by
      rcases hx' with ⟨hx', hc'⟩ | ⟨rfl, hne, ht, htm, hj, -⟩
      · exact h.target x hx' t hc'
      · exact ⟨hne, ht, htm, hj⟩
    refine ⟨hne, ?_⟩
    by_cases htu : t = u
    · subst htu
      rcases hkeep with hun | ⟨hl, htm', hj'⟩
      · rcases hx' with ⟨hx', hc'⟩ | ⟨-, hne', -⟩
        · exact absurd hc' (hun x hx')
        · exact absurd rfl hne'
      · exact ⟨hl ht, htm' ▸ htm, fun hn => hj (hj' hn)⟩
    · have hvt := hv t htu
      refine ⟨(live_of_view hvt).mpr ht, by rw [thr_of_view hvt]; exact htm, ?_⟩
      unfold Vp.Joined
      rw [thr_of_view hvt]
      exact hj
  · rcases hold x hx t hcx with ⟨hx', hcx'⟩ | ⟨rfl, -, -, -, -, hun⟩ <;>
      rcases hold y hy t hcy with ⟨hy', hcy'⟩ | ⟨rfl, -, -, -, -, hun'⟩
    · exact h.unique x hx' y hy' t hcx' hcy'
    · exact absurd hcx' (hun' x hx')
    · exact absurd hcy' (hun y hy')
    · rfl

/-- Nobody is inside `st_thread_join(t)` when nobody is on the queue of its termination. -/
theorem unjoined_of_waitQ (hg : ∀ t, Good (view s t)) (hw : s.waitQ (.term t) = []) :
    Unjoined s t := by
  intro x hx hc
  have hwt := (hg x).waits (.term t)
  rw [if_pos ⟨(hg x).alive_eq hx, by simp [hc]⟩] at hwt
  simp [view, hw] at hwt

/-- A thread that is not inside `st_thread_exit` is not joined. -/
theorem not_joined {c : Ctx} (hc : (s.thr t).ctx = c) (he : ∀ v, c ≠ .within (.exit v)) :
    ¬ s.Joined t := by
  rintro ⟨⟨v, hv⟩, -⟩
  exact he v (hc ▸ hv)

/-- A thread that is woken, or goes on, is as joined as before. -/
theorem joined_of_thr (hc : (s'.thr t).ctx = (s.thr t).ctx) (hs : (s.thr t).state ≠ .zombie) :
    s'.Joined t → s.Joined t :=
  fun ⟨⟨v, hv⟩, _⟩ => ⟨⟨v, hc ▸ hv⟩, hs⟩

theorem joins_move (hm : Move u s s') (hg : ∀ t, Good (view s t)) (hi : s.idle ∈ s.live)
    (h : Joins s) : Joins s' := by
  have hv := hm.view_of_ne
  cases hm with
  | called op hr => exact joins_of_own hv (.inr ⟨id, rfl, id⟩) (fun hl t hc => .inl ⟨hl, hc⟩) h
  | tick | acquire | release | ioSkip =>
    exact joins_of_own hv (.inr ⟨id, rfl, id⟩) (fun hl t hc => .inl ⟨hl, hc⟩) h
  | reply | answer | leave =>
    refine joins_of_own hv (.inr ⟨id, by simp, ?_⟩) (fun _ t hc => by simp at hc) h
    exact fun hj => absurd hj (not_joined (c := .user) (by simp) (by simp))
  | pause hi _ hp =>
    refine joins_of_own hv (.inr ⟨id, by simp, ?_⟩) (fun _ t hc => ?_) h
    · exact fun hj => absurd hj
        (by cases hp <;> exact not_joined (congrArg Thread.ctx (thr_pause _ _ _)) (by simp))
    · cases hp with
      | join hne ht htm hj hw =>
        simp only [thr_pause, Ctx.within.injEq, Op.join.injEq] at hc
        subst hc
        exact .inr ⟨hne, ht, htm, hj, unjoined_of_waitQ hg hw⟩
      | _ => simp at hc
  | signal hu hs | drain _ hu hs =>
    exact joins_of_own hv (.inr ⟨fun hl => (live_wake _).symm ▸ hl, by simp,
      joined_of_thr (by simp) (by simp [hs])⟩) (fun _ t hc => .inl ⟨hu, by simpa using hc⟩) h
  | interrupt hu hs =>
    refine joins_of_own hv (.inr ⟨fun hl => (live_wake _).symm ▸ hl, by simp,
      joined_of_thr (by simp) ?_⟩) (fun _ t hc => .inl ⟨hu, by simpa using hc⟩) h
    rcases hs with hs | hs | hs <;> simp [hs]
  | flag _ hs =>
    refine joins_of_own hv (.inr ⟨id, by simp, joined_of_thr (by simp) ?_⟩)
      (fun hl t hc => .inl ⟨hl, by simpa using hc⟩) h
    rcases hs with hs | hs <;> simp [hs]
  | expire hu hq =>
    refine joins_of_own hv (.inr ⟨fun hl => live_expireThread.symm ▸ hl, by simp,
      joined_of_thr (by simp) ?_⟩) (fun _ t hc => .inl ⟨hu, by simpa using hc⟩) h
    rcases ((hg u).of_mem hu).onSleepQ hq with hs | ⟨hs, -⟩ <;> simp [hs]
  | handOff _ _ hu hs =>
    exact joins_of_own hv (.inr ⟨id, by simp, joined_of_thr (by simp) (by simp [hs])⟩)
      (fun hl t hc => .inl ⟨hl, by simpa using hc⟩) h
  | join _ hu _ hw =>
    exact joins_of_own hv (.inl (unjoined_of_waitQ hg hw))
      (fun _ t hc => .inl ⟨hu, by simpa [Vp.delZombieQ] using hc⟩) h
  | create _ hu =>
    refine joins_of_own hv (.inl fun x hx hc => hu (h.target x hx u hc).2.1)
      (fun _ t hc => ?_) h
    simp [Vp.newThread] at hc
  | die =>
    exact joins_of_own hv (.inr ⟨id, by simp, fun hj => by simp [Vp.Joined] at hj⟩)
      (fun _ t hc => by simp at hc) h
  | depart hi htm =>
    refine joins_of_own hv (.inl fun x hx hc => ?_) (fun hl t hc => ?_) h
    · simpa [htm] using (h.target x hx _ hc).2.2.1
    · simp [hi.ctx] at hc
  | cleanup hr =>
    refine joins_of_own hv (.inl fun x hx hc => ?_) (fun hl t hc => ?_) h
    · exact (h.target x hx _ hc).2.2.2 ⟨⟨_, hr.ctx⟩, by simp [hr.state]⟩
    · simp [hr.ctx] at hc
  | idle | yield =>
    refine joins_of_own hv (.inr ⟨id, by simp [Vp.setCtx, Vp.setState], fun hj => ?_⟩)
      (fun _ t hc => by simp [Vp.setCtx, Vp.setState] at hc) h
    simp [Vp.Joined, Vp.setCtx, Vp.setState] at hj
  | schedule hs =>
    obtain ⟨hl, hst, -⟩ := scheduled_runnable hg hi hs
    exact joins_of_own hv (.inr ⟨fun hl => live_vpSchedule.symm ▸ hl, by simp,
      joined_of_thr (by simp) (by simp [hst])⟩) (fun _ t hc => .inl ⟨hl, by simpa using hc⟩) h
  | ioPause =>
    refine joins_of_own hv (.inr ⟨id, by simp [Moves.pause], fun hj => ?_⟩)
      (fun _ t hc => by simp [Moves.pause] at hc) h
    simp [Vp.Joined, Moves.pause] at hj
  | @complete _ e n =>
    obtain ⟨v, he⟩ := complete_eq (s := s) e n
    rw [he] at hv ⊢
    exact joins_of_own hv (.inr ⟨id, by simp, fun hj => by simpa [Vp.Joined] using hj⟩)
      (fun hl t hc => .inl ⟨hl, by simpa using hc⟩) h

/-! ### I/O -/

/-- Moves that leave the operations alone, and the threads that wait for them. -/
theorem posted_of_own (hv : ∀ t ≠ u, view s' t = view s t)
    (he : (s'.inflight ++ s'.readyQ).Perm (s.inflight ++ s.readyQ))
    (hfrom : u ∈ s.live → (s.thr u).state = .ioWait → u ∈ s'.live ∧ (s'.thr u).state = .ioWait ∧
      (s'.thr u).ctx = (s.thr u).ctx)
    (hto : u ∈ s'.live → (s'.thr u).state = .ioWait → u ∈ s.live ∧ (s.thr u).state = .ioWait)
    (h : Posted s) : Posted s' := by
  refine ⟨(he.map _).nodup_iff.mpr h.nodup, fun e hm => ?_, fun t ht hs => (he.map _).mem_iff.mpr ?_⟩
  · obtain ⟨hl, hs, o, hc⟩ := h.waiter e (he.mem_iff.mp hm)
    by_cases heu : e.thread = u
    · subst heu
      obtain ⟨hl', hs', hc'⟩ := hfrom hl hs
      exact ⟨hl', hs', o, hc'.trans hc⟩
    · have hve := hv _ heu
      rw [live_of_view hve, thr_of_view hve]
      exact ⟨hl, hs, o, hc⟩
  · by_cases htu : t = u
    · subst htu
      exact h.posted t (hto ht hs).1 (hto ht hs).2
    · have hvt := hv t htu
      rw [live_of_view hvt] at ht
      rw [thr_of_view hvt] at hs
      exact h.posted t ht hs

/-- A thread starts an operation and waits for it. -/
theorem posted_start (hv : ∀ t ≠ u, view s' t = view s t) {e : Entry} (hu : e.thread = u)
    (he : (s'.inflight ++ s'.readyQ).Perm (e :: (s.inflight ++ s.readyQ)))
    (hfrom : (s.thr u).state ≠ .ioWait)
    (hto : u ∈ s'.live ∧ (s'.thr u).state = .ioWait ∧ ∃ o, (s'.thr u).ctx = .within (.io e.kind o e.num))
    (h : Posted s) : Posted s' := by
  subst hu
  have hne : ∀ e' ∈ s.inflight ++ s.readyQ, e'.thread ≠ e.thread := fun e' hm heq =>
    hfrom (heq ▸ (h.waiter e' hm).2.1)
  refine ⟨(he.map _).nodup_iff.mpr (List.nodup_cons.mpr ⟨fun hm => ?_, h.nodup⟩), fun e' hm => ?_,
    fun t ht hs => (he.map _).mem_iff.mpr ?_⟩
  · obtain ⟨e', hm', heq⟩ := List.mem_map.mp hm
    exact hne e' hm' heq
  · rcases List.mem_cons.mp (he.mem_iff.mp hm) with rfl | hm
    · exact hto
    · have hve := hv _ (hne e' hm)
      rw [live_of_view hve, thr_of_view hve]
      exact h.waiter e' hm
  · by_cases htu : t = e.thread
    · exact htu ▸ List.mem_cons_self
    · have hvt := hv t htu
      rw [live_of_view hvt] at ht
      rw [thr_of_view hvt] at hs
      exact List.mem_cons_of_mem _ (h.posted t ht hs)

/-- A finished operation is taken off the ready queue, and its thread no longer waits. -/
theorem posted_drain (hv : ∀ t ≠ u, view s' t = view s t) {e : Entry} (hu : e.thread = u)
    (he : (s.inflight ++ s.readyQ).Perm (e :: (s'.inflight ++ s'.readyQ)))
    (hto : (s'.thr u).state ≠ .ioWait) (h : Posted s) : Posted s' := by
  subst hu
  obtain ⟨hne, hnd⟩ := List.nodup_cons.mp ((he.map Entry.thread).nodup_iff.mp h.nodup)
  refine ⟨hnd, fun e' hm => ?_, fun t ht hs => ?_⟩
  · have hve := hv e'.thread fun heq => hne (heq ▸ List.mem_map_of_mem hm)
    rw [live_of_view hve, thr_of_view hve]
    exact h.waiter e' (he.mem_iff.mpr (List.mem_cons_of_mem _ hm))
  · have htu : t ≠ e.thread := fun heq => hto (heq ▸ hs)
    have hvt := hv t htu
    rw [live_of_view hvt] at ht
    rw [thr_of_view hvt] at hs
    exact (List.mem_cons.mp ((he.map _).mem_iff.mp (h.posted t ht hs))).resolve_left htu

theorem io_wake (w : Wake) : (s.wake u w).inflight = s.inflight ∧ (s.wake u w).readyQ = s.readyQ := by
  unfold Vp.wake; split <;> exact ⟨rfl, rfl⟩

theorem io_expireThread : (s.expireThread u).inflight = s.inflight ∧
    (s.expireThread u).readyQ = s.readyQ := by
  unfold Vp.expireThread; dsimp only; split <;> exact ⟨rfl, rfl⟩

theorem io_vpSchedule : s.vpSchedule.inflight = s.inflight ∧ s.vpSchedule.readyQ = s.readyQ := by
  unfold Vp.vpSchedule; split <;> exact ⟨rfl, rfl⟩

theorem posted_move (hm : Move u s s') (hg : ∀ t, Good (view s t)) (hi : s.idle ∈ s.live)
    (h : Posted s) : Posted s' := by
  have hv := hm.view_of_ne
  -- moves that change neither list of operations
  have hsame (he : s'.inflight = s.inflight ∧ s'.readyQ = s.readyQ) :=
    posted_of_own hv (by rw [he.1, he.2])
  cases hm with
  | called | tick | acquire | release | ioSkip =>
    exact hsame ⟨rfl, rfl⟩ (fun hl hs => ⟨hl, hs, rfl⟩) (fun hl hs => ⟨hl, hs⟩) h
  | reply hr | answer hr | leave hr | depart hr | cleanup hr =>
    refine hsame ⟨rfl, rfl⟩ (fun _ hs => ?_) (fun _ hs => ?_) h
    all_goals simp [hr.state] at hs
  | pause hr _ hp =>
    refine hsame ⟨rfl, rfl⟩ (fun _ hs => ?_) (fun _ hs => ?_) h
    · simp [hr.state] at hs
    · cases hp <;> simp at hs
  | signal _ hst =>
    exact hsame (io_wake _) (fun _ hs => by simp [hst] at hs) (fun _ hs => by simp at hs) h
  | interrupt _ hst =>
    refine hsame (io_wake _) (fun _ hs => ?_) (fun _ hs => by simp at hs) h
    rcases hst with hst | hst | hst <;> simp [hst] at hs
  | flag =>
    exact hsame ⟨rfl, rfl⟩ (fun hl hs => ⟨hl, by simpa using hs, by simp⟩)
      (fun hl hs => ⟨hl, by simpa using hs⟩) h
  | expire hu hq =>
    refine hsame io_expireThread (fun _ hs => ?_) (fun _ hs => by simp at hs) h
    rcases ((hg u).of_mem hu).onSleepQ hq with hst | ⟨hst, -⟩ <;> simp [hst] at hs
  | handOff _ _ _ hst | join _ _ hst =>
    exact hsame ⟨rfl, rfl⟩ (fun _ hs => by simp [hst] at hs) (fun _ hs => by simp at hs) h
  | create _ hu =>
    exact hsame ⟨rfl, rfl⟩ (fun hl => absurd hl hu) (fun _ hs => by simp [Vp.newThread] at hs) h
  | die hr =>
    exact hsame ⟨rfl, rfl⟩ (fun _ hs => by simp [hr.state] at hs) (fun _ hs => by simp at hs) h
  | idle _ hr | yield hr =>
    exact hsame ⟨rfl, rfl⟩ (fun _ hs => by simp [hr.state] at hs)
      (fun _ hs => by simp [Vp.setCtx, Vp.setState, hr.state] at hs) h
  | schedule hs =>
    obtain ⟨-, hst, -⟩ := scheduled_runnable hg hi hs
    exact hsame io_vpSchedule (fun _ hs => by simp [hst] at hs) (fun _ hs => by simp at hs) h
  | @ioPause _ k o hr =>
    refine posted_start hv (e := ⟨s.current, k, s.nextIo⟩) rfl ?_ (by simp [hr.state])
      ⟨hr.live, by simp [Moves.pause], o, by simp [Moves.pause]⟩ h
    change ((s.inflight ++ [_]) ++ s.readyQ).Perm _
    rw [List.append_assoc]
    exact List.perm_middle
  | @complete _ e n hm =>
    obtain ⟨v, he⟩ := complete_eq (s := s) e n
    rw [he] at hv ⊢
    refine posted_of_own hv ?_ (fun hl hs => ⟨hl, by simpa using hs, by simp⟩)
      (fun hl hs => ⟨hl, by simpa using hs⟩) h
    have hp : (s.inflight.erase e ++ (s.readyQ ++ [e])).Perm (e :: s.inflight.erase e ++ s.readyQ) := by
      rw [← List.append_assoc]
      exact List.perm_append_singleton _ _
    exact hp.trans ((List.perm_cons_erase hm).symm.append_right _)
  | @drain _ e q hq =>
    have hio := io_wake (s := { s with readyQ := q }) (u := e.thread) .io
    refine posted_drain hv rfl ?_ (by simp) h
    rw [hio.1, hio.2, hq]
    exact List.perm_middle

/-! ### The number of active threads -/

theorem idle_move (hm : Move u s s') : s'.idle = s.idle := by
  cases hm with
  | signal | drain | interrupt => unfold Vp.wake; split <;> rfl
  | expire => unfold Vp.expireThread; dsimp only; split <;> rfl
  | schedule => unfold Vp.vpSchedule; split <;> rfl
  | complete => unfold Vp.complete; dsimp only; split <;> rfl
  | _ => rfl

theorem active_of_ne (hv : ∀ t ≠ u, view s' t = view s t) (hi : s'.idle = s.idle) (ht : t ≠ u) :
    Active s' t ↔ Active s t := by
  unfold Active
  rw [hi, thr_of_view (hv t ht)]

/-- The active threads, apart from `u`, are the same after a move about `u`. -/
theorem countP_of_ne (hv : ∀ t ≠ u, view s' t = view s t) (hi : s'.idle = s.idle)
    {l : List ThreadPtr} (hl : u ∉ l) :
    (l.countP fun t => Active s' t) = l.countP fun t => Active s t :=
  List.countP_congr fun t ht => by
    simpa using active_of_ne hv hi fun he => hl (he ▸ ht)

/-- A list of threads with `u` counts the active ones of the others, and `u`. -/
theorem countP_erase_add {l : List ThreadPtr} (hu : u ∈ l) :
    (l.countP fun t => Active s t) =
      ((l.erase u).countP fun t => Active s t) + if Active s u then 1 else 0 := by
  rw [(List.perm_cons_erase hu).countP_eq, List.countP_cons]
  simp

/-- Moves that neither create nor end a thread, and leave `u` as active as it was. -/
theorem countP_of_own (hv : ∀ t ≠ u, view s' t = view s t) (hi : s'.idle = s.idle)
    (hl : s'.live = s.live) (hu : u ∈ s.live → (Active s' u ↔ Active s u)) :
    (s'.live.countP fun t => Active s' t) = s.live.countP fun t => Active s t := by
  rw [hl]
  refine List.countP_congr fun t ht => ?_
  by_cases htu : t = u
  · subst htu; simpa using hu ht
  · simpa using active_of_ne hv hi htu

theorem active_of_ctx (hi : s'.idle = s.idle)
    (hc : (∃ v, (s'.thr u).ctx = .within (.exit v)) ↔ ∃ v, (s.thr u).ctx = .within (.exit v)) :
    Active s' u ↔ Active s u := by
  unfold Active
  rw [hi, hc]

theorem active_move (hm : Move u s s') (hg : ∀ t, Good (view s t)) (hid : s.idle ∈ s.live)
    (h : s.activeCount = (s.live.countP fun t => Active s t : ℕ)) :
    s'.activeCount = (s'.live.countP fun t => Active s' t : ℕ) := by
  have hv := hm.view_of_ne
  have hi := idle_move hm
  have hnd := nodup_live hg
  -- moves that change neither the counter, nor who exists, nor whether `u` is active
  have hsame (hc : s'.activeCount = s.activeCount) (hl : s'.live = s.live)
      (hx : (∃ v, (s'.thr u).ctx = .within (.exit v)) ↔ ∃ v, (s.thr u).ctx = .within (.exit v)) :
      s'.activeCount = (s'.live.countP fun t => Active s' t : ℕ) := by
    rw [hc, h, countP_of_own hv hi hl fun _ => active_of_ctx hi hx]
  -- a running thread in its own code is active
  have huser (hr : Runs .user s) : Active s s.current := by
    refine ⟨fun he => ?_, by simp [hr.ctx]⟩
    have := ((hg _).of_mem hr.live).not_idle (by simp [hr.ctx])
    simp [view, he] at this
  cases hm with
  | called | tick | acquire | release | ioSkip => exact hsame rfl rfl Iff.rfl
  | reply hr | leave hr => exact hsame rfl rfl (by simp [hr.ctx])
  | answer hr ha => exact hsame rfl rfl (by cases ha <;> simp [hr.ctx])
  | pause hr _ hp => exact hsame rfl rfl (by cases hp <;> simp [hr.ctx])
  | signal | interrupt | drain => 
    refine hsame ?_ (live_wake _) (by simp)
    unfold Vp.wake; split <;> rfl
  | flag => exact hsame rfl rfl (by simp)
  | expire => 
    refine hsame ?_ live_expireThread (by simp)
    unfold Vp.expireThread; dsimp only; split <;> rfl
  | handOff => exact hsame rfl rfl (by simp)
  | join => exact hsame rfl rfl (by simp [Vp.delZombieQ])
  | idle _ hr | yield hr => exact hsame rfl rfl (by simp [Vp.setCtx, Vp.setState, hr.ctx])
  | schedule => 
    refine hsame ?_ live_vpSchedule (by simp)
    unfold Vp.vpSchedule; split <;> rfl
  | ioPause hr => exact hsame rfl rfl (by simp [Moves.pause, hr.ctx])
  | @complete _ e n =>
    obtain ⟨v, he⟩ := complete_eq (s := s) e n
    rw [he] at hv hi hsame ⊢
    exact hsame rfl rfl (by simp)
  | @create _ _ j _ ha =>
    have hact : Active (s.threadCreate u j .user) u :=
      ⟨fun he => ha (by rw [he]; exact hid), by simp [Vp.newThread]⟩
    change s.activeCount + 1 = ((u :: s.live).countP _ : ℕ)
    rw [List.countP_cons, countP_of_ne hv hi ha, h]
    simp [hact]
  | @die _ v hr =>
    have hnot : ¬ Active (Moves.die v s) s.current := by simp [Active]
    change s.activeCount - 1 = (s.live.countP _ : ℕ)
    rw [countP_erase_add (s := Moves.die v s) hr.live, countP_of_ne hv hi hnd.not_mem_erase,
      if_neg hnot, h, countP_erase_add hr.live, if_pos (huser hr.toRuns)]
    simp
  | depart hr =>
    change s.activeCount - 1 = ((s.live.erase s.current).countP _ : ℕ)
    rw [countP_of_ne hv hi hnd.not_mem_erase, h, countP_erase_add hr.live, if_pos (huser hr.toRuns)]
    simp
  | cleanup hr =>
    have hnot : ¬ Active s s.current := fun ha => ha.2 ⟨_, hr.ctx⟩
    change s.activeCount = ((s.live.erase s.current).countP _ : ℕ)
    rw [countP_of_ne hv hi hnd.not_mem_erase, h, countP_erase_add hr.live, if_neg hnot]
    simp

/-! ### The invariant -/

/-- The idle thread stays. -/
theorem idleLive_move (hm : Move u s s') (hg : ∀ t, Good (view s t)) (h : s.idle ∈ s.live) :
    s'.idle ∈ s'.live := by
  rw [idle_move hm]
  -- a thread that leaves is inside `st_thread_exit`
  have hgone {c : Ctx} (hr : Runs c s) (hc : ∀ p, c ≠ .idle p) : s.idle ∈ s.live.erase s.current := by
    refine (List.mem_erase_of_ne fun he => ?_).mpr h
    have := ((hg _).of_mem hr.live).not_idle (hr.ctx ▸ hc)
    simp [view, ← he] at this
  cases hm with
  | depart hr => exact hgone hr.toRuns (by simp)
  | cleanup hr => exact hgone hr (by simp)
  | create => exact List.mem_cons_of_mem _ h
  | signal | interrupt | drain => exact (live_wake _).symm ▸ h
  | expire => exact live_expireThread.symm ▸ h
  | schedule => exact live_vpSchedule.symm ▸ h
  | @complete _ e n =>
    obtain ⟨v, he⟩ := complete_eq (s := s) e n
    rw [he]; exact h
  | _ => exact h

/-- **The invariant is kept** by every move. -/
theorem sound_move (hm : Move u s s') (h : Sound s) : Sound s' := by
  refine ⟨fun t => ?_, only_move hm h.only, idleLive_move hm h.good h.idleLive,
    active_move hm h.good h.idleLive h.active, joins_move hm h.good h.idleLive h.joins,
    posted_move hm h.good h.idleLive h.posted⟩
  by_cases htu : t = u
  · exact htu ▸ good_move hm h.good h.idleLive
  · exact hm.view_of_ne t htu ▸ h.good t

end StNvs.Sched.Invariant
