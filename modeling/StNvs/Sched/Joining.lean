import StNvs.Sched.Lives
import StNvs.Lib.History

/-! # Joining

What the history says of one life of a thread agrees with the state of the thread (`Lived`): before its
`st_thread_exit` nothing has happened to it; a zombie has an exit value and was not joined; after it was
joined, once, it only has its own cleanup left; and when it is gone its stack was freed, once.

* `join_exactly_once`: a join hands out the exit value, once; whatever happens to the joiners. -/

namespace StNvs.Sched.Joining

open StNvs.Sched.Sleep StNvs.Sched.Model StNvs.Sched.Moves StNvs.Sched.Threads StNvs.Sched.Invariant
open StNvs.Sched.Calls StNvs.Sched.Lives StNvs.Lib.Runs StNvs.Lib.History Function

variable {s s' : Vp} {t u : ThreadPtr} {h : List Event}

/-! ### What the history says of a life -/

/-- The thread was created joinable. -/
def Joinable (t : ThreadPtr) (l : List Event) : Prop :=
  ∃ x, .returned x (.create (some t) true) (.created (some t)) ∈ l

/-- The thread called `st_thread_exit(v)`. -/
def Exited (t : ThreadPtr) (v : ℕ) (l : List Event) : Prop := ∃ p, .called t (.exit v) p ∈ l

/-- A call of `st_thread_join` returned `0` for the thread. -/
def WasJoined (t : ThreadPtr) (l : List Event) : Prop := ∃ x v, .returned x (.join t) (.joined v) ∈ l

/-- What has to come before a join that succeeds, and before a stack is freed. -/
def Lawful : Event → List Event → Prop
  | .returned _ (.join t) (.joined v), h =>
    Exited t v (life t h) ∧ ¬ WasJoined t (life t h) ∧ .stackFreed t ∉ life t h
  | .stackFreed t, h => .stackFreed t ∉ life t h ∧ (∃ v, Exited t v (life t h)) ∧
    (Joinable t (life t h) → WasJoined t (life t h))
  | _, _ => True

/-- The events a life of this thread is made of. -/
def About (t : ThreadPtr) : Event → Prop
  | .created u | .stackFreed u | .called u (.exit _) _ | .returned _ (.join u) (.joined _)
  | .returned _ (.create (some u) _) (.created (some _)) => u = t
  | _ => False

theorem About.vital {e : Event} (he : About t e) : Vital e := by
  match e, he with
  | .created _, _ | .stackFreed _, _ | .called _ (.exit _) _, _ | .returned _ (.join _) (.joined _), _
  | .returned _ (.create (some _) _) (.created (some _)), _ => trivial

/-! ### The state of a thread and its life -/

/-- What the history says of the present life of a thread agrees with its state. -/
structure Lived (s : Vp) (t : ThreadPtr) : Prop where
  made : .created t ∈ s.trace → (s.thr t).primordial = false
  zombie : (s.thr t).state = .zombie → ∃ r, (s.thr t).ctx = .within (.exit r)
  joinable : t ∈ s.live → ((s.thr t).term = true ↔ Joinable t (life t s.trace))
  kept : t ∈ s.live → .stackFreed t ∉ life t s.trace
  fresh : t ∈ s.live → (∀ v, (s.thr t).ctx ≠ .within (.exit v)) →
    (∀ v, ¬ Exited t v (life t s.trace)) ∧ ¬ WasJoined t (life t s.trace)
  exiting : ∀ r, t ∈ s.live → (s.thr t).ctx = .within (.exit r) →
    (s.thr t).retval = r ∧ (s.thr t).term = true ∧ (∀ v, Exited t v (life t s.trace) ↔ v = r) ∧
    ((s.thr t).state = .zombie ↔ ¬ WasJoined t (life t s.trace))
  freed : .created t ∈ s.trace → t ∉ s.live → (life t s.trace).count (.stackFreed t) = 1

theorem mem_append_about {l : List Event} {e : Event} (hes : ∀ e ∈ l, ¬ About t e) (he : About t e) :
    e ∈ l ++ h ↔ e ∈ h := by
  rw [List.mem_append]
  exact or_iff_right fun hm => hes e hm he

theorem joinable_append {l : List Event} (hes : ∀ e ∈ l, ¬ About t e) :
    Joinable t (l ++ h) ↔ Joinable t h :=
  exists_congr fun _ => mem_append_about hes rfl

theorem exited_append {l : List Event} (hes : ∀ e ∈ l, ¬ About t e) (v : ℕ) :
    Exited t v (l ++ h) ↔ Exited t v h :=
  exists_congr fun _ => mem_append_about hes rfl

theorem wasJoined_append {l : List Event} (hes : ∀ e ∈ l, ¬ About t e) :
    WasJoined t (l ++ h) ↔ WasJoined t h :=
  exists_congr fun _ => exists_congr fun _ => mem_append_about hes rfl

/-- Where nothing about the thread happens, its life goes on as it was. -/
theorem Lived.of_alike (hl : Lived s t) (ha : Alike (view s t) (view s' t)) {l : List Event}
    (htr : s'.trace = l ++ s.trace) (hes : ∀ e ∈ l, ¬ About t e) : Lived s' t := by
  have hlife : life t s'.trace = l ++ life t s.trace := by
    rw [htr]
    exact life_append fun e he hc => hes e he (hc ▸ rfl)
  have hcr : .created t ∈ s'.trace ↔ .created t ∈ s.trace := by
    rw [htr]
    exact mem_append_about hes rfl
  have hlive : t ∈ s'.live ↔ t ∈ s.live := by
    rw [← List.count_pos_iff, ← List.count_pos_iff]
    exact iff_of_eq (congrArg (0 < ·) ha.alive)
  have hterm : (s'.thr t).term = (s.thr t).term := ha.term
  have hret : (s'.thr t).retval = (s.thr t).retval := ha.retval
  have hprim : (s'.thr t).primordial = (s.thr t).primordial := ha.primordial
  have hz : (s'.thr t).state = .zombie ↔ (s.thr t).state = .zombie := ha.zombie
  have hx : ∀ r, (s'.thr t).ctx = .within (.exit r) ↔ (s.thr t).ctx = .within (.exit r) := ha.exiting
  refine ⟨fun hc => ?_, fun hs => ?_, fun hv => ?_, fun hv => ?_, fun hv hn => ?_, fun r hv hr => ?_,
    fun hc hv => ?_⟩
  · rw [hprim]; exact hl.made (hcr.mp hc)
  · exact (hl.zombie (hz.mp hs)).imp fun r => (hx r).mpr
  · rw [hterm, hlife, joinable_append hes]; exact hl.joinable (hlive.mp hv)
  · rw [hlife, mem_append_about (e := .stackFreed t) hes rfl]; exact hl.kept (hlive.mp hv)
  · simp only [hlife, exited_append hes, wasJoined_append hes]
    exact hl.fresh (hlive.mp hv) fun v => (hx v).not.mp (hn v)
  · simp only [hlife, exited_append hes, wasJoined_append hes, hret, hterm, hz]
    exact hl.exiting r (hlive.mp hv) ((hx r).mp hr)
  · have hnone : .stackFreed t ∉ l := fun hm => hes _ hm rfl
    rw [hlife, List.count_append, List.count_eq_zero.mpr hnone, Nat.zero_add]
    exact hl.freed (hcr.mp hc) (hlive.not.mp hv)

/-- What leaves the lives alone. -/
theorem Lived.keeps (hl : Lived s t) (hk : Keeps s s') : Lived s' t := by
  obtain ⟨l, htr, hes⟩ := hk.trace
  exact hl.of_alike (hk.alike t) htr fun e he hab => hes e he hab.vital

/-- The lives, and the law of the joins. -/
structure Lives (s : Vp) : Prop where
  lived : ∀ t, Lived s t
  lawful : Justified Lawful s.trace

theorem lawful_minor {e : Event} (he : ¬ Vital e) : Lawful e h := by
  unfold Lawful
  split
  · exact absurd trivial he
  · exact absurd trivial he
  · trivial

theorem Lives.keeps (hl : Lives s) (hk : Keeps s s') : Lives s' := by
  refine ⟨fun t => (hl.lived t).keeps hk, ?_⟩
  obtain ⟨l, htr, hes⟩ := hk.trace
  rw [htr]
  exact hl.lawful.append fun e he _ => lawful_minor (hes e he)

/-! ### What a step does to the lives -/

theorem Lived.of_view (hl : Lived s t) (hv : view s' t = view s t) {l : List Event}
    (htr : s'.trace = l ++ s.trace) (hes : ∀ e ∈ l, ¬ About t e) : Lived s' t :=
  hl.of_alike (hv ▸ .rfl) htr hes

section Steps

variable (hl : Lives s) (ht : Tidy s)
include hl ht

omit ht in
/-- The current thread becomes a zombie. -/
theorem lives_die {v : ℕ} {p : Bool} (hw : Awake s) (hc : (s.thr s.current).ctx = .user)
    (htm : (s.thr s.current).term = true) : Lives (die v (s.log (.called s.current (.exit v) p))) := by
  have htr : (die v (s.log (.called s.current (.exit v) p))).trace =
      [.called s.current (.exit v) p] ++ s.trace := rfl
  have hth : (die v (s.log (.called s.current (.exit v) p))).thr s.current =
      { s.thr s.current with retval := v, state := .zombie, ctx := .within (.exit v) } :=
    thr_die (s := s.log (.called s.current (.exit v) p)) v
  refine ⟨fun t => ?_, ⟨trivial, hl.lawful⟩⟩
  rcases eq_or_ne t s.current with rfl | hne
  · have hold := hl.lived s.current
    obtain ⟨hno, hnj⟩ := hold.fresh hw.1 (by simp [hc])
    have hlife : life s.current (die v (s.log (.called s.current (.exit v) p))).trace =
        .called s.current (.exit v) p :: life s.current s.trace := life_cons (by simp)
    have hj : ∀ l, Joinable s.current (.called s.current (.exit v) p :: l) ↔ Joinable s.current l :=
      fun l => by simp [Joinable]
    have hwj : ∀ l, WasJoined s.current (.called s.current (.exit v) p :: l) ↔ WasJoined s.current l :=
      fun l => by simp [WasJoined]
    refine ⟨fun hcr => ?_, fun _ => ⟨v, by rw [hth]⟩, fun _ => ?_, fun _ => ?_, fun _ hx => ?_,
      fun r _ hr => ?_, fun _ hd => ?_⟩
    · rw [hth]
      exact hold.made (by simpa [htr] using hcr)
    · rw [hth, hlife, hj]
      exact hold.joinable hw.1
    · rw [hlife]
      simpa using hold.kept hw.1
    · exact absurd (congrArg Thread.ctx hth) (hx v)
    · obtain rfl : v = r := by simpa [hth] using hr
      rw [hth, hlife, hwj]
      refine ⟨rfl, htm, fun v' => ⟨?_, ?_⟩, by simp [hnj]⟩
      · rintro ⟨q, hq⟩
        rcases List.mem_cons.mp hq with hq | hq
        · simpa using (Event.called.inj hq).2.1
        · exact absurd ⟨q, hq⟩ (hno v')
      · rintro rfl
        exact ⟨p, List.mem_cons_self⟩
    · exact absurd hw.1 hd
  · refine (hl.lived t).of_view ?_ htr (by simpa [About] using hne.symm)
    simp [view, die, Vp.log, subject, hne, hne.symm]

omit hl in
/-- The current thread is gone: its stack was freed, which it was not before. -/
theorem lives_depart {f : Thread → Thread} {n : ℤ} (hother : ∀ t ≠ s.current, Lived s t)
    (hmade : .created s.current ∈ s.trace → (s.thr s.current).primordial = false)
    (hrun : (s.thr s.current).state = .running)
    (hkept : .stackFreed s.current ∉ life s.current s.trace)
    (hexit : ∃ v, Exited s.current v (life s.current s.trace))
    (hjoin : Joinable s.current (life s.current s.trace) → WasJoined s.current (life s.current s.trace))
    (hlaw : Justified Lawful s.trace) 
    (hf : ∀ th, (f th).primordial = th.primordial ∧ (f th).state = th.state) : Lives (depart f n s) := by
  have hfp := fun th => (hf th).1
  have htr : (depart f n s).trace = if (s.thr s.current).primordial then s.trace
      else .stackFreed s.current :: s.trace := by
    simp only [depart, hfp]
  have hgone : s.current ∉ (depart f n s).live := by
    have hd : s.live.Nodup := List.nodup_iff_count.mpr fun t => (ht.placed t).alive
    exact hd.not_mem_erase
  refine ⟨fun t => ?_, ?_⟩
  · rcases eq_or_ne t s.current with rfl | hne
    · have hcr : .created s.current ∈ (depart f n s).trace → .created s.current ∈ s.trace := by
        rw [htr]
        split <;> simp
      refine ⟨fun hm => ?_, fun hz => ?_, fun hm => absurd hm hgone, fun hm => absurd hm hgone,
        fun hm => absurd hm hgone, fun _ hm => absurd hm hgone, fun hm _ => ?_⟩
      · rw [thr_depart, hfp]
        exact hmade (hcr hm)
      · rw [thr_depart, (hf _).2, hrun] at hz
        cases hz
      · rw [htr, hmade (hcr hm), if_neg (by simp), life_cons (by simp), List.count_cons_self,
          List.count_eq_zero.mpr hkept]
    · obtain ⟨l, h1, h2⟩ : ∃ l, (depart f n s).trace = l ++ s.trace ∧ ∀ e ∈ l, ¬ About t e := by
        rw [htr]
        split
        · exact ⟨[], rfl, by simp⟩
        · exact ⟨[.stackFreed s.current], rfl, by simpa [About] using hne.symm⟩
      exact (hother t hne).of_view (view_depart_of_ne hne f n) h1 h2
  · rw [htr]
    split
    · exact hlaw
    · exact ⟨⟨hkept, hexit, hjoin⟩, hlaw⟩

/-- The current thread leaves at once: nobody can join it. -/
theorem lives_leave {v : ℕ} {p : Bool} {n : ℤ} (hw : Awake s) (hc : (s.thr s.current).ctx = .user)
    (htm : (s.thr s.current).term = false) : Lives (depart (fun th => { th with retval := v }) n
      (s.log (.called s.current (.exit v) p))) := by
  have hold := hl.lived s.current
  have hlife : life s.current (s.log (.called s.current (.exit v) p)).trace =
      .called s.current (.exit v) p :: life s.current s.trace := life_cons (by simp)
  refine lives_depart (tidy_called ht hw hc) (fun t hne => ?_) (fun hm => ?_) hw.2 ?_ ?_ ?_
    ⟨trivial, hl.lawful⟩ fun _ => ⟨rfl, rfl⟩
  · have hab : ¬ About t (.called s.current (.exit v) p) := fun he => hne he.symm
    exact (hl.lived t).of_view (l := [.called s.current (.exit v) p]) (view_log_of_ne hne rfl) rfl
      (by simpa using hab)
  · exact hold.made (by simpa [Vp.log] using hm)
  · rw [show (s.log (.called s.current (.exit v) p)).current = s.current from rfl, hlife]
    simpa using hold.kept hw.1
  · refine ⟨v, p, ?_⟩
    rw [show (s.log (.called s.current (.exit v) p)).current = s.current from rfl, hlife]
    exact List.mem_cons_self
  · rw [show (s.log (.called s.current (.exit v) p)).current = s.current from rfl, hlife]
    rintro ⟨x, hx⟩
    have hj := (hold.joinable hw.1).mpr ⟨x, (List.mem_cons.mp hx).resolve_left (by simp)⟩
    simp [htm] at hj

/-- The current thread was joined, and is gone. -/
theorem lives_cleanup {v : ℕ} {n : ℤ} (hw : Awake s) (hc : (s.thr s.current).ctx = .within (.exit v)) :
    Lives (depart (fun th => { th with term := false }) n s) := by
  have hold := hl.lived s.current
  obtain ⟨-, -, hexit, hz⟩ := hold.exiting v hw.1 hc
  have hj : WasJoined s.current (life s.current s.trace) := by
    by_contra hnj
    exact absurd (hw.2.symm.trans (hz.mpr hnj)) (by simp)
  exact lives_depart ht (fun t _ => hl.lived t) hold.made hw.2 (hold.kept hw.1)
    ⟨v, (hexit v).mpr rfl⟩ (fun _ => hj) hl.lawful fun _ => ⟨rfl, rfl⟩

omit ht in
/-- A thread is created. -/
theorem lives_create {a : ThreadPtr} {j : Bool} (hw : Awake s) (hc : (s.thr s.current).ctx = .user)
    (ha : a ∉ s.live) :
    Lives ((s.threadCreate a j .user).ret (.create (some a) j) (.created (some a))) := by
  have hne : a ≠ s.current := fun he => ha (he ▸ hw.1)
  have htr : ((s.threadCreate a j .user).ret (.create (some a) j) (.created (some a))).trace =
      [.returned s.current (.create (some a) j) (.created (some a)), .created a] ++ s.trace := rfl
  refine ⟨fun t => ?_, ⟨trivial, trivial, hl.lawful⟩⟩
  rcases eq_or_ne t a with rfl | hta
  · have hth : ((s.threadCreate t j .user).ret (.create (some t) j) (.created (some t))).thr t =
        Vp.newThread j .user :=
      (thr_ret_of_ne (s := s.threadCreate t j .user) hne).trans (thr_threadCreate j)
    have hlife : life t ((s.threadCreate t j .user).ret (.create (some t) j) (.created (some t))).trace =
        [.returned s.current (.create (some t) j) (.created (some t))] := by
      rw [htr, List.cons_append, life_cons (by simp), List.cons_append, life_created]
    refine ⟨fun _ => by rw [hth]; rfl, fun hz => ?_, fun _ => ?_, fun _ => by simp [hlife],
      fun _ _ => ?_, fun r _ hr => ?_, fun _ hd => absurd List.mem_cons_self hd⟩
    · rw [hth] at hz
      cases hz
    · rw [hth, hlife]
      simp [Joinable, Vp.newThread, eq_comm]
    · rw [hlife]
      simp [Exited, WasJoined]
    · rw [hth] at hr
      cases hr
  · obtain ⟨ws, hv⟩ := view_create_of_ne (s := s) j hta
    have hcur : ((s.threadCreate a j .user).thr s.current).ctx = .user := by
      obtain ⟨ws', hv'⟩ := view_create_of_ne (s := s) j hne.symm
      exact (congrArg (fun v => v.th.ctx) hv').trans hc
    have ha : Alike (view s t) (view (s.threadCreate a j .user) t) := by
      rw [hv]
      exact ⟨rfl, rfl, rfl, rfl, rfl, .rfl, fun _ => .rfl⟩
    exact (hl.lived t).of_alike (ha.trans (alike_ret hcur t)) htr (by simpa [About] using Ne.symm hta)

omit ht in
/-- A zombie is joined: nobody has joined it before. -/
theorem lives_join (hw : Awake s) (hc : (s.thr s.current).ctx = .user)
    (hz : (s.thr u).state = .zombie) (hu : u ∈ s.live) :
    Lives (((s.delZombieQ u).makeRunnable u .join).ret (.join u) (.joined (s.thr u).retval)) := by
  have hne : u ≠ s.current := ne_current hw hz (by simp)
  have hold := hl.lived u
  obtain ⟨r, hx⟩ := hold.zombie hz
  obtain ⟨hret, htm, hexit, hzj⟩ := hold.exiting r hu hx
  have htr : (((s.delZombieQ u).makeRunnable u .join).ret (.join u) (.joined (s.thr u).retval)).trace =
      [.returned s.current (.join u) (.joined (s.thr u).retval), .woken u .join] ++ s.trace := rfl
  have hlife : life u (((s.delZombieQ u).makeRunnable u .join).ret (.join u)
      (.joined (s.thr u).retval)).trace =
      .returned s.current (.join u) (.joined (s.thr u).retval) :: .woken u .join :: life u s.trace := by
    rw [htr, List.cons_append, life_cons (by simp), List.cons_append, life_cons (by simp),
      List.nil_append]
  have hwoken : life u (.woken u .join :: s.trace) = .woken u .join :: life u s.trace :=
    life_cons (by simp)
  have hth : (((s.delZombieQ u).makeRunnable u .join).ret (.join u) (.joined (s.thr u).retval)).thr u =
      { s.thr u with state := .runnable } :=
    (thr_ret_of_ne (s := (s.delZombieQ u).makeRunnable u .join) hne).trans (congrArg View.th view_joined)
  refine ⟨fun t => ?_, ⟨⟨?_, ?_, ?_⟩, trivial, hl.lawful⟩⟩
  · rcases eq_or_ne t u with rfl | htu
    · refine ⟨fun hm => ?_, fun _ => ⟨r, by rw [hth]; exact hx⟩, fun _ => ?_, fun _ => ?_,
        fun _ hn => ?_, fun r' _ hr => ?_, fun _ hd => absurd hu hd⟩
      · rw [hth]
        exact hold.made (by simpa [htr] using hm)
      · rw [hth, hlife]
        simpa [Joinable] using hold.joinable hu
      · rw [hlife]
        simpa using hold.kept hu
      · rw [hth] at hn
        exact absurd hx (hn r)
      · rw [hth] at hr ⊢
        obtain rfl : r' = r := by simpa [hx] using hr.symm
        refine ⟨hret, htm, fun v => ?_, ?_⟩
        · rw [hlife, ← hexit v]
          simp [Exited]
        · rw [hlife]
          exact iff_of_false (by simp) (not_not.mpr ⟨_, _, List.mem_cons_self⟩)
    · have hv : view ((s.delZombieQ u).makeRunnable u .join) t = view s t := by
        rw [Vp.makeRunnable, Vp.setState, view_log_of_ne htu rfl, view_addRunQ_of_ne htu,
          view_modify_of_ne htu, view_delZombieQ_of_ne htu]
      have hcur : (((s.delZombieQ u).makeRunnable u .join).thr s.current).ctx = .user := by
        rw [Vp.makeRunnable, Vp.setState]
        simpa [Vp.log, Vp.addRunQ, Vp.modify, Vp.delZombieQ, hne.symm] using hc
      refine (hl.lived t).of_alike ?_ htr (by simpa [About] using Ne.symm htu)
      exact hv ▸ alike_ret hcur t
  · show Exited u _ (life u (.woken u .join :: s.trace))
    rw [hwoken]
    obtain ⟨p, hp⟩ := (hexit _).mpr hret
    exact ⟨p, List.mem_cons_of_mem _ hp⟩
  · show ¬ WasJoined u (life u (.woken u .join :: s.trace))
    rw [hwoken]
    rintro ⟨x, v, hm⟩
    exact hzj.mp hz ⟨x, v, (List.mem_cons.mp hm).resolve_left (by simp)⟩
  · show _ ∉ life u (.woken u .join :: s.trace)
    rw [hwoken]
    simpa using hold.kept hu

/-- Whatever a step does to the lives, the history goes on agreeing with them. -/
theorem lives_turn (h : Turn s s') : Lives s' := by
  cases h with
  | keeps hk => exact hl.keeps hk
  | born hk hw₁ hc₁ ha => exact lives_create (hl.keeps hk) hw₁ hc₁ ha
  | dies hw hc htm hk => exact (lives_die hl hw hc htm).keeps hk
  | leaves hw hc htm hk => exact (lives_leave hl ht hw hc htm).keeps hk
  | cleanup hw hc hk => exact (lives_cleanup hl ht hw hc).keeps hk
  | @joined s₁ t hk hw₁ hc₁ hz =>
    have hp := hk.tidy.placed t
    refine lives_join (hl.keeps hk) hw₁ hc₁ hz (live_of_alive (hp.blocked ?_ ?_))
    · simp [hz]
    · simp [hz]

end Steps

theorem lives_stInit {i p : ThreadPtr} {now : UTime} (hne : i ≠ p) : Lives (Vp.stInit i p now) := by
  refine ⟨fun t => ?_, trivial⟩
  have hl : life t (Vp.stInit i p now).trace = [] := rfl
  have huser : ∀ v, ((Vp.stInit i p now).thr t).ctx ≠ .within (.exit v) ∧
      ((Vp.stInit i p now).thr t).term = false ∧ ((Vp.stInit i p now).thr t).state ≠ .zombie := by
    intro v
    by_cases htp : t = p
    · subst htp
      simp [thr_stInit_prim, Vp.primordialThread, Vp.newThread]
    by_cases hti : t = i
    · subst hti
      simp [thr_stInit_idle hne, Vp.newThread]
    · simp [Vp.stInit, Vp.threadCreate, Vp.addRunQ, Vp.delRunQ, Vp.log, Vp.modify, Vp.blank, htp, hti,
        Vp.newThread]
  refine ⟨fun hc => absurd hc List.not_mem_nil, fun hz => absurd hz (huser 0).2.2, fun _ => ?_,
    fun _ => by simp [hl], fun _ _ => by simp [hl, Exited, WasJoined], fun r _ hr => absurd hr (huser r).1,
    fun hc => absurd hc List.not_mem_nil⟩
  rw [(huser 0).2.1, hl]
  simp [Joinable]

/-- In every run the history agrees with the threads. -/
theorem lives_reach (h : Reach livesMachine s) : Lives s := by
  refine h.invariant_of (I := fun s => Tidy s ∧ Awake s ∧ Queues.ios s = ([], []))
    (fun _ h => tidy_reach h) ?_ ?_
  · rintro s ⟨i, p, now, hne, rfl⟩
    exact lives_stInit hne
  · rintro s a ⟨ht, hw, hio⟩ hl he -
    exact lives_turn hl ht (step_apply ht hw (Prod.mk.inj hio).2 he).turn

/-! ### Joining -/

/-- A call of `st_thread_join(t)` by the current thread fails between `s` and `s'`, and leaves `t`
joinable as it was. -/
structure FailsJoin (t : ThreadPtr) (e : Errno) (s s' : Vp) : Prop where
  returned : ∃ l, s'.trace = .returned s.current (.join t) (.fail e) :: (l ++ s.trace)
  state : (s'.thr t).state = (s.thr t).state
  retval : (s'.thr t).retval = (s.thr t).retval
  term : (s'.thr t).term = (s.thr t).term
  zombieQ : s'.zombieQ = s.zombieQ
  live : s'.live = s.live

/-- The fields `st_thread_join` looks at are not touched by what the current thread does to its own. -/
theorem modify_own (f : Thread → Thread) (hf : ∀ th, (f th).state = th.state ∧ (f th).retval = th.retval ∧
    (f th).term = th.term) (t : ThreadPtr) : ((s.modify u f).thr t).state = (s.thr t).state ∧
    ((s.modify u f).thr t).retval = (s.thr t).retval ∧ ((s.modify u f).thr t).term = (s.thr t).term := by
  rcases eq_or_ne t u with rfl | hne
  · rw [thr_modify]; exact hf _
  · simp [Vp.modify, hne]

theorem failsJoin_ret {s₀ : Vp} {e : Errno} {l : List Event} (hcur : s₀.current = s.current)
    (hth : (s₀.thr t).state = (s.thr t).state ∧ (s₀.thr t).retval = (s.thr t).retval ∧
      (s₀.thr t).term = (s.thr t).term)
    (hz : s₀.zombieQ = s.zombieQ) (hlive : s₀.live = s.live) (htr : s₀.trace = l ++ s.trace) :
    FailsJoin t e s (s₀.ret (.join t) (.fail e)) := by
  obtain ⟨h1, h2, h3⟩ := modify_own (s := s₀) (u := s₀.current) (fun th => { th with ctx := .user })
    (fun _ => ⟨rfl, rfl, rfl⟩) t
  exact ⟨⟨l, by rw [← htr, ← hcur]; rfl⟩, h1.trans hth.1, h2.trans hth.2.1, h3.trans hth.2.2, hz, hlive⟩

/-- A joiner that waits and is interrupted. -/
theorem failsJoin_resume (hc : (s.thr s.current).ctx = .within (.join t))
    (hi : (s.thr s.current).interrupt = true) : FailsJoin t .eintr s (Vp.apply s .resume) := by
  have hres : Vp.condResult (s.thr s.current) = some .eintr := by simp [Vp.condResult, hi]
  have ha : Vp.apply s .resume =
      (s.condTimedwaitLeave (.term t)).ret (.join t) (.fail .eintr) := by
    simp only [Vp.apply, hc, Vp.resumeOp, Vp.threadJoinResume, hres]
  rw [ha]
  have hth := modify_own (s := s.delWaitQ (.term t) s.current) (u := s.current)
    (fun th => { th with timedOut := false, interrupt := false, ctx := .user }) (fun _ => ⟨rfl, rfl, rfl⟩) t
  exact failsJoin_ret (l := []) rfl hth rfl rfl rfl

/-- A joiner with a pending interrupt that would have to wait. -/
theorem failsJoin_pending (hi : (s.thr s.current).interrupt = true) (hterm : (s.thr t).term = true)
    (hne : s.current ≠ t) (hw : s.waitQ (.term t) = []) (hz : (s.thr t).state ≠ .zombie) :
    FailsJoin t .eintr s (Vp.apply s (.call (.join t))) := by
  have ha : Vp.apply s (.call (.join t)) = ((s.log (.called s.current (.join t)
      (s.thr s.current).interrupt)).clearInterrupt s.current).ret (.join t) (.fail .eintr) := by
    simp [Vp.apply, Vp.callOp, Vp.threadJoin, Vp.joinLoop, Vp.condTimedwait, Vp.log, hterm, hne, hw, hz, hi]
  rw [ha]
  have hth := modify_own (s := s) (u := s.current) (fun th => { th with interrupt := false })
    (fun _ => ⟨rfl, rfl, rfl⟩) t
  exact failsJoin_ret (l := [.called s.current (.join t) (s.thr s.current).interrupt]) rfl hth rfl rfl rfl

/-- A second joiner. -/
theorem failsJoin_second (hw : s.waitQ (.term t) ≠ []) : ∃ e,
    FailsJoin t e s (Vp.apply s (.call (.join t))) ∧
      (Vp.apply s (.call (.join t))).waitQ = s.waitQ := by
  have hfail : ∀ e, FailsJoin t e s ((s.log (.called s.current (.join t)
      (s.thr s.current).interrupt)).ret (.join t) (.fail e)) := fun e =>
    failsJoin_ret (l := [.called s.current (.join t) (s.thr s.current).interrupt]) rfl ⟨rfl, rfl, rfl⟩
      rfl rfl rfl
  show ∃ e, FailsJoin t e s ((s.log _).threadJoin t) ∧ ((s.log _).threadJoin t).waitQ = s.waitQ
  rw [Vp.threadJoin]
  split_ifs with h1 h2 h3
  · exact ⟨_, hfail _, rfl⟩
  · exact ⟨_, hfail _, rfl⟩
  · exact ⟨_, hfail _, rfl⟩
  · exact absurd hw h3

/-- **Join exactly once**: in every run without I/O, whatever is joined, interrupted or waited for and in
whichever order,

* a join succeeds only after the thread exited, with its exit value, and once; a stack is freed once only,
  after the exit, and of a joinable thread after a join;
* the stack of a thread that is gone was freed, that of one that is not gone was not;
* a joiner that is interrupted, while it waits or before it would, fails and leaves the thread as it was;
* so does a joiner who finds another one inside the call, and it leaves the wait queue as it was. -/
theorem join_exactly_once (h : Reach livesMachine s) :
    Justified Lawful s.trace ∧
      (∀ t, .created t ∈ s.trace →
        (life t s.trace).count (.stackFreed t) = if t ∈ s.live then 0 else 1) ∧
      (∀ t, (s.thr s.current).ctx = .within (.join t) → (s.thr s.current).interrupt = true →
        FailsJoin t .eintr s (Vp.apply s .resume)) ∧
      (∀ t, (s.thr s.current).interrupt = true → (s.thr t).term = true → s.current ≠ t →
        s.waitQ (.term t) = [] → (s.thr t).state ≠ .zombie →
        FailsJoin t .eintr s (Vp.apply s (.call (.join t)))) ∧
      ∀ t x, (s.thr x).ctx = .within (.join t) → (∃ p, .called x (.join t) p ∈ life t s.trace) →
        ∃ e, FailsJoin t e s (Vp.apply s (.call (.join t))) ∧
          (Vp.apply s (.call (.join t))).waitQ = s.waitQ := by
  have hl := lives_reach h
  refine ⟨hl.lawful, fun t hc => ?_, fun t => failsJoin_resume, fun t => failsJoin_pending,
    fun t x hx hin => failsJoin_second fun hq => ?_⟩
  · split_ifs with ht
    · exact List.count_eq_zero.mpr ((hl.lived t).kept ht)
    · exact (hl.lived t).freed hc ht
  · have hpos := (tidy_reach h).1.waits x t hx hin
    change 0 < (s.waitQ (.term t)).count x at hpos
    rw [hq] at hpos
    exact absurd hpos (lt_irrefl 0)

/-- Thread `2` is joinable and exits with `7`. Its first joiner, thread `3`, is interrupted before it can
look; the primordial thread fails to join it beside that one, then joins it, and then waits for it again
while it has its cleanup left. -/
def joinRun : List Vp.Action :=
  [.call (.create (some 2) true), .call (.create (some 3) false), .call (.usleep 5),
    .call (.usleep 1), .call (.join 2), .idleWait false, .idleClock 5,
    .resume, .call (.exit 7), .resume, .call (.interrupt 3), .call (.join 2), .call (.usleep 1),
    .resume, .call (.exit 0), .idleWait false, .idleClock 7,
    .resume, .call (.join 2), .call (.join 2), .resume]

theorem joinRun_once : ∃ s, Reach livesMachine s ∧ Justified Lawful s.trace ∧ .stackFreed 2 ∈ s.trace ∧
    .returned 1 (.join 2) (.joined 7) ∈ s.trace ∧ .returned 3 (.join 2) (.fail .eintr) ∈ s.trace := by
  have hinit : livesMachine.init (Vp.stInit 0 1 0) := ⟨0, 1, 0, by decide, rfl⟩
  obtain ⟨s, hs⟩ : ∃ s, s = joinRun.foldl livesMachine.apply (Vp.stInit 0 1 0) := ⟨_, rfl⟩
  have hr : Reach livesMachine s := hs ▸ (ReachVia.init hinit).foldl joinRun (by decide +kernel)
  refine ⟨s, hr, (join_exactly_once hr).1, ?_, ?_, ?_⟩
  · rw [hs]; decide +kernel
  · rw [hs]; decide +kernel
  · rw [hs]; decide +kernel

end StNvs.Sched.Joining
