import StNvs.Server.Sessions

/-! # Messages and who still needs them

* `msg_stays`: a message that is shared does not change.
* `Contents.move`: what is queued for clients is whole, and the batch of a sender is backed by references.
* `Fit.move`: each coroutine fits where it goes on. -/

namespace StNvs.Server.Messages

open StNvs.Lib.Holders StNvs.Server.Model StNvs.Server.References StNvs.Server.Moves StNvs.Server.Counts
open StNvs.Server.Rights StNvs.Server.Sessions Function

variable {law : Law} {gain loss H H' : Hand} {s s' : Sys} {p : PuPtr} {c : CuPtr} {m : MsgPtr} {t u : Task}

/-! ### Who makes what -/

/-- Devices are sent what they have made themselves, and clients what others have. -/
structure Made (s : Sys) : Prop where
  pu : ∀ p, ∀ m ∈ (s.pu p).queue, m.maker = .device p
  video : ∀ p v, (s.pu p).video = some v → v.maker = .device p
  cu : ∀ c, ∀ m ∈ (s.cu c).queue, ∀ p, m.maker ≠ .device p

theorem puQueue_move (h : Move law gain loss H s H' s') (p : PuPtr) :
    (s'.pu p).queue = (s.pu p).queue ∨ (s'.pu p).queue = [] ∨
      ∃ m, (s'.pu p).queue = (s.pu p).queue ++ [m] ∧ m.maker = .device p := by
  cases h with
  | newPu sn _ =>
    obtain rfl | hp := eq_or_ne p s.pus
    · exact .inr (.inl (by simp))
    · exact .inl (by simp [hp])
  | @pushPu _ _ q m hvalid hmaker h0 =>
    obtain rfl | hq := eq_or_ne p q
    · exact .inr (.inr ⟨m, by simp [Sys.notifyPu], hmaker⟩)
    · exact .inl (by simp [Sys.notifyPu, hq])
  | @deletePu _ _ q _ _ _ | @backupPu _ _ q _ =>
    obtain rfl | hq := eq_or_ne p q
    · exact .inr (.inl (by simp))
    · exact .inl (by simp [hq])
  | _ =>
    exact .inl (by simp [Sys.notifyPu, Sys.notifyCu, Sys.fork, Sys.addPu, closed_pu, update_field PuProxy.queue])

theorem video_move (h : Move law gain loss H s H' s') (p : PuPtr) :
    (s'.pu p).video = (s.pu p).video ∨ (s'.pu p).video = none ∨
      ∃ m, (s'.pu p).video = some m ∧ m.maker = .device p := by
  cases h with
  | newPu sn _ =>
    obtain rfl | hp := eq_or_ne p s.pus
    · exact .inr (.inl (by simp))
    · exact .inl (by simp [hp])
  | @setVideo _ _ q m hmaker _ _ _ =>
    obtain rfl | hq := eq_or_ne p q
    · exact .inr (.inr ⟨m, by simp, hmaker⟩)
    · exact .inl (by simp [hq])
  | _ =>
    exact .inl (by simp [Sys.notifyPu, Sys.notifyCu, Sys.fork, Sys.addPu, closed_pu, update_field PuProxy.video])

theorem Made.move (hm : Made s) (h : Move law gain loss H s H' s') : Made s' := by
  refine ⟨fun p m hmem => ?_, fun p v hv => ?_, fun c m hmem => ?_⟩
  · obtain h1 | h1 | ⟨x, h1, hx⟩ := puQueue_move h p
    · exact hm.pu p m (h1 ▸ hmem)
    · simp [h1] at hmem
    · obtain hmem | rfl : m ∈ (s.pu p).queue ∨ m = x := by simpa [h1] using hmem
      · exact hm.pu p m hmem
      · exact hx
  · obtain h1 | h1 | ⟨x, h1, hx⟩ := video_move h p
    · exact hm.video p v (h1 ▸ hv)
    · simp [h1] at hv
    · obtain rfl : x = v := Option.some.inj (h1.symm.trans hv)
      exact hx
  · obtain h1 | h1 | ⟨x, h1, -, -, hx, -⟩ := cuQueue_move h c
    · exact hm.cu c m (h1 ▸ hmem)
    · simp [h1] at hmem
    · obtain hmem | rfl : m ∈ (s.cu c).queue ∨ m = x := by simpa [h1] using hmem
      · exact hm.cu c m hmem
      · exact hx

/-! ### What messages say -/

theorem draft_not_msg (hb : Balanced H s) (hd : .draft m ∈ H + tokens s) : .msg m ∉ H + tokens s := fun hm => by
  have h1 := Multiset.count_pos.2 hd
  have h2 := Multiset.count_pos.2 hm
  have h3 := hb.draft m
  omega

/-- **A shared message does not change**, unless it is one that a device sends; that stays whole. -/
theorem msg_stays (hb : Balanced H s) (h : Move law gain loss H s H' s') (hm : .msg m ∈ H + tokens s)
    (hm' : .msg m ∈ H' + tokens s') :
    (s'.msg m).hdr = (s.msg m).hdr ∧ (s'.msg m).body = (s.msg m).body ∨
      (∃ p, m.maker = .device p) ∧ (Whole (s.msg m) → Whole (s'.msg m)) := by
  have hnews : m ∈ s.log.news := hb.born _ hm
  cases h with
  | newMsg k hdr body _ _ =>
    have hne : m ≠ s.fresh k := fun h => hb.fresh_not_mem k (h ▸ hnews)
    exact .inl (by simp [hne])
  | newDraft c hdr body =>
    have hne : m ≠ s.fresh (.client c) := fun h => hb.fresh_not_mem _ (h ▸ hnews)
    exact .inl (by simp [hne])
  | @writeDraft X _ d f hf =>
    have hne : m ≠ d := by
      rintro rfl
      exact draft_not_msg hb (by simp) hm
    exact .inl (by simp [hne])
  | @writeDevice _ _ d f p hp _ hf =>
    obtain rfl | hne := eq_or_ne m d
    · exact .inr ⟨⟨p, hp⟩, fun hwhole => by simpa using hf _ hwhole⟩
    · exact .inl (by simp [hne])
  | @deleteMsg _ _ d h1 _ =>
    have hne : m ≠ d := by
      rintro rfl
      have h2 := hb.msg m
      have h3 := Multiset.count_pos.2 (show Token.msg m ∈ H' + tokens s from hm')
      rw [h1, add_right_comm, Multiset.count_add, Multiset.count_singleton_self] at h2
      omega
    exact .inl (by simp [hne])
  | _ =>
    exact .inl (by
      simp [Sys.notifyPu, Sys.notifyCu, Sys.fork, Sys.addPu, closed_msg, update_field Msg.hdr,
        update_field Msg.body])

theorem content_stays (hb : Balanced H s) (h : Move law gain loss H s H' s') (hm : .msg m ∈ H + tokens s)
    (hm' : .msg m ∈ H' + tokens s') (hmaker : ∀ p, m.maker ≠ .device p) : s'.content m = s.content m := by
  obtain ⟨h1, h2⟩ | ⟨⟨p, hp⟩, -⟩ := msg_stays hb h hm hm'
  · simp only [Sys.content, h1, h2]
  · exact absurd hp (hmaker p)

/-! ### Who needs a message -/

/-- The coroutine of a sender has references to its batch. -/
theorem sender_tokens {b : List MsgPtr} (h : .cuSender c (some b) ∈ tokens s) (hm : m ∈ b) :
    .msg m ∈ tokens s := by
  obtain ⟨t, ht, hg⟩ := held_by_task h nofun nofun nofun nofun
  refine mem_tokens.2 (.inl ⟨t, ht, ?_⟩)
  cases t with
  | cuSend d | cuWait d | cuNotified d =>
    obtain ⟨rfl, rfl⟩ : c = d ∧ b = [] := by simpa [grants] using hg
    simp at hm
  | cuBatch d batch =>
    obtain ⟨rfl, rfl⟩ : c = d ∧ b = batch := by simpa [grants, mem_msgs] using hg
    simpa [grants, mem_msgs] using hm
  | cuWrite d frame x batch =>
    obtain ⟨rfl, rfl⟩ : c = d ∧ b = x :: batch := by simpa [grants, mem_msgs] using hg
    obtain rfl | hm := List.mem_cons.1 hm
    · simp [grants]
    · simp [grants, mem_msgs, hm]
  | _ => simp [grants, mem_msgs] at hg

/-- A reference that is given back is not the last one, or the message is deleted. -/
theorem msg_before (hb : Balanced H s) (h : Move law gain loss H s H' s') (hm : .msg m ∈ H + tokens s) :
    .msg m ∈ H' + tokens s' ∨
      .msg m ∉ tokens s ∧ H = H' + {.msg m} ∧ ∀ c b, .cuSender c (some b) ∈ H' → m ∉ b := by
  obtain hloss | hafter := mem_before hb h hm
  · cases h with
    | @dropMsg _ _ d h0 h1 =>
      obtain rfl : m = d := by simpa using hloss
      have h2 := hb.msg m
      have h3 : (H' + {Token.msg m} + tokens s).count (.draft m) = 0 :=
        Multiset.count_eq_zero.2 fun hd => draft_not_msg hb hd hm
      rw [h3, add_right_comm, Multiset.count_add, Multiset.count_singleton_self] at h2
      exact .inl (Multiset.count_pos.1 (show 0 < (H' + tokens s).count (.msg m) by omega))
    | @deleteMsg _ _ d h1 hbatch =>
      obtain rfl : m = d := by simpa using hloss
      have h2 := hb.msg m
      refine .inr ⟨fun h => ?_, rfl, hbatch⟩
      have h3 := Multiset.count_pos.2 h
      rw [h1, Multiset.count_add, Multiset.count_add, Multiset.count_singleton_self] at h2
      omega
    | _ => simp [Multiset.mem_singleton] at hloss
  · exact .inl hafter

/-- What has a maker other than a client is whole; only clients make a message that is not finished; the
messages of a batch are there to be written. -/
structure Contents (H : Hand) (s : Sys) : Prop where
  drafts : ∀ m, .draft m ∈ H + tokens s → ∃ c, m.maker = .client c
  whole : ∀ m, .msg m ∈ H + tokens s → (∀ c, m.maker ≠ .client c) → Whole (s.msg m)
  backed : ∀ c b, .cuSender c (some b) ∈ H + tokens s →
    ∀ m ∈ b, .msg m ∈ H + tokens s ∧ ∀ p, m.maker ≠ .device p

theorem Contents.move (hb : Balanced H s) (hmade : Made s) (hc : Contents H s) (h : Move law gain loss H s H' s') :
    Contents H' s' := by
  refine ⟨fun m hm => ?_, fun m hm hmaker => ?_, fun c b hcb m hm => ?_⟩
  · obtain hg | hold := mem_after hb h hm
    · cases h with
      | newDraft c hdr body =>
        obtain rfl : m = s.fresh (.client c) := by simpa using hg
        exact ⟨c, rfl⟩
      | _ => simp at hg
    · exact hc.drafts m hold
  · -- a message that was there before
    have hold (hbefore : .msg m ∈ H + tokens s) : Whole (s'.msg m) := by
      have hwhole := hc.whole m hbefore hmaker
      obtain ⟨h1, h2⟩ | ⟨-, h1⟩ := msg_stays hb h hbefore hm
      · rwa [Whole, h1, h2]
      · exact h1 hwhole
    obtain hg | hbefore := mem_after hb h hm
    · cases h with
      | newMsg k hdr body hk hwhole =>
        obtain rfl : m = s.fresh k := by simpa using hg
        simpa using hwhole
      | @share _ _ d =>
        obtain rfl : m = d := by simpa using hg
        obtain ⟨c, hmc⟩ := hc.drafts m (by simp)
        exact absurd hmc (hmaker c)
      | @addMsg _ _ d hd =>
        obtain rfl : m = d := by simpa using hg
        exact hold hd
      | _ => simp at hg
    · exact hold hbefore
  · -- a batch that was there before
    have hold {b : List MsgPtr} (hcb : .cuSender c (some b) ∈ H + tokens s) (hm : m ∈ b) :
        .msg m ∈ H' + tokens s' ∧ ∀ p, m.maker ≠ .device p := by
      obtain ⟨hmem, hmaker⟩ := hc.backed c b hcb m hm
      refine ⟨?_, hmaker⟩
      obtain h1 | ⟨h1, rfl, h2⟩ := msg_before hb h hmem
      · exact h1
      · obtain h3 | h3 : .cuSender c (some b) ∈ H' ∨ .cuSender c (some b) ∈ tokens s := by simpa using hcb
        · exact absurd hm (h2 c b h3)
        · exact absurd (sender_tokens h3 hm) h1
    obtain hg | hbefore := mem_after hb h hcb
    · cases h with
      | newCu =>
        obtain ⟨-, rfl⟩ : c = s.cus ∧ b = [] := by simpa using hg
        simp at hm
      | @backupCu _ _ d h0 =>
        obtain ⟨rfl, rfl⟩ : c = d ∧ b = (s.cu d).queue := by simpa using hg
        exact ⟨by simp [mem_msgs, hm], hmade.cu c m hm⟩
      | @noteWritten _ _ d x b' frame hframe _ =>
        obtain ⟨rfl, rfl⟩ : c = d ∧ b = b' := by simpa using hg
        exact hold (b := x :: b) (by simp) (List.mem_cons_of_mem x hm)
      | _ => simp at hg
    · exact hold hbefore hm

/-! ### Where coroutines go on -/

/-- The coroutines that do not wait for a condition. -/
def awake (s : Sys) : List Task := s.running.toList ++ s.runq ++ s.io

theorem mem_tasks : t ∈ s.tasks ↔ t ∈ awake s ∨ t ∈ s.conds := by simp [Sys.tasks, awake, or_assoc]

theorem fits_congr (hpu : s'.pu = s.pu) (hmsg : s'.msg = s.msg) : Fits s' t ↔ Fits s t := by
  unfold Fits
  simp only [Sys.content, hpu, hmsg]

theorem calm_congr (hpu : s'.pu = s.pu) (hcu : s'.cu = s.cu) : Calm s' t ↔ Calm s t := by
  unfold Calm
  simp only [hpu, hcu]

theorem awake_place {k : Spot} (h : t ∈ awake (s.place u k)) : t ∈ awake s ∨ t = u ∧ k ≠ .conds := by
  cases k <;> simp [awake, Sys.place] at h ⊢ <;> tauto

theorem conds_place {k : Spot} (h : t ∈ (s.place u k).conds) : t ∈ s.conds ∨ t = u ∧ k = .conds := by
  cases k <;> simpa [Sys.place] using h

theorem awake_signal {v : Task} (h : t ∈ awake (s.signal u v)) : t ∈ awake s ∨ t = v ∧ u ∈ s.conds := by
  unfold Sys.signal at h
  split at h
  next hu =>
    simp [awake] at h ⊢
    tauto
  next => exact .inl h

theorem conds_signal {v : Task} (h : t ∈ (s.signal u v).conds) : t ∈ s.conds := by
  unfold Sys.signal at h
  split at h
  · exact List.mem_of_mem_erase h
  · exact h

theorem awake_closed (h : t ∈ awake (closed s c)) :
    t ∈ awake s ∨ t = .cuNotified c ∨ ∃ m, t = .parted c m ∧ .park c m ∈ s.conds := by
  unfold closed at h
  split at h
  · obtain h | ⟨h, -⟩ := awake_signal h
    · exact .inl h
    · exact .inr (.inl h)
  next m _ =>
    obtain h | ⟨h, -⟩ := awake_signal h
    · obtain h | ⟨h, hpark⟩ := awake_signal (u := .park c m) h
      · exact .inl h
      · exact .inr (.inr ⟨m, h, hpark⟩)
    · exact .inr (.inl h)

theorem conds_closed (h : t ∈ (closed s c).conds) : t ∈ s.conds := by
  unfold closed at h
  split at h
  · exact conds_signal (s := s.modCu c _) h
  · exact conds_signal (s := s.modCu c _) (conds_signal (s := (Sys.signal _ _ _).modCu c _) h)

/-- A coroutine that has not been there is new or has come to its next point, or it has been signalled. -/
theorem awake_move (hf : ∀ t ∈ s.tasks, Fits s t) (h : Move law gain loss H s H' s') (ht : t ∈ awake s') :
    t ∈ awake s ∨ ¬ Waits t ∧ Fits s' t ∧ (law = .silent → ¬ Writes t) := by
  cases h with
  | shuffle hperm => exact .inl (hperm.mem_iff.1 ht)
  | take hrun => exact .inl (by simp [awake] at ht ⊢; tauto)
  | place u k hrun hfits hwaits hcalm hsilent =>
    obtain ht | ⟨rfl, hk⟩ := awake_place ht
    · exact .inl ht
    · exact .inr ⟨fun h => hk (hwaits.1 h), (fits_congr place_pu place_msg).2 hfits, hsilent⟩
  | closePu | pushPu =>
    obtain ht | ⟨rfl, -⟩ := awake_signal ht
    · exact .inl ht
    · exact .inr ⟨id, trivial, fun _ => id⟩
  | pushCu =>
    obtain ht | ⟨rfl, -⟩ := awake_signal ht
    · exact .inl ht
    · exact .inr ⟨id, trivial, fun _ => id⟩
  | closeQuiet | closeParked =>
    obtain ht | rfl | ⟨m, rfl, hpark⟩ := awake_closed ht
    · exact .inl ht
    · exact .inr ⟨id, trivial, fun _ => id⟩
    · exact .inr ⟨id, hf _ (mem_tasks.2 (.inr hpark)), fun _ => id⟩
  | ask hmaker _ _ =>
    obtain ht | ⟨rfl, -⟩ := awake_place ht
    · exact .inl ht
    · exact .inr ⟨id, hmaker, fun _ => id⟩
  | _ => exact .inl ht

theorem conds_move (h : Move law gain loss H s H' s') (ht : t ∈ s'.conds) :
    t ∈ s.conds ∨ Waits t ∧ Fits s' t ∧ (law = .prompt → Calm s' t) := by
  cases h with
  | place u k hrun hfits hwaits hcalm _ =>
    obtain ht | ⟨rfl, hk⟩ := conds_place ht
    · exact .inl ht
    · exact .inr ⟨hwaits.2 hk, (fits_congr place_pu place_msg).2 hfits,
        fun hlaw => (calm_congr place_pu place_cu).2 (hcalm hlaw)⟩
  | closePu | pushPu => exact .inl (conds_signal (s := s.modPu _ _) ht)
  | pushCu => exact .inl (conds_signal (s := s.cuPush _ _) ht)
  | closeQuiet | closeParked => exact .inl (conds_closed ht)
  | _ => exact .inl ht

theorem sn_stays (h : Move law gain loss H s H' s') (hp : p < s.pus) : (s'.pu p).sn = (s.pu p).sn := by
  cases h with
  | newPu sn _ => simp [ne_of_lt hp]
  | _ => simp [Sys.notifyPu, Sys.notifyCu, Sys.fork, Sys.addPu, closed_pu, update_field PuProxy.sn]

theorem task_tokens {x : Token} (ht : t ∈ s.tasks) (hx : x ∈ grants t) : x ∈ H + tokens s :=
  Multiset.mem_add.2 (.inr (mem_tokens.2 (.inl ⟨t, ht, hx⟩)))

/-- What a coroutine relies on stays as it is. -/
theorem fits_stays (hb : Balanced H s) (h : Move law gain loss H s H' s') (ht : t ∈ s.tasks)
    (ht' : t ∈ s'.tasks) (hf : Fits s t) : Fits s' t := by
  cases t with
  | login sn p => exact (sn_stays h (hb.born _ (task_tokens (x := .pu p) ht (by simp [grants])))).trans hf
  | cuWrite c frame m batch =>
    have hx : .msg m ∈ grants (.cuWrite c frame m batch) := by simp [grants]
    refine ⟨hf.1.trans ?_, hf.2⟩
    rw [content_stays hb h (task_tokens ht hx) (task_tokens ht' hx) (hf.2 m List.mem_cons_self)]
  | _ => exact hf

/-- Each coroutine fits where it goes on, and those that wait for a condition are at a wait. -/
structure Fit (s : Sys) : Prop where
  fits : ∀ t ∈ s.tasks, Fits s t
  awake : ∀ t ∈ awake s, ¬ Waits t
  conds : ∀ t ∈ s.conds, Waits t

theorem Fit.move (hb : Balanced H s) (hf : Fit s) (h : Move law gain loss H s H' s') : Fit s' := by
  refine ⟨fun t ht => ?_, fun t ht => ?_, fun t ht => ?_⟩
  · obtain h1 | h1 := mem_tasks.1 ht
    · obtain h2 | h2 := awake_move hf.fits h h1
      · have h3 := mem_tasks.2 (.inl h2)
        exact fits_stays hb h h3 ht (hf.fits t h3)
      · exact h2.2.1
    · obtain h2 | h2 := conds_move h h1
      · have h3 := mem_tasks.2 (.inr h2)
        exact fits_stays hb h h3 ht (hf.fits t h3)
      · exact h2.2.1
  · obtain h1 | h1 := awake_move hf.fits h ht
    · exact hf.awake t h1
    · exact h1.1
  · obtain h1 | h1 := conds_move h ht
    · exact hf.conds t h1
    · exact h1.1

/-! ### All together -/

/-- **What holds in every state**, with what the running coroutine has in its hand. -/
structure Sound (H : Hand) (s : Sys) : Prop where
  balanced : Balanced H s
  exclusive : Exclusive H s
  registered : Registered s
  clients : Clients H s
  senders : Senders H s
  made : Made s
  contents : Contents H s
  fit : Fit s

theorem Sound.move (hs : Sound H s) (h : Move law gain loss H s H' s') : Sound H' s' where
  balanced := hs.balanced.move h
  exclusive := hs.exclusive.move hs.balanced h
  registered := hs.registered.move hs.balanced h
  clients := hs.clients.move hs.balanced h
  senders := hs.senders.move hs.balanced h
  made := hs.made.move h
  contents := hs.contents.move hs.balanced hs.made h
  fit := hs.fit.move hs.balanced h

theorem Sound.path (hs : Sound H s) (h : Path law H s H' s') : Sound H' s' := by
  induction h with
  | refl => exact hs
  | tail _ hm ih => exact ih.move hm

end StNvs.Server.Messages
