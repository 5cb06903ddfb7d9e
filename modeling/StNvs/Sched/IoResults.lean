import StNvs.Sched.Touches
import StNvs.Sched.Completion
import StNvs.Sched.Waits
import Mathlib.Data.List.Nodup

/-! # What reads and writes return

`Sys` is the scheduler with how each operation completed: `_st_iocp_thread_pool` stores the byte count in
the one `context_switch` of the thread whatever the outcome was, and `st_read` and `st_write` do not look at
what `_st_wait` returned. A completion between the system call and the wait is here one right after the wait
has begun; that is the same, since `st_read` and `st_write` look at the count after the wait only.

A step is `Proper` if it interrupts no thread inside `st_read` or `st_write` and takes none from the
operation it waits for, and if a read completes with success, a write with success and all its bytes.

* `truthful_reach`: after proper steps the results of `st_read` and `st_write` are those of the very
  operation.
* `readFully_total`: `st_read_fully` adds them up. -/

namespace StNvs.Sched.IoResults

open StNvs.Lib.Runs StNvs.Lib.History StNvs.Sched.Sleep StNvs.Sched.Model StNvs.Sched.Moves
open StNvs.Sched.Threads StNvs.Sched.Invariant StNvs.Sched.Calls StNvs.Sched.History
open StNvs.Sched.Waits StNvs.Sched.Touches Function

/-! ### The machine -/

/-- What `GetQueuedCompletionStatus` reports of an operation: whether it succeeded, and the bytes
transferred, a `DWORD`. -/
structure Outcome where
  ok : Bool
  bytes : BitVec 32
  deriving DecidableEq, Repr

/-- What is stored in `valid_len`, an `int`. -/
def Outcome.stored (d : Outcome) : ℤ := d.bytes.toInt

/-- The scheduler, and how the operations completed that did. -/
structure Sys where
  vp : Vp
  done : Entry → Option Outcome

/-- An operation completes, or anything else happens. -/
inductive Action
  | act (a : Vp.Action)
  | complete (e : Entry) (d : Outcome)
  deriving DecidableEq, Repr

/-- The operations of `st_read` and `st_write`. -/
def transfers : IoKind → Bool
  | .read | .write _ => true
  | .accept | .connect | .db => false

/-- Completions are not the scheduler's, and `nbyte` is a `size_t`. -/
def supplied : Vp.Action → Bool
  | .complete _ _ => false
  | .call (.io (.write nbyte) _ _) => 0 ≤ nbyte
  | _ => true

namespace Sys

def apply (s : Sys) : Action → Sys
  | .act a => { s with vp := Vp.apply s.vp a }
  | .complete e d => ⟨s.vp.complete e d.stored, update s.done e (some d)⟩

def Enabled (s : Sys) : Action → Prop
  | .act a => Vp.Enabled s.vp a ∧ supplied a = true
  | .complete e _ => e ∈ s.vp.inflight

end Sys

/-- The scheduler, with the outcomes of its operations. -/
def machine : Machine Sys Action where
  init s := ∃ idle prim now, idle ≠ prim ∧ s = ⟨Vp.stInit idle prim now, fun _ => none⟩
  enabled := Sys.Enabled
  apply := Sys.apply

/-- What `st_read` or `st_write` returns, if the operation completed as `d` says, entered with the flag `p`
and with the events `sg` since. -/
structure Reports (t : ThreadPtr) (k : IoKind) (o : Submit) (d : Option Outcome) (p : Bool)
    (sg : List Event) (r : Ret) : Prop where
  read : k = .read → ∀ j, 0 ≤ j → r = .bytes j → ∃ b, d = some ⟨true, b⟩ ∧ (b.toNat : ℤ) = j
  write : ∀ nbyte, k = .write nbyte → r = .bytes nbyte → ∃ b, d = some ⟨true, b⟩ ∧ (b.toNat : ℤ) = nbyte
  failed : Vp.posted k o = false ∨ (∃ b, d = some ⟨false, b⟩) → r = .bytes (-1)
  interrupted : p = true ∨ .interrupted t ∈ sg → r = .bytes (-1)

/-- Why a read or a write may have returned what it returned. -/
def JustIo (done : Entry → Option Outcome) (t : ThreadPtr) (ev : Event) (pre : List Event) : Prop :=
  ∀ x k o n r, ev = .returned x (.io k o n) r → transfers k = true → ∃ p,
    openCall pre = some (.io k o n, p) ∧ Reports t k o (done ⟨t, k, n⟩) p (seg pre) r

/-- The results of the reads and writes are those of the operations themselves. -/
def Truthful (s : Sys) : Prop := ∀ t, Justified (JustIo s.done t) (own t s.vp.trace)

/-- A read completes with success, or with the count stored as `-1`; a write completes with success and
with all its bytes. -/
def Fits : IoKind → Outcome → Prop
  | .read, d => d.ok = true ∨ d.stored = -1
  | .write nbyte, d => d.ok = true ∧ (d.bytes.toNat : ℤ) = nbyte
  | _, _ => True

/-- A step that is calm, interrupts no thread inside `st_read` or `st_write`, and completes no operation
short. -/
def Proper (s : Sys) : Action → Prop
  | .act a => Calm s.vp a ∧ ∀ t, a = .call (.interrupt t) →
      ∀ k o n, (s.vp.thr t).ctx = .within (.io k o n) → transfers k = false
  | .complete e d => Fits e.kind d

variable {s s' : Vp} {t u x : ThreadPtr} {op : Op} {R : Vp → Vp → Prop} {c : Option Op}

/-! ### What a step leaves of the I/O of the threads -/

/-- A thread inside an I/O call was there before, with the same count, and only `c` interrupts it. -/
structure Stays (c : Option Op) (x : ThreadPtr) (s s' : Vp) : Prop where
  ctx : (s'.thr x).ctx = (s.thr x).ctx
  validLen : (s'.thr x).validLen = (s.thr x).validLen
  flag : (s'.thr x).interrupt = true → (s.thr x).interrupt = true ∨ c = some (.interrupt x)

/-- The operations in flight are the same, and who is inside an I/O call was, but for the thread `u` inside
the call `c`. -/
structure Frame (c : Option Op) (u : ThreadPtr) (s s' : Vp) : Prop where
  inflight : s'.inflight = s.inflight
  grows : Grows c u s s'
  inside : ∀ x k o n, (s'.thr x).ctx = .within (.io k o n) →
    Stays c x s s' ∨ x = u ∧ c = some (.io k o n)

theorem Frame.refl : Frame c u s s := ⟨rfl, .same rfl le_rfl, fun _ _ _ _ _ => .inl ⟨rfl, rfl, .inl⟩⟩

theorem Frame.trans {s'' : Vp} (h : Frame c u s s') (h' : Frame c u s' s'') : Frame c u s s'' := by
  refine ⟨h'.inflight.trans h.inflight, h.grows.trans h'.grows, fun x k o n hx => ?_⟩
  rcases h'.inside x k o n hx with hs' | hu
  · rcases h.inside x k o n (hs'.ctx ▸ hx) with hs | hu
    · refine .inl ⟨hs'.ctx.trans hs.ctx, hs'.validLen.trans hs.validLen, fun hi => ?_⟩
      exact (hs'.flag hi).elim hs.flag .inr
    · exact .inr hu
  · exact .inr hu

/-- A change of fields of a thread. -/
theorem frame_update {f : Thread → Thread} (hv : ∀ th, (f th).validLen = th.validLen)
    (hint : ∀ th, (f th).interrupt = true → th.interrupt = true)
    (hc : ∀ th k o n, (f th).ctx = .within (.io k o n) → (f th).ctx = th.ctx ∨ t = u ∧ c = some (.io k o n))
    (hi : s'.inflight = s.inflight) (hg : Grows c u s s') (ht : s'.thr = (s.modify t f).thr) :
    Frame c u s s' := by
  refine ⟨hi, hg, fun x k o n h => ?_⟩
  rw [ht] at h
  rcases eq_or_ne x t with rfl | hne
  · rcases hc (s.thr x) k o n (by simpa [Vp.modify] using h) with hx | hx
    · refine .inl ⟨by simpa [ht, Vp.modify] using hx, by simp [ht, Vp.modify, hv], fun hi => .inl ?_⟩
      exact hint _ (by simpa [ht, Vp.modify] using hi)
    · exact .inr hx
  · refine .inl ⟨by simp [ht, Vp.modify, hne], by simp [ht, Vp.modify, hne], fun hi => .inl ?_⟩
    simpa [ht, Vp.modify, hne] using hi

/-- A thread enters the sleep queue, or leaves it. -/
theorem frame_onSleepQ (b : Bool) (hi : s'.inflight = s.inflight) (hg : Grows c u s s')
    (ht : s'.thr = (s.modify t fun th => { th with onSleepQ := b }).thr) : Frame c u s s' :=
  frame_update (f := fun th => { th with onSleepQ := b }) (fun _ => rfl) (fun _ => id)
    (fun _ _ _ _ _ => .inl rfl) hi hg ht

theorem frame_thr (hi : s'.inflight = s.inflight) (hg : Grows c u s s') (ht : s'.thr = s.thr) :
    Frame c u s s' :=
  ⟨hi, hg, fun x _ _ _ _ => .inl ⟨by rw [ht], by rw [ht], fun hx => .inl (ht ▸ hx)⟩⟩

/-- **Touches** leave the I/O alone. -/
theorem frame_touched (h : Touched R c u s s') (hR : ∀ s₁ s₂, R s₁ s₂ → Frame c u s₁ s₂) :
    Frame c u s s' := by
  induction h with
  | refl => exact .refl
  | @tail s₁ s₂ _ ht ih =>
    refine ih.trans ?_
    cases ht with
    | own f hf hc =>
      refine frame_update hf.validLen hf.interrupt (fun th k o n hx => ?_) rfl (.same rfl le_rfl) rfl
      exact (hc th _ hx).imp (fun hth => hx.trans hth.symm) fun hop => ⟨rfl, hop⟩
    | other t f hf hc =>
      exact frame_update hf.validLen hf.interrupt (fun th _ _ _ _ => .inl (hc th)) rfl (.same rfl le_rfl) rfl
    | lists hth _ _ _ hi hg => exact frame_thr hi hg hth
    | awaken ho => exact frame_onSleepQ false rfl (.same rfl le_rfl) rfl
    | special hs => exact hR _ _ hs

/-- What is special about a call, if it is not one of I/O. -/
theorem frame_special (hio : ∀ k o n, op ≠ .io k o n) {s₁ s₂ : Vp} (h : Special op u s₁ s₂) :
    Frame (some op) u s₁ s₂ := by
  have hsleep : ∀ y, Frame (some op) u s₁ (s₁.addSleepQ u y) := fun y =>
    frame_onSleepQ true rfl (.same rfl le_rfl) rfl
  match op, h with
  | .usleep y, h => obtain rfl := h; exact hsleep y
  | .condTimedwait c y, h => obtain ⟨-, rfl⟩ := h; exact hsleep y
  | .create (some a) j, h =>
    obtain rfl := h
    refine ⟨rfl, .same rfl le_rfl, fun x k o n hx => ?_⟩
    rcases eq_or_ne x a with rfl | hne
    · simp [Vp.newThread] at hx
    · exact .inl ⟨by simp [hne], by simp [hne], fun hi => .inl (by simpa [hne] using hi)⟩
  | .exit v, h => obtain rfl := h; exact frame_thr rfl (.same rfl le_rfl) rfl
  | .interrupt t, h =>
    obtain rfl := h
    refine ⟨rfl, .same rfl le_rfl, fun x k o n hx => .inl ?_⟩
    rcases eq_or_ne x t with rfl | hne
    · exact ⟨by simp [Vp.modify], by simp [Vp.modify], fun _ => .inr rfl⟩
    · exact ⟨by simp [Vp.modify, hne], by simp [Vp.modify, hne], fun hi => .inl (by simpa [Vp.modify, hne] using hi)⟩
  | .io k o n, _ => exact absurd rfl (hio k o n)

/-- The loop of the clock. -/
theorem frame_checkClockLoop : ∀ (q : List ThreadPtr) (e : UTime) (s : Vp),
    Frame none u s (s.checkClockLoop e q)
  | [], _, _ => .refl
  | t :: q, e, s => by
    have hx : Frame none u s (s.expireThread t) := by
      have hd : Frame none u s (s.delSleepQ t true) := frame_onSleepQ false rfl (.same rfl le_rfl) rfl
      have hm : ∀ s' : Vp, Frame none u s' (s'.makeRunnable t .clock) := fun s' =>
        frame_touched (R := fun _ _ => False) (touches_makeRunnable .clock) fun _ _ hR => hR.elim
      unfold Vp.expireThread
      dsimp only
      split
      · have ht : Frame none u (s.delSleepQ t true)
            ((s.delSleepQ t true).modify t fun th => { th with timedOut := true }) :=
          frame_update (f := fun th => { th with timedOut := true }) (fun _ => rfl) (fun _ => id)
            (fun _ _ _ _ _ => .inl rfl) rfl (.same rfl le_rfl) rfl
        exact (hd.trans ht).trans (hm _)
      · exact hd.trans (hm _)
    rw [Vp.checkClockLoop]
    split_ifs
    · exact frame_thr rfl (.same rfl le_rfl) rfl
    · exact hx.trans (frame_checkClockLoop q _ _)

/-- **A step** that is neither a call of I/O nor a completion. -/
theorem frame_apply {a : Vp.Action} (hco : ∀ e n, a ≠ .complete e n) (hio : ∀ k o n, a ≠ .call (.io k o n)) :
    Frame (callOf s a) s.current s (Vp.apply s a) := by
  by_cases hcl : ∃ now, a = .idleClock now
  · obtain ⟨now, rfl⟩ := hcl
    have hl : Frame none s.current s { s with lastClock := now } := frame_thr rfl (.same rfl le_rfl) rfl
    have hk : Frame none s.current s (s.vpCheckClock now) := hl.trans (frame_checkClockLoop _ _ _)
    have hs : Touched (fun _ _ => False) none s.current (s.vpCheckClock now)
        (((s.vpCheckClock now).setState s.current .runnable).setCtx s.current (.idle .wait)).vpSchedule :=
      ((touches_setState .runnable).tail
        (.own (fun th => { th with ctx := .idle .wait })
          ⟨fun _ => rfl, fun _ => rfl, fun _ => rfl, fun _ h => h⟩ (by simp))).trans
        touches_vpSchedule
    exact hk.trans (frame_touched hs fun _ _ hR => hR.elim)
  refine frame_touched (touches_apply (fun now hn => hcl ⟨now, hn⟩) hco) fun s₁ s₂ hR => ?_
  match a, hR with
  | .call op, hR => exact frame_special (fun k o n ho => hio k o n (ho ▸ rfl)) hR
  | .resume, hR =>
    obtain ⟨v, hc, hR⟩ := hR
    simp only [callOf, hc]
    exact frame_special (by simp) hR

/-! ### The invariant -/

/-- Why a read or a write has returned: it could not be started, or it has completed. -/
def Firm (done : Entry → Option Outcome) (t : ThreadPtr) (ev : Event) (pre : List Event) : Prop :=
  ∀ x k o n r, ev = .returned x (.io k o n) r → transfers k = true → ∃ p,
    openCall pre = some (.io k o n, p) ∧ (r = .bytes (-1) ∧ (∀ nbyte, k = .write nbyte → 0 ≤ nbyte) ∨
      done ⟨t, k, n⟩ ≠ none ∧ Reports t k o (done ⟨t, k, n⟩) p (seg pre) r)

/-- A thread inside `st_read` or `st_write`: its operation is in flight, or what it stored is still there. -/
structure Transferring (s : Sys) (t : ThreadPtr) (k : IoKind) (n : ℕ) : Prop where
  flag : (s.vp.thr t).interrupt = false
  stored : ⟨t, k, n⟩ ∈ s.vp.inflight ∨
    ∃ d, s.done ⟨t, k, n⟩ = some d ∧ Fits k d ∧ (s.vp.thr t).validLen = d.stored

/-- **The invariant** of proper runs. -/
structure Settled (s : Sys) : Prop where
  fresh : ∀ e ∈ s.vp.inflight, e.num < s.vp.nextIo ∧ s.done e = none
  old : ∀ e, s.vp.nextIo ≤ e.num → s.done e = none
  inside : ∀ t k o n, (s.vp.thr t).ctx = .within (.io k o n) → transfers k = true → Transferring s t k n
  firm : ∀ t, Justified (Firm s.done t) (own t s.vp.trace)

section Results
variable {k : IoKind} {o : Submit} {n : ℕ} {d : Outcome} {p : Bool} {sg : List Event}

/-- `-1` says nothing. -/
theorem reports_failed {d : Option Outcome} (hk : ∀ nbyte, k = .write nbyte → 0 ≤ nbyte) :
    Reports t k o d p sg (.bytes (-1)) where
  read _ j hj hr := by
    obtain rfl := Ret.bytes.inj hr
    omega
  write nbyte hw hr := by
    have hnn := hk nbyte hw
    rw [← Ret.bytes.inj hr] at hnn
    omega
  failed _ := rfl
  interrupted _ := rfl

/-- The result of an operation that has completed as it should, and was not interrupted. -/
theorem reports_stored {th : Thread} (hk : transfers k = true) (hp : Vp.posted k o = true) (hd : Fits k d)
    (hv : th.validLen = d.stored) (hi : ¬ (p = true ∨ .interrupted t ∈ sg)) :
    Reports t k o (some d) p sg (Vp.ioResult th k) where
  read hr j hj he := by
    subst hr
    obtain rfl : d.stored = j := by rw [← hv]; exact Ret.bytes.inj he
    have hok : d.ok = true := hd.resolve_right fun hm => by rw [hm] at hj; omega
    refine ⟨d.bytes, by rw [← hok], ?_⟩
    have hcases := BitVec.toInt_eq_toNat_cond d.bytes
    unfold Outcome.stored at hj ⊢
    have hlt := d.bytes.isLt
    split_ifs at hcases <;> omega
  write nbyte hw _ := by
    subst hw
    exact ⟨d.bytes, by rw [← hd.1], hd.2⟩
  failed hf := by
    rcases hf with hf | ⟨b, hb⟩
    · rw [hp] at hf; cases hf
    · obtain rfl := Option.some.inj hb
      cases k with
      | read =>
        have hm : (⟨false, b⟩ : Outcome).stored = -1 := hd.resolve_left Bool.noConfusion
        simp [Vp.ioResult, hv, hm]
      | write nbyte => exact Bool.noConfusion hd.1
      | accept | connect | db => cases hk
  interrupted h := absurd h hi

end Results

/-- What was firm is firm when an operation completes that had not. -/
theorem Firm.update {done : Entry → Option Outcome} {e : Entry} (he : done e = none) (d : Outcome)
    {ev : Event} {l : List Event} (h : Firm done t ev l) : Firm (update done e (some d)) t ev l := by
  intro x k o n r hev hk
  obtain ⟨p, ho, hr⟩ := h x k o n r hev hk
  refine ⟨p, ho, hr.imp_right fun ⟨hd, hr⟩ => ?_⟩
  have hne : (⟨t, k, n⟩ : Entry) ≠ e := fun hx => hd (hx ▸ he)
  rw [update_of_ne hne]
  exact ⟨hd, hr⟩

/-- What is firm is just. -/
theorem Firm.just {done : Entry → Option Outcome} {ev : Event} {l : List Event} (h : Firm done t ev l) :
    JustIo done t ev l := by
  intro x k o n r hev hk
  obtain ⟨p, ho, ⟨rfl, hw⟩ | ⟨-, hr⟩⟩ := h x k o n r hev hk
  · exact ⟨p, ho, reports_failed hw⟩
  · exact ⟨p, ho, hr⟩

/-! ### The steps -/

theorem own_cons {ev : Event} {l : List Event} :
    own t (ev :: l) = if subject ev = t then ev :: own t l else own t l := by
  simp [own, List.filter_cons]

/-- Events that are no return from a read or a write are firm. -/
theorem firm_own {done : Entry → Option Outcome} {l l₀ : List Event}
    (hl : ∀ x k o n r, .returned x (.io k o n) r ∈ l → transfers k = false)
    (h : Justified (Firm done t) (own t l₀)) : Justified (Firm done t) (own t (l ++ l₀)) := by
  rw [own, List.filter_append]
  refine h.append fun ev hev _ x k o n r he hk => ?_
  rw [hl x k o n r (he ▸ (List.mem_filter.mp hev).1)] at hk
  cases hk

section Steps
variable {s : Sys} {k : IoKind} {o : Submit} {n : ℕ}

/-- A step that starts no operation, and is not the return from a read or a write. -/
theorem settled_frame (h : Settled s) {v : Vp}
    (hf : Frame c s.vp.current s.vp v) (hc : ∀ k o n, c = some (.io k o n) → transfers k = false)
    (hint : ∀ t, c = some (.interrupt t) →
      ∀ k o n, (s.vp.thr t).ctx = .within (.io k o n) → transfers k = false) :
    Settled { s with vp := v } := by
  obtain ⟨⟨l, hl, hr⟩, hn⟩ := hf.grows
  refine ⟨fun e he => ?_, fun e he => h.old e (hn.trans he), fun t k o n hx hk => ?_, fun t => ?_⟩
  · obtain ⟨h1, h2⟩ := h.fresh e (hf.inflight ▸ he)
    exact ⟨h1.trans_le hn, h2⟩
  · rcases hf.inside t k o n hx with hs | ⟨-, ho⟩
    · obtain ⟨hflag, hst⟩ := h.inside t k o n (hs.ctx ▸ hx) hk
      refine ⟨?_, hst.imp (fun hm => hf.inflight ▸ hm) fun ⟨d, h1, h2, h3⟩ =>
        ⟨d, h1, h2, hs.validLen.trans h3⟩⟩
      by_contra hi
      rcases hs.flag (by simpa using hi) with hi | hi
      · rw [hflag] at hi; cases hi
      · rw [hint t hi k o n (hs.ctx ▸ hx)] at hk; cases hk
    · rw [hc k o n ho] at hk; cases hk
  · change Justified _ (own t v.trace)
    rw [hl]
    exact firm_own (fun x k o n r hm => hc k o n (hr x _ r hm).2) (h.firm t)

/-- What no call does leaves everything settled. -/
theorem settled_touched (h : Settled s) {v : Vp} (ht : Touched (fun _ _ => False) none s.vp.current s.vp v) :
    Settled { s with vp := v } :=
  settled_frame h (frame_touched ht fun _ _ hR => hR.elim) (by simp) (by simp)

/-- The current thread returns. -/
theorem settled_ret (h : Settled s) {r : Ret}
    (hf : Firm s.done s.vp.current (.returned s.vp.current op r) (own s.vp.current s.vp.trace)) :
    Settled { s with vp := s.vp.ret op r } := by
  refine ⟨h.fresh, h.old, fun t k o n hx hk => ?_, fun t => ?_⟩
  · rcases eq_or_ne t s.vp.current with rfl | hne
    · simp [Vp.ret, Vp.log, Vp.setCtx, Vp.modify] at hx
    · have hthr : (s.vp.ret op r).thr t = s.vp.thr t := by
        simp [Vp.ret, Vp.log, Vp.setCtx, Vp.modify, hne]
      obtain ⟨hflag, hst⟩ := h.inside t k o n (by rw [← hthr]; exact hx) hk
      refine ⟨hthr ▸ hflag, ?_⟩
      refine hst.imp_right fun h => ?_
      obtain ⟨d, h1, h2, h3⟩ := h
      exact ⟨d, h1, h2, hthr ▸ h3⟩
  · change Justified _ (own t (.returned s.vp.current op r :: s.vp.trace))
    rw [own_cons]
    split_ifs with ht
    · obtain rfl : s.vp.current = t := ht
      exact ⟨hf, h.firm _⟩
    · exact h.firm t

/-- The current thread starts an operation, and waits for it. -/
theorem settled_pause (h : Settled s) (hn : n = s.vp.nextIo) (hint : (s.vp.thr s.vp.current).interrupt = false) :
    Settled { s with vp := pause (.io k o n) .ioWait none { s.vp with
      nextIo := s.vp.nextIo + 1, inflight := s.vp.inflight ++ [⟨s.vp.current, k, n⟩] } } := by
  subst hn
  refine ⟨fun e he => ?_, fun e he => h.old e (Nat.le_of_succ_le he), fun t k' o' n' hx hk => ?_, h.firm⟩
  · rcases List.mem_append.mp he with he | he
    · exact (h.fresh e he).imp_left Nat.lt_succ_of_lt
    · obtain rfl := List.mem_singleton.mp he
      exact ⟨Nat.lt_succ_self _, h.old _ le_rfl⟩
  · rcases eq_or_ne t s.vp.current with rfl | hne
    · obtain ⟨rfl, -, rfl⟩ : k = k' ∧ o = o' ∧ s.vp.nextIo = n' := by simpa [pause] using hx
      exact ⟨by simpa [pause] using hint, .inl (List.mem_append_right _ (List.mem_singleton_self _))⟩
    · obtain ⟨hflag, hst⟩ := h.inside t k' o' n' (by simpa [pause, hne] using hx) hk
      refine ⟨by simpa [pause, hne] using hflag, hst.imp (List.mem_append_left _) ?_⟩
      rintro ⟨d, h1, h2, h3⟩
      exact ⟨d, h1, h2, by simpa [pause, hne] using h3⟩

/-- **A call** of I/O. -/
theorem settled_ioCall (h : Settled s) (hn : n = s.vp.nextIo) (hw : ∀ nbyte, k = .write nbyte → 0 ≤ nbyte)
    (hc : Calm s.vp (.call (.io k o n))) : Settled { s with vp := Vp.apply s.vp (.call (.io k o n)) } := by
  set s₁ := s.vp.log (.called s.vp.current (.io k o n) (s.vp.thr s.vp.current).interrupt) with hs₁
  have h₁ : Settled { s with vp := s₁ } := settled_touched h (touches_log (by simp))
  change Settled { s with vp := s₁.ioCall k o n }
  by_cases hp : Vp.posted k o = true
  · obtain ⟨hwt, hint⟩ := hc hp
    have hv : s₁.ioCall k o n = (pause (.io k o n) .ioWait none { s₁ with
        nextIo := s₁.nextIo + 1, inflight := s₁.inflight ++ [⟨s₁.current, k, n⟩] }).vpSchedule := by
      have hint₁ : (s₁.thr s₁.current).interrupt = false := hint
      rw [← ioPause_eq]
      unfold Vp.ioCall
      simp only [hp, hwt, hint₁, if_true, Bool.false_eq_true, if_false]
    have h₂ := settled_pause (k := k) (o := o) h₁ hn hint
    rw [hv]
    exact settled_touched h₂ touches_vpSchedule
  · have hwt : Vp.waits k o ≠ true := fun hwt => hp (posted_of_waits hwt)
    have hv : s₁.ioCall k o n = { s₁ with nextIo := s₁.nextIo + 1 }.ret (.io k o n) (Vp.ioFailed k) := by
      unfold Vp.ioCall
      simp only [hp, hwt]
      rfl
    have h₂ : Settled { s with vp := { s₁ with nextIo := s₁.nextIo + 1 } } :=
      settled_touched h₁ (touches_lists rfl rfl rfl rfl rfl (.same rfl (Nat.le_succ _)))
    rw [hv]
    refine settled_ret h₂ fun x k' o' n' r hev hk => ?_
    obtain ⟨-, ho, rfl⟩ := Event.returned.inj hev
    obtain ⟨rfl, rfl, rfl⟩ := Op.io.inj ho
    refine ⟨(s.vp.thr s.vp.current).interrupt, ?_, .inl ⟨?_, hw⟩⟩
    · change openCall (own s.vp.current (.called s.vp.current _ _ :: s.vp.trace)) = _
      simp [own_cons, subject, openCall]
    · cases k <;> simp_all [transfers, Vp.ioFailed]

/-- **The return** from a read or a write. -/
theorem settled_ioResume (h : Settled s) (hcalm : ReachVia Model.machine Calm s.vp)
    (hx : (s.vp.thr s.vp.current).ctx = .within (.io k o n)) (hk : transfers k = true) :
    Settled { s with vp := s.vp.ioResume k o n } := by
  obtain ⟨hs, hw⟩ := sound_reach hcalm
  have halive := (hs.good s.vp.current).alive_eq hw.1
  have htold := (kept_reach hcalm s.vp.current).1
  obtain ⟨-, p, ho⟩ := ((hs.good _).of_mem hw.1).inside _ hx
  have hposted := posted_of_waits ((htold.inside halive _ hx).io k o n rfl)
  obtain ⟨hflag, hst⟩ := h.inside _ k o n hx hk
  -- its operation is not in flight any more, since the thread runs
  have hnot : ⟨s.vp.current, k, n⟩ ∉ s.vp.inflight := fun hm => by
    have hio := (hs.posted.waiter _ (List.mem_append_left _ hm)).2.1
    rw [hw.2] at hio
    cases hio
  obtain ⟨d, hd, hfit, hv⟩ := hst.resolve_left hnot
  have hr : s.vp.ioResume k o n = s.vp.ret (.io k o n) (Vp.ioResult (s.vp.thr s.vp.current) k) := by
    simp only [Vp.ioResume, hflag, Bool.false_eq_true, if_false]
  rw [hr]
  refine settled_ret h fun x k' o' n' r hev _ => ?_
  obtain ⟨-, ho', rfl⟩ := Event.returned.inj hev
  obtain ⟨rfl, rfl, rfl⟩ := Op.io.inj ho'
  refine ⟨p, ho, .inr ⟨by simp [hd], ?_⟩⟩
  rw [hd]
  refine reports_stored hk hposted hfit hv fun hi => ?_
  rw [(htold.interrupt_iff halive ho).mpr hi] at hflag
  cases hflag

theorem thr_complete_of_ne (v : Vp) (e : Entry) (m : ℤ) (ht : t ≠ e.thread) :
    (v.complete e m).thr t = v.thr t := by
  unfold Vp.complete
  split_ifs
  · rfl
  · simp [Vp.modify, ht]

theorem thr_complete_self (v : Vp) (e : Entry) (m : ℤ) :
    ((v.complete e m).thr e.thread).ctx = (v.thr e.thread).ctx ∧
      ((v.complete e m).thr e.thread).interrupt = (v.thr e.thread).interrupt ∧
      (e.kind ≠ .db → ((v.complete e m).thr e.thread).validLen = m) := by
  unfold Vp.complete
  split_ifs with hk
  · exact ⟨rfl, rfl, fun hk' => absurd hk hk'⟩
  · simp [Vp.modify]

/-- **A completion**, with all that was asked for. -/
theorem settled_complete (h : Settled s) (hs : Sound s.vp) {e : Entry} {d : Outcome} (he : e ∈ s.vp.inflight)
    (hd : Fits e.kind d) : Settled (s.apply (.complete e d)) := by
  have hfresh := h.fresh e he
  obtain ⟨-, -, o₀, hctx⟩ := hs.posted.waiter e (List.mem_append_left _ he)
  have hnodup : s.vp.inflight.Nodup := by
    have hmap := hs.posted.nodup
    rw [List.map_append] at hmap
    exact List.Nodup.of_map _ (List.nodup_append.mp hmap).1
  have hi : (s.vp.complete e d.stored).inflight = s.vp.inflight.erase e ∧
      (s.vp.complete e d.stored).nextIo = s.vp.nextIo ∧ (s.vp.complete e d.stored).trace = s.vp.trace := by
    obtain ⟨v, hv⟩ := complete_eq (s := s.vp) e d.stored
    rw [hv]
    exact ⟨rfl, rfl, rfl⟩
  refine ⟨fun x hx => ?_, fun x hx => ?_, fun t k o n hx hk => ?_, fun t => ?_⟩
  · obtain ⟨hne, hx⟩ := hnodup.mem_erase_iff.mp (hi.1 ▸ hx)
    simp only [Sys.apply, hi.2.1, update_of_ne hne]
    exact h.fresh x hx
  · simp only [Sys.apply, hi.2.1] at hx ⊢
    have hne : x ≠ e := fun hxe => absurd hfresh.1 (not_lt.mpr (hxe ▸ hx))
    rw [update_of_ne hne]
    exact h.old x hx
  · simp only [Sys.apply] at hx
    rcases eq_or_ne t e.thread with rfl | hne
    -- the operation is the one the thread waits for
    · obtain ⟨hc, hint, hv⟩ := thr_complete_self s.vp e d.stored
      rw [hc] at hx
      obtain ⟨rfl, -, rfl⟩ : e.kind = k ∧ o₀ = o ∧ e.num = n := by simpa using hctx.symm.trans hx
      refine ⟨hint.trans (h.inside _ _ _ _ hx hk).flag, .inr ⟨d, update_self .., hd, hv fun hdb => ?_⟩⟩
      rw [hdb] at hk; cases hk
    · have hthr := thr_complete_of_ne s.vp e d.stored hne
      rw [hthr] at hx
      obtain ⟨hflag, hst⟩ := h.inside t k o n hx hk
      have hne' : (⟨t, k, n⟩ : Entry) ≠ e := fun hx => hne (congrArg Entry.thread hx)
      refine ⟨(congrArg Thread.interrupt hthr).trans hflag, ?_⟩
      simp only [Sys.apply, hi.1]
      refine hst.imp (fun hm => (List.mem_erase_of_ne hne').mpr hm) fun ⟨d', h1, h2, h3⟩ => ?_
      exact ⟨d', (update_of_ne hne' ..).trans h1, h2, (congrArg Thread.validLen hthr).trans h3⟩
  · change Justified (Firm (update s.done e (some d)) t) (own t (s.vp.complete e d.stored).trace)
    rw [hi.2.2]
    exact (h.firm t).mono fun _ _ hf => hf.update hfresh.2 d

end Steps

/-! ### Runs -/

/-- A proper step of the scheduler. -/
theorem settled_act {s : Sys} (h : Settled s) (hcalm : ReachVia Model.machine Calm s.vp) {a : Vp.Action}
    (he : s.Enabled (.act a)) (hp : Proper s (.act a)) : Settled { s with vp := Vp.apply s.vp a } := by
  obtain ⟨hs, hw⟩ := sound_reach hcalm
  by_cases hio : ∃ k o n, a = .call (.io k o n)
  · obtain ⟨k, o, n, rfl⟩ := hio
    refine settled_ioCall h he.1.2.1 ?_ hp.1
    rintro nbyte rfl
    simpa [supplied] using he.2
  have hco : ∀ e n, a ≠ .complete e n := by rintro e n rfl; exact Bool.noConfusion he.2
  have hio' : ∀ k o n, a ≠ .call (.io k o n) := fun k o n ha => hio ⟨k, o, n, ha⟩
  by_cases hres : ∃ k o n, a = .resume ∧ (s.vp.thr s.vp.current).ctx = .within (.io k o n) ∧ transfers k = true
  · obtain ⟨k, o, n, rfl, hx, hk⟩ := hres
    rw [show Vp.apply s.vp .resume = s.vp.ioResume k o n from Model.apply_resume hx]
    exact settled_ioResume h hcalm hx hk
  refine settled_frame h (frame_apply hco hio') (fun k o n hc => ?_) fun t hc => ?_
  · cases a with
    | call op => exact absurd (congrArg Vp.Action.call (Option.some.inj hc)) (hio' k o n)
    | resume =>
      by_contra hk
      refine hres ⟨k, o, n, rfl, ?_, by simpa using hk⟩
      simp only [callOf] at hc
      split at hc <;> simp_all
    | _ => cases hc
  · cases a with
    | call op => exact hp.2 t (congrArg Vp.Action.call (Option.some.inj hc))
    | resume =>
      -- nobody waits inside `st_thread_interrupt`
      obtain ⟨op, hx⟩ := he.1
      obtain rfl : op = .interrupt t := by simpa [callOf, hx] using hc
      have hb := (((hs.good _).of_mem hw.1).inside _ hx).1
      simp [hx, blockState] at hb
    | _ => cases hc

theorem settled_reach {s : Sys} (h : ReachVia machine Proper s) :
    ReachVia Model.machine Calm s.vp ∧ Settled s := by
  refine h.invariant (I := fun s => ReachVia Model.machine Calm s.vp ∧ Settled s) ?_ ?_
  · rintro s ⟨idle, prim, now, hne, rfl⟩
    have hinit : Model.machine.init (Vp.stInit idle prim now) := ⟨idle, prim, now, hne, rfl⟩
    refine ⟨.init hinit, fun e he => absurd he List.not_mem_nil, fun _ _ => rfl, fun t k o n hx _ => ?_,
      fun _ => trivial⟩
    rw [thr_stInit hne] at hx
    split_ifs at hx <;> simp [Vp.primordialThread, Vp.newThread] at hx
  · rintro s a ⟨hcalm, h⟩ he hp
    cases a with
    | act a => exact ⟨.step hcalm he.1 hp.1, settled_act h hcalm he hp⟩
    | complete e d =>
      exact ⟨.step (a := Vp.Action.complete e d.stored) hcalm he trivial,
        settled_complete h (sound_reach hcalm).1 he hp⟩

/-- **The results of reads and writes**: after proper steps each is that of the operation itself. -/
theorem truthful_reach {s : Sys} (h : ReachVia machine Proper s) : Truthful s := fun t =>
  ((settled_reach h).2.firm t).mono fun _ _ hf => hf.just

instance decidableSys (s : Sys) : ∀ a, Decidable (machine.enabled s a)
  | .act a => inferInstanceAs (Decidable (Vp.Enabled s.vp a ∧ supplied a = true))
  | .complete e _ => inferInstanceAs (Decidable (e ∈ s.vp.inflight))

instance decidableFits : ∀ k d, Decidable (Fits k d)
  | .read, _ => inferInstanceAs (Decidable (_ ∨ _))
  | .write _, _ => inferInstanceAs (Decidable (_ ∧ _))
  | .accept, _ | .connect, _ | .db, _ => .isTrue trivial

/-- A thread that is inside neither `st_read` nor `st_write`. -/
def resting : Ctx → Bool
  | .within (.io k _ _) => !transfers k
  | _ => true

theorem resting_iff {c : Ctx} : resting c = true ↔ ∀ k o n, c = .within (.io k o n) → transfers k = false := by
  unfold resting
  split
  · simp
  · rename_i h
    simpa using fun k o n hc => absurd hc (h k o n)

/-- Whom a step interrupts. -/
def target : Vp.Action → Option ThreadPtr
  | .call (.interrupt t) => some t
  | _ => none

theorem target_iff {a : Vp.Action} : target a = some t ↔ a = .call (.interrupt t) := by
  unfold target
  split <;> simp_all

instance decidableProper (s : Sys) : ∀ a, Decidable (Proper s a)
  | .act a => decidable_of_iff (Calm s.vp a ∧ ∀ t ∈ target a, resting (s.vp.thr t).ctx = true)
    (and_congr Iff.rfl (forall_congr' fun _ => imp_congr target_iff resting_iff))
  | .complete e d => decidableFits e.kind d

/-- Thread `3` reads `16` bytes, and writes as many. -/
def echoRun : List Action :=
  [.act (.call (.create (some 3) false)), .act (.call (.usleep 1000)),
    .act (.call (.io .read ⟨false, true⟩ 0)), .complete ⟨3, .read, 0⟩ ⟨true, 16⟩, .act (.idleWait true),
    .act .idleDrain, .act .idleDrain, .act (.idleClock 100), .act .resume,
    .act (.call (.io (.write 16) ⟨true, false⟩ 1)), .complete ⟨3, .write 16, 1⟩ ⟨true, 16⟩,
    .act (.idleWait true), .act .idleDrain, .act .idleDrain, .act (.idleClock 200), .act .resume]

theorem echoRun_truthful : ∃ s, s = echoRun.foldl machine.apply ⟨Vp.stInit 1 2 0, fun _ => none⟩ ∧
    Event.returned 3 (.io .read ⟨false, true⟩ 0) (.bytes 16) ∈ s.vp.trace ∧
    Event.returned 3 (.io (.write 16) ⟨true, false⟩ 1) (.bytes 16) ∈ s.vp.trace ∧ Truthful s := by
  obtain ⟨s, hs⟩ : ∃ s, s = echoRun.foldl machine.apply ⟨Vp.stInit 1 2 0, fun _ => none⟩ := ⟨_, rfl⟩
  have hinit : machine.init ⟨Vp.stInit 1 2 0, fun _ => none⟩ := ⟨1, 2, 0, by decide, rfl⟩
  have hr : ReachVia machine Proper s := hs ▸ (ReachVia.init hinit).foldl echoRun (by decide +kernel)
  exact ⟨s, hs, by rw [hs]; decide +kernel, by rw [hs]; decide +kernel, truthful_reach hr⟩

/-- Thread `3` reads and is interrupted. -/
def interruptedRun : List Action :=
  [.act (.call (.create (some 3) false)), .act (.call (.usleep 1000)),
    .act (.call (.io .read ⟨false, true⟩ 0)), .act (.idleWait false), .act (.idleClock 2000), .act .resume,
    .act (.call (.interrupt 3)), .act (.call (.usleep 5000)), .act .resume]

/-- The read returns `0`, as if at the end of the stream, and its operation is still in flight. -/
theorem interruptedRun_untruthful : ¬ ∀ s, Reach machine s → Truthful s := by
  intro hall
  have hinit : machine.init ⟨Vp.stInit 1 2 0, fun _ => none⟩ := ⟨1, 2, 0, by decide, rfl⟩
  obtain ⟨s, hs⟩ : ∃ s, s = interruptedRun.foldl machine.apply ⟨Vp.stInit 1 2 0, fun _ => none⟩ := ⟨_, rfl⟩
  have hr : Reach machine s := hs ▸ (ReachVia.init hinit).foldl interruptedRun (by decide +kernel)
  have hd : s.done ⟨3, .read, 0⟩ = none := by rw [hs]; decide +kernel
  have hev : ∃ l, own 3 s.vp.trace = .returned 3 (.io .read ⟨false, true⟩ 0) (.bytes 0) :: l :=
    ⟨(own 3 s.vp.trace).tail, by rw [hs]; decide +kernel⟩
  obtain ⟨l, hl⟩ := hev
  have hj := hall s hr 3
  rw [hl] at hj
  obtain ⟨p, -, hrep⟩ := hj.1 3 .read _ 0 _ rfl rfl
  obtain ⟨b, hb, -⟩ := hrep.read rfl 0 le_rfl rfl
  rw [hd] at hb
  cases hb

/-! ### Reading fully -/

/-- `nleft -= n`, for a `size_t`. -/
def minus (nleft : ℕ) (n : ℤ) : ℕ := (nleft + 2 ^ 32 - n.toNat) % 2 ^ 32

/-- `st_read_fully`, on what its reads return, with whether `errno` is `EINTR` after one that fails; `none`
if these are not all the reads it makes. -/
def readFully (nbyte : ℕ) : ℕ → List (ℤ × Bool) → Option ℤ
  | nleft, [] => if nleft = 0 then some (nbyte - nleft : ℕ) else none
  | nleft, (n, eintr) :: rs =>
    if nleft = 0 then none
    else if n < 0 then
      if eintr then readFully nbyte nleft rs else if rs = [] then some (-1) else none
    else if minus nleft n = 0 ∨ n = 0 then
      if rs = [] then some (nbyte - minus nleft n : ℕ) else none
    else readFully nbyte (minus nleft n) rs

/-- The loop invariant: what is left and what the reads return. -/
theorem readFully_loop {nbyte : ℕ} : ∀ {rs : List (ℤ × Bool)} {nleft : ℕ} {k : ℤ}, nbyte < 2 ^ 32 →
    nleft ≤ nbyte → (rs.map (·.1.toNat)).sum ≤ nleft → readFully nbyte nleft rs = some k → 0 ≤ k →
    k = (nbyte - nleft : ℕ) + (rs.map (·.1.toNat)).sum
  | [], nleft, k, _, _, _, h, _ => by
    rw [readFully] at h
    split_ifs at h
    simp [← Option.some.inj h]
  | (n, eintr) :: rs, nleft, k, hb, hle, ht, h, hk => by
    rw [readFully] at h
    rw [List.map_cons, List.sum_cons] at ht ⊢
    have hleft : minus nleft n = nleft - n.toNat := by unfold minus; omega
    rw [hleft] at h
    split_ifs at h with h1 h2 h3 h4 h5 h6
    · have ih := readFully_loop hb hle (by omega) h hk
      omega
    · have := Option.some.inj h
      omega
    · have := Option.some.inj h
      simp only [h6, List.map_nil, List.sum_nil]
      omega
    · have ih := readFully_loop hb (by omega) (by omega) h hk
      omega

/-- A read of the thread `t`: what it returned, and whether `errno` was `EINTR` after it. -/
structure ReadBack (s : Sys) (t : ThreadPtr) where
  submit : Submit
  num : ℕ
  result : ℤ
  eintr : Bool
  returned : .returned t (.io .read submit num) (.bytes result) ∈ s.vp.trace

/-- The bytes the operation of a read transferred, if the read did not fail. -/
def ReadBack.transferred {s : Sys} {t : ThreadPtr} (q : ReadBack s t) : ℕ :=
  match s.done ⟨t, .read, q.num⟩ with
  | some ⟨true, b⟩ => if 0 ≤ q.result then b.toNat else 0
  | _ => 0

/-- **Reading fully**: after proper steps, what `st_read_fully` returns is what its reads transferred,
provided that they transferred no more than was asked for. -/
theorem readFully_total {s : Sys} (h : ReachVia machine Proper s) {t : ThreadPtr} {nbyte : ℕ}
    (hb : nbyte < 2 ^ 32) {qs : List (ReadBack s t)} {k : ℤ}
    (hsum : (qs.map ReadBack.transferred).sum ≤ nbyte)
    (hr : readFully nbyte nbyte (qs.map fun q => (q.result, q.eintr)) = some k) (hk : 0 ≤ k) :
    k = (qs.map ReadBack.transferred).sum := by
  have hone : ∀ q : ReadBack s t, q.result.toNat = q.transferred := fun q => by
    have hm : .returned t (.io .read q.submit q.num) (.bytes q.result) ∈ own t s.vp.trace :=
      List.mem_filter.mpr ⟨q.returned, by simp [subject]⟩
    obtain ⟨post, pre, hl⟩ := List.append_of_mem hm
    have hj := truthful_reach h t
    rw [hl] at hj
    obtain ⟨p, -, hrep⟩ := hj.at t .read _ _ _ rfl rfl
    unfold ReadBack.transferred
    by_cases hq : 0 ≤ q.result
    · obtain ⟨b, hd, hbq⟩ := hrep.read rfl q.result hq rfl
      simp only [hd, hq, if_true]
      omega
    · have h0 : q.result.toNat = 0 := by omega
      rw [h0]
      split <;> simp [hq]
  have htot : ((qs.map fun q => (q.result, q.eintr)).map (·.1.toNat)).sum =
      (qs.map ReadBack.transferred).sum := by
    rw [List.map_map]
    exact congrArg List.sum (List.map_congr_left fun q _ => hone q)
  have hloop := readFully_loop hb le_rfl (htot ▸ hsum) hr hk
  rw [htot] at hloop
  simpa using hloop

end StNvs.Sched.IoResults
