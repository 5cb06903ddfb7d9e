import StNvs.Db.Lifetime

/-! # The end of a handle

The thread that closes a handle is handed back before the worker is done with it: the worker still looks
whether it is to exit, and its destructor closes the connection. So the handle may be freed too early; the
queue may not, since the worker is past it then.

* `queue_safe`: the queue is never used after it is deleted.
* `shutdown_order`: nothing is used after it is freed, in every run that frees the handle only when the
  worker has ended.
* `used_after_free`: runs that do not wait. -/

namespace StNvs.Db.Shutdown

open StNvs.Lib.Runs StNvs.Db.Lifetime

/-- The handle is freed when the worker has ended. -/
def Done (s : Sys) : Step → Prop
  | .freeHandle => s.worker = .ended
  | _ => True

/-- What is freed is behind its users. -/
structure Safe (s : Sys) : Prop where
  queue : s.queueFreed = true → ∃ p, s.owner = .freeingHandle p ∨ s.owner = .gone p
  handle : s.freed = true → s.worker = .ended
  fine : s.misused = false

variable {s : Sys} {a : Step} {ok : Sys → Step → Prop}

/-- **The queue** is deleted when the worker is past it. -/
theorem queue_safe (hp : Phase s) (hq : s.queueFreed = true → ∃ p, s.owner = .freeingHandle p ∨ s.owner = .gone p)
    (hw : ¬ s.worker.Exiting) : s.queueFreed = false := by
  by_contra hne
  obtain ⟨p, ho | ho⟩ := hq (by simpa using hne)
  all_goals
    simp only [Phase, ho] at hp
    exact hw hp

/-- Steps that do not change what is freed, nor the thread that frees. -/
theorem Safe.of_eq (h : Safe s) {s' : Sys} (ho : s'.owner = s.owner) (hq : s'.queueFreed = s.queueFreed)
    (hf : s'.freed = s.freed) (hw : s.freed = true → s'.worker = .ended) (hm : s'.misused = false) :
    Safe s' where
  queue hx := by
    rw [ho]
    exact h.queue (hq ▸ hx)
  handle hx := hw (hf ▸ hx)
  fine := hm

/-- A worker that is not past the queue uses what is there. -/
theorem Safe.in_use (h : Safe s) (hp : Phase s) (hw : ¬ s.worker.Exiting) :
    s.queueFreed = false ∧ s.freed = false := by
  refine ⟨queue_safe hp h.queue hw, ?_⟩
  by_contra hne
  rw [h.handle (by simpa using hne)] at hw
  exact hw trivial

/-- Such a worker goes on to `w`. -/
theorem Safe.served (h : Safe s) (hp : Phase s) (hw : ¬ s.worker.Exiting) {s' : Sys}
    (ho : s'.queueFreed = s.queueFreed) (hf : s'.freed = s.freed)
    (hm : s'.misused = s.misused ∨ s'.misused = (s.misused || s.freed) ∨
      s'.misused = (s.misused || s.freed || s.queueFreed)) : Safe s' := by
  obtain ⟨hq, hfr⟩ := h.in_use hp hw
  refine ⟨fun hx => ?_, fun hx => ?_, ?_⟩
  · rw [ho, hq] at hx
    cases hx
  · rw [hf, hfr] at hx
    cases hx
  · simpa [h.fine, hq, hfr] using hm

/-- The step keeps what is freed, and a worker that is past the queue stays where it is. -/
theorem safe_step (h : Safe s) (hp : Phase s) (he : s.Enabled a) (hok : Done s a) : Safe (s.apply a) := by
  have hfree : ∀ {o : Owner}, s.owner = o → (∀ p, o ≠ .freeingHandle p ∧ o ≠ .gone p) →
      s.queueFreed = false := fun ho hne => by
    by_contra hx
    obtain ⟨p, hx | hx⟩ := h.queue (by simpa using hx)
    · exact (hne p).1 (ho.symm.trans hx)
    · exact (hne p).2 (ho.symm.trans hx)
  cases a with
  | connect n =>
    have hq := hfree he fun p => ⟨nofun, nofun⟩
    exact ⟨fun hx => absurd (hq.symm.trans hx) (by decide), h.handle, h.fine⟩
  | post r => exact h.of_eq rfl rfl rfl h.handle h.fine
  | close =>
    have hq := hfree he fun p => ⟨nofun, nofun⟩
    exact ⟨fun hx => absurd (hq.symm.trans hx) (by decide), h.handle, h.fine⟩
  | resume =>
    obtain ⟨p, ho⟩ := he
    have hq := hfree ho fun p => ⟨nofun, nofun⟩
    have hfree : s.queueFreed = true → ∀ o, ∃ p, o = Owner.freeingHandle p ∨ o = .gone p :=
      fun hx => absurd (hq.symm.trans hx) (by decide)
    cases p with
    | connect =>
      simp only [Sys.apply, Sys.resume, ho]
      split <;> exact ⟨fun hx => hfree hx _, h.handle, h.fine⟩
    | close =>
      simp only [Sys.apply, Sys.resume, ho]
      exact ⟨fun hx => hfree hx _, h.handle, h.fine⟩
  | deleteQueue =>
    obtain ⟨p, ho⟩ := he
    simp only [Sys.apply, Sys.deleteQueue, ho]
    exact ⟨fun _ => ⟨p, .inl rfl⟩, h.handle, h.fine⟩
  | freeHandle =>
    obtain ⟨p, ho⟩ := he
    simp only [Sys.apply, Sys.freeHandle, ho]
    exact ⟨fun _ => ⟨p, .inr rfl⟩, fun _ => hok, h.fine⟩
  | take =>
    obtain ⟨hw, hq⟩ := he
    obtain ⟨o, q, hoq⟩ := List.exists_cons_of_ne_nil hq
    refine h.served hp (by rw [hw]; exact id) ?_ ?_ ?_ <;> simp [Sys.apply, Sys.take, hoq, Sys.useQueue]
  | «open» e =>
    have hw : s.worker = .serving .open := he
    exact h.served hp (by rw [hw]; exact id) rfl rfl (.inr (.inl rfl))
  | work o =>
    obtain ⟨r, hw, -⟩ := he
    refine h.served hp (by rw [hw]; exact id) ?_ ?_ ?_ <;> simp [Sys.apply, hw, Sys.store, Sys.use]
  | disconnect =>
    have hw : s.worker = .serving .close := he
    exact h.served hp (by rw [hw]; exact id) rfl rfl (.inr (.inl rfl))
  | reply =>
    obtain ⟨o, x, hw⟩ := he
    refine h.served hp (by rw [hw]; exact id) ?_ ?_ (.inl ?_) <;>
      cases o <;> simp [Sys.apply, Sys.reply, hw, Sys.wake]
  | test =>
    obtain ⟨x, hw⟩ := he
    cases x with
    | true =>
      have hf : s.freed = true → s.worker = .ended := h.handle
      simp only [Sys.apply, Sys.test, hw]
      exact h.of_eq rfl rfl rfl (fun hx => absurd (hw.symm.trans (hf hx)) (by rintro ⟨⟩)) h.fine
    | false =>
      refine h.served hp (by rw [hw]; exact id) ?_ ?_ ?_ <;> simp [Sys.apply, Sys.test, hw, Sys.useQueue]
  | destroy =>
    -- the destructor's use is the last one, and the handle is not freed before it
    have hw : s.worker = .leaving := he
    have hf : s.freed = false := by
      by_contra hx
      exact absurd (hw.symm.trans (h.handle (by simpa using hx))) (by rintro ⟨⟩)
    refine h.of_eq rfl rfl rfl (fun _ => rfl) ?_
    simp [Sys.apply, Sys.use, h.fine, hf]

/-- **The order of the shutdown**: when the handle is freed only after the worker has ended, no step of the
worker uses what is freed. -/
theorem shutdown_order (s : Sys) (h : ReachVia machine Done s) : s.misused = false := by
  refine (h.invariant_of (I := Phase) (J := Safe) (fun _ => phase_reach) ?_ ?_).fine
  · rintro s rfl
    exact ⟨nofun, nofun, rfl⟩
  · rintro s a hp hs ⟨-, he⟩ hok
    exact safe_step hs hp he hok

/-- A handle that is opened, used once and closed, with the worker ended before it is freed. -/
def closedRun : List Step :=
  [.connect 128, .take, .open .opened, .reply, .test, .resume, .post ⟨1, .exec, ""⟩, .close, .take,
    .work .executed, .reply, .test, .take, .disconnect, .reply, .resume, .deleteQueue, .test, .destroy,
    .freeHandle]

instance decidableDone (s : Sys) : ∀ a, Decidable (Done s a)
  | .freeHandle => inferInstanceAs (Decidable (_ = _))
  | .connect _ | .post _ | .close | .resume | .deleteQueue | .take | .open _ | .work _ | .disconnect | .reply
  | .test | .destroy => .isTrue trivial

theorem closedRun_order : ∃ s, s = closedRun.foldl machine.apply Sys.start ∧
    s.owner = .gone .close ∧ s.misused = false :=
  ⟨_, rfl, by decide +kernel,
    shutdown_order _ ((ReachVia.init rfl).foldl closedRun (by decide +kernel))⟩

/-- The closing thread is handed back and frees the handle before the worker leaves its loop. -/
def closeRun : List Step :=
  [.connect 128, .take, .open .opened, .reply, .test, .resume, .close, .take, .disconnect, .reply, .resume,
    .deleteQueue, .freeHandle, .test, .destroy]

/-- So does a thread whose connection has failed. -/
def connectRun : List Step :=
  [.connect 128, .take, .open (.failed ⟨-2147467259, "", by decide⟩), .reply, .resume, .deleteQueue, .freeHandle,
    .test, .destroy]

/-- **The destructor uses a freed handle**, on both ways to its end. -/
theorem used_after_free : (∃ s, Reach machine s ∧ s.owner = .gone .close ∧ s.misused = true) ∧
    ∃ s, Reach machine s ∧ s.owner = .gone .connect ∧ s.misused = true :=
  ⟨⟨_, (ReachVia.init rfl).foldl closeRun (by decide +kernel), by decide +kernel⟩,
    ⟨_, (ReachVia.init rfl).foldl connectRun (by decide +kernel), by decide +kernel⟩⟩

/-- So the order does not hold in every run. -/
theorem not_shutdown_order : ¬ ∀ s, Reach machine s → s.misused = false := fun h => by
  obtain ⟨⟨s, hs, -, hm⟩, -⟩ := used_after_free
  exact absurd ((h s hs).symm.trans hm) (by decide)

end StNvs.Db.Shutdown
