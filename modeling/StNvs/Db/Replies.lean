import StNvs.Lib.History
import StNvs.Db.Requests

/-! # Whose error code a call returns

All callers of a handle share its `_err_code`: each clears it before it posts its request and reads it
when it runs again. `Located` follows a request from the queue through the worker to its caller. As long
as nobody stores another code between the worker's last store for a request and the caller's `return`,
`st_db_query` and `st_db_exec` return the code the worker obtained for their own statement
(`replies_isolated`); otherwise a failed statement can be reported as a success (`reply_overwritten`). -/

namespace StNvs.Db.Replies

open StNvs.Lib.Runs StNvs.Lib.History StNvs.Sched.Sleep StNvs.Db.Server StNvs.Db.Requests Function

/-- The requests the worker has finished whose callers have not returned, with how they went. -/
def unread : List Event → List (Request × Outcome)
  | [] => []
  | .executed r o :: l => (r, o) :: unread l
  | .returned r _ _ _ :: l => (unread l).filter fun p => p.1.thread ≠ r.thread
  | .called _ :: l | .posted _ :: l | .notified _ _ :: l => unread l

/-- The worker has stored a code for its request for the last time. -/
def stored : Worker → List (Request × Outcome)
  | .serve r o todo => if codes todo = [] then [(r, o)] else []
  | .wait | .reset | .dequeue => []

/-- The requests whose code stands in the handle until their callers have read it. -/
def settled (s : Sys) : List (Request × Outcome) := stored s.worker ++ unread s.trace

/-- What a step stores in `_err_code`. -/
def stores (s : Sys) : Step → Option ℤ
  | .call _ => some 0
  | .write =>
    match s.worker with
    | .serve _ _ (.code c :: _) => some c
    | _ => none
  | _ => none

/-- No step stores another code than the one that a caller is about to read. -/
def Isolated (s : Sys) (a : Step) : Prop :=
  ∀ v ∈ stores s a, ∀ p ∈ settled s, p.1.event ≠ .fetch → p.2.obtained = v

/-- Why a call may return: the worker has finished its request, and that is the code. -/
def Just : Event → List Event → Prop
  | .returned r code _ _, pre => r.event ≠ .fetch → ∃ o, (r, o) ∈ unread pre ∧ code = o.obtained
  | _, _ => True

/-! ### Where a request is -/

/-- The request a caller waits for. -/
def pending : Caller → List Request
  | .posted r | .blocked r | .resumed r | .collected r _ _ => [r]
  | .away | .cleared _ => []

/-- Every request is in one place, and it is the one its caller waits for: `back` are those the worker
has finished, last first, and `rest` the one it is working on and the queue. -/
structure Located (caller : ThreadPtr → Caller) (ready : List ThreadPtr) (back rest : List Request) :
    Prop where
  once : ∀ t, (back.reverse ++ rest).filter (fun r => r.thread = t) = pending (caller t)
  nodup : ready.Nodup
  handed : ∀ t ∈ ready, ∃ r, (caller t = .posted r ∨ caller t = .blocked r) ∧ r ∈ back
  resumed : ∀ t r, (caller t = .resumed r ∨ ∃ d x, caller t = .collected r d x) → r ∈ back

section Located
variable {caller : ThreadPtr → Caller} {ready : List ThreadPtr} {back rest : List Request}
  {r r' : Request} {t : ThreadPtr}

/-- The caller of a request that is in some place waits for it. -/
theorem Located.pending_eq (h : Located caller ready back rest) (hr : r ∈ back.reverse ++ rest) :
    pending (caller r.thread) = [r] := by
  have hm : r ∈ (back.reverse ++ rest).filter fun x => x.thread = r.thread :=
    List.mem_filter.mpr ⟨hr, by simp⟩
  rw [h.once] at hm
  cases hc : caller r.thread <;> simp_all [pending]

theorem Located.thread_eq (h : Located caller ready back rest) (hr : r ∈ pending (caller t)) :
    r.thread = t := by
  rw [← h.once] at hr
  simpa using (List.mem_filter.mp hr).2

/-- A request the worker has not finished is the only one of its thread. -/
theorem Located.fresh (h : Located caller ready back rest) (hr : r ∈ rest) (hr' : r' ∈ back) :
    r'.thread ≠ r.thread := by
  intro he
  have hone := h.once r.thread
  rw [h.pending_eq (List.mem_append_right _ hr), List.filter_append] at hone
  have h1 : r' ∈ back.reverse.filter fun x => x.thread = r.thread :=
    List.mem_filter.mpr ⟨List.mem_reverse.mpr hr', by simpa using he⟩
  have h2 : r ∈ rest.filter fun x => x.thread = r.thread := List.mem_filter.mpr ⟨hr, by simp⟩
  have hlen := congrArg List.length hone
  have hp1 := List.length_pos_of_mem h1
  have hp2 := List.length_pos_of_mem h2
  simp only [List.length_append, List.length_singleton] at hlen
  omega

/-- A caller goes on, and its request stays where it is. -/
theorem Located.moved (h : Located caller ready back rest) {c : Caller} {ready' : List ThreadPtr}
    (hc : pending c = pending (caller t)) (hsub : ready'.Sublist ready)
    (hready : t ∈ ready' → ∃ r, (c = .posted r ∨ c = .blocked r) ∧ r ∈ back)
    (hback : ∀ r, (c = .resumed r ∨ ∃ d x, c = .collected r d x) → r ∈ back) :
    Located (update caller t c) ready' back rest where
  once x := by
    by_cases hx : x = t
    · subst hx; rw [update_self, hc]; exact h.once x
    · rw [update_of_ne hx]; exact h.once x
  nodup := hsub.nodup h.nodup
  handed x hx := by
    by_cases hxt : x = t
    · subst hxt; rw [update_self]; exact hready hx
    · rw [update_of_ne hxt]; exact h.handed x (hsub.subset hx)
  resumed x r hr := by
    by_cases hxt : x = t
    · subst hxt; rw [update_self] at hr; exact hback r hr
    · rw [update_of_ne hxt] at hr; exact h.resumed x r hr

/-- A caller that waits for nothing is not handed back. -/
theorem Located.not_ready (h : Located caller ready back rest) (hc : pending (caller t) = []) :
    t ∉ ready := fun ht => by
  obtain ⟨r, hr | hr, -⟩ := h.handed t ht <;> simp [hr, pending] at hc

/-- A caller posts its request. -/
theorem Located.posted (h : Located caller ready back rest) (hc : caller r.thread = .cleared r) :
    Located (update caller r.thread (.posted r)) ready back (rest ++ [r]) where
  once x := by
    rw [← List.append_assoc, List.filter_append, h.once]
    by_cases hx : x = r.thread
    · subst hx; simp [hc, pending]
    · simp [update_of_ne hx, Ne.symm hx]
  nodup := h.nodup
  handed x hx := by
    have hne : x ≠ r.thread := fun he => h.not_ready (t := r.thread) (by simp [hc, pending]) (he ▸ hx)
    rw [update_of_ne hne]
    exact h.handed x hx
  resumed x r' hr := by
    by_cases hx : x = r.thread
    · subst hx; simp at hr
    · rw [update_of_ne hx] at hr; exact h.resumed x r' hr

/-- The worker finishes a request. -/
theorem Located.finished (h : Located caller ready back (r :: rest)) :
    Located caller (ready ++ [r.thread]) (r :: back) rest where
  once t := by simpa using h.once t
  nodup := by
    refine List.nodup_append.mpr ⟨h.nodup, by simp, fun x hx y hy => ?_⟩
    obtain rfl := List.mem_singleton.mp hy
    rintro rfl
    -- the thread would be handed back with two requests
    obtain ⟨r', hc, hr'⟩ := h.handed _ hx
    have hp := h.pending_eq (List.mem_append_right back.reverse (List.mem_cons_self (a := r)))
    obtain rfl : r' = r := by rcases hc with hc | hc <;> simpa [hc, pending] using hp
    exact h.fresh List.mem_cons_self hr' rfl
  handed x hx := by
    rcases List.mem_append.mp hx with hx | hx
    · obtain ⟨r', hc, hr'⟩ := h.handed x hx
      exact ⟨r', hc, List.mem_cons_of_mem _ hr'⟩
    · obtain rfl := List.mem_singleton.mp hx
      have hp := h.pending_eq (List.mem_append_right back.reverse (List.mem_cons_self (a := r)))
      have hback := h.resumed r.thread r
      refine ⟨r, ?_, List.mem_cons_self⟩
      cases hc : caller r.thread with
      | away | cleared => simp [hc, pending] at hp
      | posted r' | blocked r' => simpa [hc, pending] using hp
      | resumed r' | collected r' =>
        obtain rfl : r' = r := by simpa [hc, pending] using hp
        exact absurd rfl (h.fresh List.mem_cons_self (hback (by simp [hc])))
  resumed x r' hr := List.mem_cons_of_mem _ (h.resumed x r' hr)

/-- A caller returns. -/
theorem Located.returned (h : Located caller ready back rest) {d : String} {y : List String}
    (hc : caller r.thread = .collected r d y) :
    Located (update caller r.thread .away) ready (back.filter fun x => x.thread ≠ r.thread) rest where
  once x := by
    have hmem := h.resumed r.thread r (.inr ⟨d, y, hc⟩)
    rw [List.filter_append, ← List.filter_reverse, List.filter_filter]
    have hone := h.once x
    rw [List.filter_append] at hone
    by_cases hx : x = r.thread
    · subst hx
      rw [hc] at hone
      have h1 : r ∈ back.reverse.filter fun x => x.thread = r.thread :=
        List.mem_filter.mpr ⟨List.mem_reverse.mpr hmem, by simp⟩
      have hlen := congrArg List.length hone
      have hp1 := List.length_pos_of_mem h1
      simp only [List.length_append, pending, List.length_singleton] at hlen
      have h2 : rest.filter (fun x => x.thread = r.thread) = [] := List.length_eq_zero_iff.mp (by omega)
      rw [h2, update_self]
      simp [pending]
    · rw [update_of_ne hx, ← hone]
      congr 1
      refine List.filter_congr fun y _ => ?_
      by_cases hy : y.thread = x <;> simp [hy, hx]
  nodup := h.nodup
  handed x hx := by
    have hne : x ≠ r.thread := by
      rintro rfl
      obtain ⟨r', hr' | hr', -⟩ := h.handed _ hx <;> simp [hc] at hr'
    obtain ⟨r', hr', hm⟩ := h.handed x hx
    rw [update_of_ne hne]
    refine ⟨r', hr', List.mem_filter.mpr ⟨hm, ?_⟩⟩
    have ht := h.thread_eq (t := x) (r := r') (by rcases hr' with hr' | hr' <;> simp [hr', pending])
    simpa [ht] using hne
  resumed x r' hr := by
    have hne : x ≠ r.thread := by
      rintro rfl
      simp at hr
    rw [update_of_ne hne] at hr
    refine List.mem_filter.mpr ⟨h.resumed x r' hr, ?_⟩
    have ht := h.thread_eq (t := x) (r := r') (by
      rcases hr with hr | ⟨_, _, hr⟩ <;> simp [hr, pending])
    simpa [ht] using hne

end Located

/-! ### The code in the handle -/

/-- Every request is in its place, and the code in the handle is that of the settled ones. -/
structure Fits (s : Sys) : Prop where
  located : Located s.caller s.ready ((unread s.trace).map Prod.fst) (inService s.worker ++ s.queue)
  serving : ∀ r o todo, s.worker = .serve r o todo → o.event = r.event ∧
    (r.event ≠ .fetch → codes todo ≠ [] → (codes todo).getLast? = some o.obtained)
  code : ∀ p ∈ settled s, p.1.event ≠ .fetch → p.2.obtained = s.errCode
  justified : Justified Just s.trace

variable {s : Sys} {r : Request} {o : Outcome} {a : Step}

theorem fits_call (h : Fits s) (hc : s.caller r.thread = .away) (hok : Isolated s (.call r)) :
    Fits (s.apply (.call r)) where
  located := h.located.moved (by simp [hc, pending]) (List.Sublist.refl _)
    (fun ht => absurd ht (h.located.not_ready (by simp [hc, pending]))) (by simp)
  serving := h.serving
  code p hp hf := hok 0 rfl p hp hf
  justified := ⟨trivial, h.justified⟩

theorem fits_enqueue (h : Fits s) (hc : s.caller r.thread = .cleared r) :
    Fits (s.apply (.enqueue r)) where
  located := by
    have hl := h.located.posted hc
    rwa [List.append_assoc] at hl
  serving := h.serving
  code := h.code
  justified := ⟨trivial, h.justified⟩

theorem fits_notify (h : Fits s) {t : ThreadPtr} : Fits (s.apply (.notify t)) :=
  ⟨h.located, h.serving, h.code, ⟨trivial, h.justified⟩⟩

theorem fits_block (h : Fits s) (hc : s.caller r.thread = .posted r) : Fits (s.apply (.block r)) where
  located := by
    refine h.located.moved (by simp [hc, pending]) (List.Sublist.refl _) (fun ht => ?_) (by simp)
    obtain ⟨r', hr', hm⟩ := h.located.handed _ ht
    obtain rfl : r = r' := by simpa [hc] using hr'
    exact ⟨r, .inr rfl, hm⟩
  serving := h.serving
  code := h.code
  justified := h.justified

theorem fits_resume (h : Fits s) (hc : s.caller r.thread = .blocked r) (ht : r.thread ∈ s.ready) :
    Fits (s.apply (.resume r)) where
  located := by
    obtain ⟨r', hr', hm⟩ := h.located.handed _ ht
    obtain rfl : r = r' := by simpa [hc] using hr'
    refine h.located.moved (by simp [hc, pending]) List.erase_sublist (fun he => ?_) (by simpa using hm)
    exact absurd he h.located.nodup.not_mem_erase
  serving := h.serving
  code := h.code
  justified := h.justified

theorem fits_collect (h : Fits s) (hc : s.caller r.thread = .resumed r) : Fits (s.collect r) := by
  have hl (d : String) (x : List String) : Located (update s.caller r.thread (.collected r d x)) s.ready
      ((unread s.trace).map Prod.fst) (inService s.worker ++ s.queue) := by
    refine h.located.moved (by simp [hc, pending]) (List.Sublist.refl _) (fun ht => ?_) ?_
    · obtain ⟨r', hr', -⟩ := h.located.handed _ ht
      simp [hc] at hr'
    · have hm := h.located.resumed r.thread r (.inl hc)
      simpa using hm
  unfold Sys.collect
  split_ifs
  · exact ⟨hl _ _, h.serving, h.code, h.justified⟩
  · exact ⟨hl _ _, h.serving, h.code, h.justified⟩

/-- The code a caller returns. -/
theorem fits_ret (h : Fits s) {d : String} {x : List String}
    (hc : s.caller r.thread = .collected r d x) : Fits (s.apply (.ret r d x)) where
  located := by
    have hl := h.located.returned hc
    rwa [List.filter_map] at hl
  serving := h.serving
  code p hp := by
    refine h.code p ?_
    rcases List.mem_append.mp hp with hp | hp
    · exact List.mem_append_left _ hp
    · exact List.mem_append_right _ (List.mem_of_mem_filter hp)
  justified := by
    refine ⟨fun hf => ?_, h.justified⟩
    obtain ⟨⟨r', o⟩, hm, rfl⟩ := List.mem_map.mp (h.located.resumed r.thread r (.inr ⟨d, x, hc⟩))
    exact ⟨o, hm, (h.code _ (List.mem_append_right _ hm) hf).symm⟩

theorem fits_dequeue (h : Fits s) (hw : s.worker = .dequeue)
    (ho : ∀ r ∈ s.queue.head?, o.event = r.event) : Fits (s.dequeue o) := by
  have hl := h.located
  have hcode := h.code
  simp only [settled, hw, stored] at hcode
  rw [hw] at hl
  cases hq : s.queue with
  | nil =>
    have he : s.dequeue o = { s with worker := .wait } := by simp only [Sys.dequeue, hq]
    rw [he]
    exact ⟨hl, by simp, hcode, h.justified⟩
  | cons r q =>
    have he : s.dequeue o = { s with queue := q, worker := .serve r o o.writes } := by
      simp only [Sys.dequeue, hq]
    rw [hq] at hl
    have hev : o.event = r.event := ho r (by simp [hq])
    rw [he]
    refine ⟨hl, fun r' o' todo hs => ?_, fun p hp hf => ?_, h.justified⟩
    · obtain ⟨rfl, rfl, rfl⟩ : r = r' ∧ o = o' ∧ o.writes = todo := by simpa using hs
      exact ⟨hev, fun hf _ => getLast_codes (hev ▸ hf)⟩
    · refine hcode p ?_ hf
      rcases List.mem_append.mp hp with hp | hp
      · simp only [stored] at hp
        split_ifs at hp with hn
        · -- a query or a statement stores a code, so it cannot be settled yet
          obtain rfl : p = (r, o) := by simpa using hp
          have hlast := getLast_codes (o := o) (hev ▸ hf)
          simp [hn] at hlast
        · simp at hp
      · simpa using hp

theorem fits_write (h : Fits s) {w : Write} {todo : List Write} (hw : s.worker = .serve r o (w :: todo))
    (hok : Isolated s .write) : Fits s.write := by
  have hl := h.located
  obtain ⟨hev, hlast⟩ := h.serving r o (w :: todo) hw
  have hs : s.write = { s.store w with worker := .serve r o todo } := by
    simp only [Sys.write, hw]
  have hcode := h.code
  rw [hs]
  rw [hw] at hl
  simp only [settled, hw, stored] at hcode
  cases w with
  | code c =>
    refine ⟨hl, fun r' o' todo' hs => ?_, fun p hp hf => ?_, h.justified⟩
    · obtain ⟨rfl, rfl, rfl⟩ : r = r' ∧ o = o' ∧ todo = todo' := by simpa using hs
      refine ⟨hev, fun hf hne => ?_⟩
      have := hlast hf (by simp [codes])
      rwa [codes, List.getLast?_cons_of_ne_nil hne] at this
    · rcases List.mem_append.mp hp with hp | hp
      · simp only [stored] at hp
        split_ifs at hp with hn
        · -- the last store for the request
          obtain rfl : p = (r, o) := by simpa using hp
          have hc := hlast hf (by simp [codes])
          simp only [codes, hn, List.getLast?_singleton, Option.some.injEq] at hc
          exact hc.symm
        · simp at hp
      · exact hok c (by simp [stores, hw]) p (List.mem_append_right _ hp) hf
  | desc | row =>
    refine ⟨hl, fun r' o' todo' hs => ?_, hcode, h.justified⟩
    obtain ⟨rfl, rfl, rfl⟩ : r = r' ∧ o = o' ∧ todo = todo' := by simpa using hs
    exact ⟨hev, hlast⟩

theorem fits_reply (h : Fits s) (hw : s.worker = .serve r o []) : Fits s.reply := by
  have hl := h.located
  have hcode := h.code
  have hs : s.reply = { s with
      worker := .wait, ready := s.ready ++ [r.thread], trace := .executed r o :: s.trace } := by
    simp only [Sys.reply, hw]
  rw [hw] at hl
  simp only [settled, hw, stored, codes] at hcode
  rw [hs]
  exact ⟨hl.finished, by simp, hcode, ⟨trivial, h.justified⟩⟩

/-! ### All runs -/

theorem fits_step (h : Fits s) (he : s.Enabled a) (hok : Isolated s a) : Fits (s.apply a) := by
  cases a with
  | call r => exact fits_call h he hok
  | enqueue r => exact fits_enqueue h he
  | notify t => exact fits_notify h
  | block r => exact fits_block h he.1
  | resume r => exact fits_resume h he.1 he.2
  | collect r => exact fits_collect h he
  | ret r d x => exact fits_ret h he
  | wait =>
    have hl := h.located
    have hcode := h.code
    rw [he.1] at hl
    simp only [settled, he.1, stored] at hcode
    exact ⟨hl, by simp [Sys.apply], hcode, h.justified⟩
  | reset =>
    have hw : s.worker = .reset := he
    have hl := h.located
    have hcode := h.code
    rw [hw] at hl
    simp only [settled, hw, stored] at hcode
    exact ⟨hl, by simp [Sys.apply], hcode, h.justified⟩
  | dequeue o => exact fits_dequeue h he.1 he.2
  | write =>
    obtain ⟨r, o, w, todo, hw⟩ := he
    exact fits_write h hw hok
  | reply =>
    obtain ⟨r, o, hw⟩ := he
    exact fits_reply h hw

theorem fits_reach (h : ReachVia machine Isolated s) : Fits s := by
  refine h.invariant (I := Fits) ?_ ?_
  · rintro s rfl
    refine ⟨⟨fun t => rfl, List.nodup_nil, by simp [Sys.start], by simp [Sys.start]⟩, by simp [Sys.start],
      by simp [settled, stored, unread, Sys.start], trivial⟩
  · rintro s a hs ⟨-, he⟩ hok
    exact fits_step hs he hok

/-- Every query and statement returned the code the worker obtained for it. -/
def OwnReplies (s : Sys) : Prop :=
  ∀ post r code desc rows pre, s.trace = post ++ .returned r code desc rows :: pre →
    r.event ≠ .fetch → ∃ o, (r, o) ∈ unread pre ∧ code = o.obtained

/-- **Replies are isolated** as long as no step stores another code than the one that a caller is about to
read. -/
theorem replies_isolated (h : ReachVia machine Isolated s) : OwnReplies s := by
  intro post r code desc rows pre he
  have hj : Justified Just (post ++ .returned r code desc rows :: pre) := he ▸ (fits_reach h).justified
  exact hj.at

instance decidableIsolated (s : Sys) (a : Step) : Decidable (Isolated s a) :=
  inferInstanceAs (Decidable (∀ v ∈ stores s a, ∀ p ∈ settled s, p.1.event ≠ .fetch → p.2.obtained = v))

/-- A statement of thread `3` that fails. -/
def failing : Outcome := .execFailed ⟨-2147217900, "syntax", by decide⟩ none

/-- Thread `4` begins a call while the worker works on the statement of thread `3`. -/
def isolatedRun : List Step :=
  post ⟨3, .exec, "a"⟩ ++ [.wait, .reset, .dequeue failing, .write, .call ⟨4, .exec, "b"⟩, .write, .write,
    .reply, .resume ⟨3, .exec, "a"⟩, .collect ⟨3, .exec, "a"⟩, .ret ⟨3, .exec, "a"⟩ "syntax" []]

theorem isolatedRun_replies : OwnReplies (isolatedRun.foldl machine.apply Sys.start) :=
  replies_isolated ((ReachVia.init rfl).foldl isolatedRun (by decide +kernel))

/-- It begins the call after the worker has handed thread `3` back, and before that runs. -/
def overwrittenRun : List Step :=
  post ⟨3, .exec, "a"⟩ ++ [.wait, .reset, .dequeue failing, .write, .write, .write, .reply] ++
    post ⟨4, .exec, "b"⟩ ++ [.resume ⟨3, .exec, "a"⟩, .collect ⟨3, .exec, "a"⟩,
    .ret ⟨3, .exec, "a"⟩ "syntax" []]

/-- Thread `3` is told that its statement went well. -/
theorem reply_overwritten : ¬ ∀ s, Reach machine s → OwnReplies s := by
  intro hall
  have hr : Reach machine (overwrittenRun.foldl machine.apply Sys.start) :=
    (ReachVia.init rfl).foldl overwrittenRun (by decide +kernel)
  have hd : ∃ pre, (overwrittenRun.foldl machine.apply Sys.start).trace =
      [] ++ .returned ⟨3, .exec, "a"⟩ 0 "syntax" [] :: pre ∧
        unread pre = [(⟨3, .exec, "a"⟩, failing)] := ⟨_, rfl, by decide +kernel⟩
  obtain ⟨pre, he, hu⟩ := hd
  obtain ⟨o, hm, hc⟩ := hall _ hr _ _ _ _ _ _ he (by decide)
  rw [hu] at hm
  obtain rfl : o = failing := by simpa using hm
  exact absurd hc (by decide)

end StNvs.Db.Replies
