/-
  The store as it answers the workflow's calls.
-/
import SeedMedic.Repair.Effects
import SeedMedic.Repair.StoreSpec

namespace SeedMedic

open Lib

/-- A call the store answers with an error. -/
def StoreCall.fail (e : StoreError) : (c : StoreCall) → c.Ans
  | job _ | torrentFile _ | plannedFiles _ | history _ | unfinished | parked | apply ..
  | recordProgress .. | setReviewResumePoint .. | claim .. | release .. | renewLease ..
  | clearStaleLeases _ => .error e

namespace SqliteRepairStore

variable (s : SqliteRepairStore)

/-- The answer of a write, and the store it leaves: as it was after an error. -/
def orKeep {α β : Type} (f : α → β × SqliteRepairStore) :
    Except StoreError α → Except StoreError β × SqliteRepairStore
  | .ok a => (.ok (f a).1, (f a).2)
  | .error e => (.error e, s)

/-- The answer to a call at a time, when the database itself does not fail. -/
def answer (now : Time) : (c : StoreCall) → c.Ans × SqliteRepairStore
  | .job id => (.ok (s.job id), s)
  | .torrentFile id => (s.torrentFile id, s)
  | .plannedFiles id => (.ok (s.plannedFiles id), s)
  | .history id => (.ok (s.history id), s)
  | .unfinished => (.ok s.unfinished, s)
  | .parked => (.ok s.parked, s)
  | .apply id t u => s.orKeep (fun r => (r.1, r.2)) (s.apply now id t u)
  | .recordProgress id patch => (.ok (), s.recordProgress now id patch)
  | .setReviewResumePoint id state =>
    s.orKeep (fun s' => ((), s')) (s.setReviewResumePoint now id state)
  | .claim owner lease limit =>
    (.ok (s.claim now owner lease limit).1, (s.claim now owner lease limit).2)
  | .release id retryAt countAttempt => (.ok (), s.release now id retryAt countAttempt)
  | .renewLease id owner lease =>
    (.ok (s.renewLease now id owner lease).1, (s.renewLease now id owner lease).2)
  | .clearStaleLeases owner =>
    (.ok (s.clearStaleLeases now owner).1, (s.clearStaleLeases now owner).2)

/-- What a call may be answered and leave: the database may always fail, and then leaves
    everything as it was. -/
inductive Answers (now : Time) (c : StoreCall) : c.Ans → SqliteRepairStore → Prop
  | served : Answers now c (s.answer now c).1 (s.answer now c).2
  | failed (detail : String) : Answers now c (c.fail (.database detail)) s

variable {s} in
/-- A call is served, or fails and leaves the store alone. -/
theorem Answers.served_or_failed {now : Time} {c : StoreCall} {r : c.Ans} {s' : SqliteRepairStore}
    (h : s.Answers now c r s') : (r = (s.answer now c).1 ∧ s' = (s.answer now c).2) ∨
      ∃ detail, r = c.fail (.database detail) ∧ s' = s := by
  cases h with
  | served => exact .inl ⟨rfl, rfl⟩
  | failed detail => exact .inr ⟨detail, rfl, rfl⟩

/-! ## What a call writes -/

/-- Nothing of a row is changed but its lease, its schedule and its attempts. -/
def Rescheduled (r r' : JobRow) : Prop := ∃ owner expires next attempts updated,
  r' = { r with
    leaseOwner := owner
    leaseExpiresAt := expires
    nextAttemptAt := next
    attempts := attempts
    updatedAt := updated }

theorem Rescheduled.refl (r : JobRow) : Rescheduled r r := ⟨_, _, _, _, _, rfl⟩

/-- What a call does to the jobs and the audit trail of the store. -/
inductive Wrote (now : Time) : StoreCall → SqliteRepairStore → Prop
  | moved {id : JobId} {t : Transition} {u : TransitionUpdate} {r : JobRow} {s' : SqliteRepairStore}
      (found : s.jobs.get? id = some r) (left : r.state = t.fromState)
      (applied : s.apply now id t u = .ok (.applied, s')) : Wrote now (.apply id t u) s'
  | patched {id : JobId} {patch : JobPatch} :
    Wrote now (.recordProgress id patch) (s.recordProgress now id patch)
  | repointed {id : JobId} {state previous : RepairState} {r : JobRow} {detail : Json}
      (found : s.jobs.get? id = some r) (parked : r.state = .awaitingReview)
      (recorded : r.reviewFromState = some previous) :
    Wrote now (.setReviewResumePoint id state)
      ((s.moveResumePoint (timestamp now) id state).appendTransition
        ⟨id, previous, state, "reconciliation", some detail, timestamp now⟩)
  | rescheduled {c : StoreCall} {s' : SqliteRepairStore} (trail : s'.transitions = s.transitions)
      (rows : ∀ k r', s'.jobs.get? k = some r' →
        ∃ r, s.jobs.get? k = some r ∧ Rescheduled r r') : Wrote now c s'

variable {s}

/-- A call that leaves the store as it was. -/
theorem Wrote.nothing {now : Time} {c : StoreCall} : s.Wrote now c s :=
  .rescheduled rfl fun _ r h => ⟨r, h, .refl r⟩

/-- A statement that touches leases and schedules only. -/
theorem Wrote.of_update {now : Time} {c : StoreCall} {s' : SqliteRepairStore} {p : JobRow → Bool}
    {f : JobRow → JobRow} (h : s'.jobs.rows = s.jobs.rows.map fun r => if p r then f r else r)
    (htrail : s'.transitions = s.transitions) (hid : ∀ r, (f r).id = r.id)
    (hf : ∀ r, Rescheduled r (f r)) : s.Wrote now c s' := by
  refine .rescheduled htrail fun k r' hr' => ?_
  rw [get?_of_rows_map (fun r => by split_ifs <;> simp [hid]) h] at hr'
  obtain ⟨r, hr, rfl⟩ := Option.map_eq_some_iff.1 hr'
  refine ⟨r, hr, ?_⟩
  split_ifs
  · exact hf r
  · exact .refl r

/-- Everything a served call can have written. -/
theorem answer_wrote (now : Time) (c : StoreCall) : s.Wrote now c (s.answer now c).2 := by
  cases c with
  | apply id t u =>
    simp only [answer]
    cases ha : s.apply now id t u with
    | error e => exact .nothing
    | ok r =>
      obtain ⟨a, s'⟩ := r
      obtain ⟨r, hr, ⟨rfl, hfrom, -⟩ | ⟨-, -, -, rfl⟩⟩ := apply_ok ha
      · exact .moved hr hfrom ha
      · exact .nothing
  | recordProgress id patch => exact .patched
  | setReviewResumePoint id state =>
    simp only [answer]
    cases ha : s.setReviewResumePoint now id state with
    | error e => exact .nothing
    | ok s' =>
      rcases setReviewResumePoint_cases ha with rfl | ⟨r, previous, detail, hr, hparked, hprevious, rfl⟩
      · exact .nothing
      · exact .repointed hr hparked hprevious
  | claim owner lease limit =>
    exact .of_update rfl rfl (fun r => rfl) fun r => ⟨_, _, _, _, _, rfl⟩
  | release id retryAt countAttempt =>
    exact .of_update rfl rfl (fun r => rfl) fun r => ⟨_, _, _, _, _, rfl⟩
  | renewLease id owner lease =>
    exact .of_update rfl rfl (fun r => rfl) fun r => ⟨_, _, _, _, _, rfl⟩
  | clearStaleLeases owner =>
    exact .of_update rfl rfl (fun r => rfl) fun r => ⟨_, _, _, _, _, rfl⟩
  | _ => exact .nothing

theorem answer_applied {s' : SqliteRepairStore} {now : Time} {id : JobId} {t : Transition}
    {u : TransitionUpdate} (h : s.apply now id t u = .ok (.applied, s')) :
    s.answer now (.apply id t u) = (.ok .applied, s') := by
  simp only [answer, h]
  rfl

theorem answer_repointed {now : Time} {id : JobId} {r : JobRow}
    {previous state : RepairState} (hr : s.jobs.get? id = some r) (hparked : r.state = .awaitingReview)
    (hprevious : r.reviewFromState = some previous) (hne : previous ≠ state) :
    ∃ row, s.answer now (.setReviewResumePoint id state) =
      (.ok (), (s.moveResumePoint (timestamp now) id state).appendTransition row) := by
  simp only [answer, setReviewResumePoint, hr, hparked, hprevious, hne, ne_eq, not_true_eq_false,
    if_false]
  exact ⟨_, rfl⟩

/-- Plans are written by transitions only. -/
theorem answer_files {now : Time} {c : StoreCall} (hc : ∀ id t u, c ≠ .apply id t u) :
    (s.answer now c).2.files = s.files := by
  cases c with
  | apply id t u => exact absurd rfl (hc id t u)
  | setReviewResumePoint id state =>
    simp only [answer]
    cases ha : s.setReviewResumePoint now id state with
    | error e => rfl
    | ok s' =>
      rcases setReviewResumePoint_cases ha with rfl | ⟨_, _, _, -, -, -, rfl⟩
      · rfl
      · rfl
  | _ => rfl

/-- What a call does to one row. -/
inductive Changed (now : Time) (c : StoreCall) (r : JobRow) : JobRow → Prop
  | moved {t : Transition} {u : TransitionUpdate} (call : c = .apply r.id t u)
      (left : r.state = t.fromState) :
    Changed now c r
      (patchRow u.patch (timestamp now) (transitionRow t u.failureReason (timestamp now) r))
  | patched {patch : JobPatch} (call : c = .recordProgress r.id patch) :
    Changed now c r (patchRow patch (timestamp now) r)
  | repointed {state previous : RepairState} (call : c = .setReviewResumePoint r.id state)
      (parked : r.state = .awaitingReview) (recorded : r.reviewFromState = some previous) :
    Changed now c r { r with reviewFromState := some state, updatedAt := timestamp now }
  | rescheduled {r' : JobRow} (h : Rescheduled r r') : Changed now c r r'

/-- A job keeps a staging directory once it has one. -/
theorem Changed.stagingDir_isSome {now : Time} {c : StoreCall} {r r' : JobRow}
    (h : Changed now c r r') (hr : r.stagingDir.isSome) : r'.stagingDir.isSome := by
  have hpatch : ∀ patch : JobPatch, (patch.stagingDir <|> r.stagingDir).isSome := by
    intro patch
    cases patch.stagingDir with
    | none => exact hr
    | some dir => rfl
  cases h with
  | moved => exact hpatch _
  | patched => exact hpatch _
  | repointed => exact hr
  | rescheduled h =>
    obtain ⟨_, _, _, _, _, rfl⟩ := h
    exact hr

/-- A row after a write is the row of that job before it, changed. -/
theorem Wrote.changed {now : Time} {c : StoreCall} {s' : SqliteRepairStore} (h : s.Wrote now c s')
    {k : JobId} {r' : JobRow} (hr' : s'.jobs.get? k = some r') :
    ∃ r, s.jobs.get? k = some r ∧ Changed now c r r' := by
  cases h with
  | @moved id t u r₁ s' found left applied =>
    rw [apply_applied_get applied] at hr'
    obtain ⟨r, hr, rfl⟩ := Option.map_eq_some_iff.1 hr'
    refine ⟨r, hr, ?_⟩
    rw [movedRow]
    split_ifs with hid
    · have hk : k = id := (Table.get?_some hr).2.symm.trans hid
      subst hk
      obtain rfl := Option.some.inj (hr.symm.trans found)
      exact .moved (by rw [hid]) left
    · exact .rescheduled (.refl r)
  | @patched id patch =>
    rw [recordProgress, updateJobFields_get] at hr'
    obtain ⟨r, hr, rfl⟩ := Option.map_eq_some_iff.1 hr'
    refine ⟨r, hr, ?_⟩
    split_ifs with hid
    · exact .patched (by rw [hid])
    · exact .rescheduled (.refl r)
  | @repointed id state previous r₁ detail found parked recorded =>
    rw [appendTransition_jobs, moveResumePoint_get] at hr'
    obtain ⟨r, hr, rfl⟩ := Option.map_eq_some_iff.1 hr'
    refine ⟨r, hr, ?_⟩
    split_ifs with hid
    · have hk : k = id := (Table.get?_some hr).2.symm.trans hid
      subst hk
      obtain rfl := Option.some.inj (hr.symm.trans found)
      exact .repointed (by rw [hid]) parked recorded
    · exact .rescheduled (.refl r)
  | rescheduled trail rows =>
    obtain ⟨r, hr, h⟩ := rows k r' hr'
    exact ⟨r, hr, .rescheduled h⟩

/-- No call loses a job. -/
theorem answer_found {now : Time} {c : StoreCall} {k : JobId} {r : JobRow}
    (hr : s.jobs.get? k = some r) : ∃ r', (s.answer now c).2.jobs.get? k = some r' := by
  have hupdate : ∀ {s' : SqliteRepairStore} {p : JobRow → Bool} {f : JobRow → JobRow},
      (s'.jobs.rows = s.jobs.rows.map fun r => if p r then f r else r) → (∀ r, (f r).id = r.id) →
        ∃ r', s'.jobs.get? k = some r' := by
    intro s' p f hrows hf
    rw [get?_of_rows_map (fun r => by split_ifs <;> simp [hf]) hrows, hr]
    exact ⟨_, rfl⟩
  cases c with
  | apply id t u =>
    simp only [answer]
    cases ha : s.apply now id t u with
    | error e => exact ⟨r, hr⟩
    | ok a =>
      obtain ⟨a, s'⟩ := a
      obtain ⟨-, -, ⟨rfl, -, -⟩ | ⟨-, -, -, rfl⟩⟩ := apply_ok ha
      · exact ⟨_, (apply_applied_get ha k).trans (congrArg _ hr)⟩
      · exact ⟨r, hr⟩
  | recordProgress id patch => exact ⟨_, (updateJobFields_get patch k).trans (congrArg _ hr)⟩
  | setReviewResumePoint id state =>
    simp only [answer]
    cases ha : s.setReviewResumePoint now id state with
    | error e => exact ⟨r, hr⟩
    | ok s' =>
      rcases setReviewResumePoint_cases ha with rfl | ⟨_, _, _, -, -, -, rfl⟩
      · exact ⟨r, hr⟩
      · exact ⟨_, (moveResumePoint_get state k).trans (congrArg _ hr)⟩
  | claim owner lease limit => exact hupdate rfl fun _ => rfl
  | release id retryAt countAttempt => exact hupdate rfl fun _ => rfl
  | renewLease id owner lease => exact hupdate rfl fun _ => rfl
  | clearStaleLeases owner => exact hupdate rfl fun _ => rfl
  | _ => exact ⟨r, hr⟩

/-- A row before a call is there after it, changed. -/
theorem answer_changed {now : Time} {c : StoreCall} {k : JobId} {r : JobRow}
    (hr : s.jobs.get? k = some r) :
    ∃ r', (s.answer now c).2.jobs.get? k = some r' ∧ Changed now c r r' := by
  obtain ⟨r', hr'⟩ : ∃ r', (s.answer now c).2.jobs.get? k = some r' := answer_found hr
  obtain ⟨r₀, hr₀, hchanged⟩ := (answer_wrote now c).changed hr'
  obtain rfl := Option.some.inj (hr.symm.trans hr₀)
  exact ⟨r', hr', hchanged⟩

/-! ## What a call counts -/

/-- What a call does to the state and the counters of one row. -/
inductive Tallied (c : StoreCall) (r r' : JobRow) : Prop
  | kept (state : r'.state = r.state) (attempts : r'.attempts = r.attempts)
      (unknown : r'.consecutiveUnknownTrackerStatus = r.consecutiveUnknownTrackerStatus)
  /-- A transition starts the attempts over. -/
  | moved {t : Transition} {u : TransitionUpdate} (call : c = .apply r.id t u)
      (state : r'.state = t.toState) (attempts : r'.attempts = 0)
      (unknown : r'.consecutiveUnknownTrackerStatus =
        u.patch.consecutiveUnknownTrackerStatus.getD r.consecutiveUnknownTrackerStatus)
  | progressed {patch : JobPatch} (call : c = .recordProgress r.id patch) (state : r'.state = r.state)
      (attempts : r'.attempts = r.attempts)
      (unknown : r'.consecutiveUnknownTrackerStatus =
        patch.consecutiveUnknownTrackerStatus.getD r.consecutiveUnknownTrackerStatus)
  | counted {retryAt : Option Time} (call : c = .release r.id retryAt true) (state : r'.state = r.state)
      (attempts : r'.attempts = r.attempts + 1)
      (unknown : r'.consecutiveUnknownTrackerStatus = r.consecutiveUnknownTrackerStatus)

theorem Tallied.refl (c : StoreCall) (r : JobRow) : Tallied c r r := .kept rfl rfl rfl

/-- A statement over rows counts as its effect on each row does. -/
theorem tallied_of_update {c : StoreCall} {s' : SqliteRepairStore} {p : JobRow → Bool}
    {f : JobRow → JobRow} (h : s'.jobs.rows = s.jobs.rows.map fun r => if p r then f r else r)
    (hid : ∀ r, (f r).id = r.id) (hf : ∀ r, p r = true → Tallied c r (f r)) {k : JobId}
    {r' : JobRow} (hr' : s'.jobs.get? k = some r') :
    ∃ r, s.jobs.get? k = some r ∧ Tallied c r r' := by
  rw [get?_of_rows_map (fun r => by split_ifs <;> simp [hid]) h] at hr'
  obtain ⟨r, hr, rfl⟩ := Option.map_eq_some_iff.1 hr'
  refine ⟨r, hr, ?_⟩
  split_ifs with hp
  · exact hf r hp
  · exact .refl c r

/-- A row after a served call is the row of that job before it, counted. -/
theorem answer_tallied {now : Time} {c : StoreCall} {k : JobId} {r' : JobRow}
    (hr' : (s.answer now c).2.jobs.get? k = some r') : ∃ r, s.jobs.get? k = some r ∧ Tallied c r r' := by
  have hsame : (s.answer now c).2 = s → ∃ r, s.jobs.get? k = some r ∧ Tallied c r r' :=
    fun h => ⟨r', h ▸ hr', .refl c r'⟩
  cases c with
  | apply id t u =>
    simp only [answer] at hr' hsame
    cases ha : s.apply now id t u with
    | error e =>
      rw [ha] at hsame
      exact hsame rfl
    | ok a =>
      obtain ⟨a, s'⟩ := a
      rw [ha] at hr' hsame
      obtain ⟨-, -, ⟨rfl, -, -⟩ | ⟨-, -, -, rfl⟩⟩ := apply_ok ha
      · obtain ⟨r, hr, rfl⟩ := Option.map_eq_some_iff.1 ((apply_applied_get ha k).symm.trans hr')
        refine ⟨r, hr, ?_⟩
        unfold movedRow
        split_ifs with hid
        · exact .moved (by rw [hid]) rfl rfl rfl
        · exact .refl _ r
      · exact hsame rfl
  | recordProgress id patch =>
    exact tallied_of_update (p := fun r => r.id = id) (f := patchRow patch (timestamp now)) rfl
      (fun _ => rfl) (fun r hr => .progressed (by rw [of_decide_eq_true hr]) rfl rfl rfl) hr'
  | setReviewResumePoint id state =>
    simp only [answer] at hr' hsame
    cases ha : s.setReviewResumePoint now id state with
    | error e =>
      rw [ha] at hsame
      exact hsame rfl
    | ok s' =>
      rw [ha] at hr' hsame
      rcases setReviewResumePoint_cases ha with rfl | ⟨_, _, _, -, -, -, rfl⟩
      · exact hsame rfl
      · exact tallied_of_update (p := fun r => r.id = id)
          (f := fun r => { r with reviewFromState := some state, updatedAt := timestamp now }) rfl
          (fun _ => rfl) (fun _ _ => .kept rfl rfl rfl) hr'
  | claim owner lease limit =>
    exact tallied_of_update (p := fun r => r.id ∈ s.claimedIds (timestamp now) limit)
      (f := leaseRow owner (leaseEnd now lease)) rfl (fun _ => rfl) (fun _ _ => .kept rfl rfl rfl) hr'
  | release id retryAt countAttempt =>
    refine tallied_of_update (p := fun r => r.id = id)
      (f := releaseRow (retryAt.map timestamp) countAttempt (timestamp now)) rfl (fun _ => rfl)
      (fun r hr => ?_) hr'
    cases countAttempt with
    | true => exact .counted (by rw [of_decide_eq_true hr]) rfl rfl rfl
    | false => exact .kept rfl rfl rfl
  | renewLease id owner lease =>
    exact tallied_of_update (p := fun r => r.id = id ∧ r.leaseOwner = some owner)
      (f := fun r => { r with leaseExpiresAt := some (leaseEnd now lease) }) rfl (fun _ => rfl) (fun _ _ => .kept rfl rfl rfl) hr'
  | clearStaleLeases owner =>
    exact tallied_of_update (p := stale (timestamp now) owner)
      (f := fun r => { r with leaseOwner := none, leaseExpiresAt := none }) rfl (fun _ => rfl)
      (fun _ _ => .kept rfl rfl rfl) hr'
  | _ => exact hsame rfl

theorem Answers.wrote {now : Time} {c : StoreCall} {r : c.Ans} {s' : SqliteRepairStore}
    (h : s.Answers now c r s') : s.Wrote now c s' := by
  cases h with
  | served => exact answer_wrote now c
  | failed detail => exact .nothing

variable (s)

/-- A call answered by the store and the clock, or by the world outside in any way. -/
def Replies (now : Time) : (c : Call) → Ans c → SqliteRepairStore → Prop
  | .store c, r, s' => s.Answers now c r s'
  | .now, r, s' => r = now ∧ s' = s
  | _, _, s' => s' = s

variable {s} in
/-- Only calls to the store write to it. -/
theorem Replies.wrote {now : Time} {c : Call} {r : Ans c} {s' : SqliteRepairStore}
    (h : s.Replies now c r s') : (∃ c', c = .store c' ∧ s.Wrote now c' s') ∨ s' = s := by
  cases c with
  | store c => exact .inl ⟨c, rfl, Answers.wrote h⟩
  | now => exact .inr h.2
  | _ => exact .inr h

variable {s} in
/-- A row after a call is the row of that job before it, changed. -/
theorem Replies.changed {now : Time} {c : Call} {a : Ans c} {s' : SqliteRepairStore}
    (h : s.Replies now c a s') {k : JobId} {r' : JobRow} (hr' : s'.jobs.get? k = some r') :
    ∃ r, s.jobs.get? k = some r ∧ (r' = r ∨ ∃ c', c = .store c' ∧ Changed now c' r r') := by
  rcases h.wrote with ⟨c', rfl, hw⟩ | rfl
  · obtain ⟨r, hr, hchanged⟩ := hw.changed hr'
    exact ⟨r, hr, .inr ⟨c', rfl, hchanged⟩⟩
  · exact ⟨r', hr', .inl rfl⟩

variable {s} in
/-- A job that is there stays there. -/
theorem Replies.found {now : Time} {c : Call} {a : Ans c} {s' : SqliteRepairStore}
    (h : s.Replies now c a s') {k : JobId} {r : JobRow} (hr : s.jobs.get? k = some r) :
    ∃ r', s'.jobs.get? k = some r' := by
  cases c with
  | store c =>
    rcases Answers.served_or_failed h with ⟨-, rfl⟩ | ⟨_, -, rfl⟩
    · exact answer_found hr
    · exact ⟨r, hr⟩
  | now => exact ⟨r, h.2 ▸ hr⟩
  | _ => exact ⟨r, (show s' = s from h) ▸ hr⟩

variable {s} in
/-- A row after a call is the row of that job before it, counted. -/
theorem Replies.tallied {now : Time} {c : Call} {a : Ans c} {s' : SqliteRepairStore}
    (h : s.Replies now c a s') {k : JobId} {r' : JobRow} (hr' : s'.jobs.get? k = some r') :
    ∃ r, s.jobs.get? k = some r ∧ (r' = r ∨ ∃ c', c = .store c' ∧ Tallied c' r r') := by
  have hsame : s' = s → ∃ r, s.jobs.get? k = some r ∧ (r' = r ∨ ∃ c', c = .store c' ∧ Tallied c' r r') :=
    fun he => ⟨r', he ▸ hr', .inl rfl⟩
  cases c with
  | store c =>
    rcases Answers.served_or_failed h with ⟨-, rfl⟩ | ⟨_, -, rfl⟩
    · obtain ⟨r, hr, ht⟩ := answer_tallied hr'
      exact ⟨r, hr, .inr ⟨c, rfl, ht⟩⟩
    · exact hsame rfl
  | now => exact hsame h.2
  | _ => exact hsame h

/-- Serve a program that only needs the store, the clock and the feeds. -/
def serve (now : Time) : (c : Call) → SqliteRepairStore → Option (Ans c × SqliteRepairStore)
  | .store c, s => some (s.answer now c)
  | .now, s => some (now, s)
  | .publish _, s | .notify _, s | .recordTick _, s | .enterStep _, s => some ((), s)
  | _, _ => none

@[simp] theorem exec_store {α : Type} (now : Time) (c : StoreCall) (f : c.Ans → M α)
    (s : SqliteRepairStore) : (M.store c >>= f).exec (serve now) s =
      (f (s.answer now c).1).exec (serve now) (s.answer now c).2 := rfl

@[simp] theorem exec_publish {α : Type} (now : Time) (e : EventKind) (f : Unit → M α)
    (s : SqliteRepairStore) :
    (M.publish e >>= f).exec (serve now) s = (f ()).exec (serve now) s := rfl

end SqliteRepairStore

end SeedMedic
