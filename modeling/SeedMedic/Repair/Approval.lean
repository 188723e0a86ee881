/-
  How long an operator's approval of a resume stands.
-/
import Mathlib.Data.List.Induction
import SeedMedic.Lib.Pool
import SeedMedic.Repair.Programs
import SeedMedic.Repair.ResumeSafety

namespace SeedMedic

open Lib Prog SqliteRepairStore

/-! ## Approvals in the audit trail -/

namespace TransitionRow

/-- The row of an operator's approval of a resume. -/
def approves (r : TransitionRow) : Bool :=
  r.reason = TransitionReason.operatorRetry.asStr &&
    match r.detail with
    | some (.obj (("operator", .str action) :: _)) => action = "approve_resume"
    | _ => false

/-- The row of a rewind, or of files being staged. -/
def disturbs (r : TransitionRow) : Bool :=
  r.reason = TransitionReason.reconciliation.asStr || (r.fromState = .matched && r.toState = .staged)

end TransitionRow

/-- The trail shows an approval of the job that is later than its last rewind and its last
    staging. -/
def ApprovedSince (trail : List TransitionRow) (id : JobId) : Prop :=
  ∃ before row after, trail = before ++ row :: after ∧ row.jobId = id ∧ row.approves = true ∧
    ∀ r ∈ after, r.jobId = id → r.disturbs = false

section
variable {trail : List TransitionRow} {id : JobId} {r : TransitionRow}

/-- How one more row changes what stands approved. -/
theorem approvedSince_concat : ApprovedSince (trail ++ [r]) id ↔
    (r.jobId = id ∧ r.approves = true) ∨
      (ApprovedSince trail id ∧ (r.jobId = id → r.disturbs = false)) := by
  constructor
  · rintro ⟨before, row, after, htrail, hid, happroves, hafter⟩
    rcases List.eq_nil_or_concat after with rfl | ⟨after, last, rfl⟩
    · obtain ⟨-, hrow⟩ := List.append_inj' htrail rfl
      cases hrow
      exact .inl ⟨hid, happroves⟩
    · rw [List.concat_eq_append, ← List.cons_append, ← List.append_assoc] at htrail
      obtain ⟨hinit, hlast⟩ := List.append_inj' htrail rfl
      cases hlast
      simp only [List.concat_eq_append, List.mem_append, List.mem_singleton] at hafter
      exact .inr ⟨⟨before, row, after, hinit, hid, happroves, fun r hr => hafter r (.inl hr)⟩,
        hafter r (.inr rfl)⟩
  · rintro (⟨hid, happroves⟩ | ⟨⟨before, row, after, rfl, hid, happroves, hafter⟩, hlast⟩)
    · exact ⟨trail, r, [], rfl, hid, happroves, fun r hr => by cases hr⟩
    · refine ⟨before, row, after ++ [r], by simp, hid, happroves, fun r' hr => ?_⟩
      rcases List.mem_append.1 hr with hr | hr
      · exact hafter r' hr
      · rw [List.mem_singleton.1 hr]
        exact hlast

/-- What stands approved, by one pass over the trail. -/
def approvedSince (trail : List TransitionRow) (id : JobId) : Bool :=
  trail.foldl (fun standing r =>
    if r.jobId = id then r.approves || (standing && !r.disturbs) else standing) false

theorem approvedSince_iff : approvedSince trail id = true ↔ ApprovedSince trail id := by
  induction trail using List.reverseRecOn with
  | nil =>
    refine ⟨fun h => (by cases h), ?_⟩
    rintro ⟨before, row, after, h, -⟩
    simp at h
  | append_singleton trail r ih =>
    rw [approvedSince_concat, ← ih, approvedSince, List.foldl_append]
    simp only [List.foldl_cons, List.foldl_nil]
    by_cases hid : r.jobId = id <;> simp [hid, approvedSince]

instance : Decidable (ApprovedSince trail id) := decidable_of_iff _ approvedSince_iff

end

/-! ## What a call does to approvals -/

/-- The row of a job carries an approval. -/
def RowApproved (s : SqliteRepairStore) (id : JobId) : Prop :=
  ∃ r, s.jobs.get? id = some r ∧ r.resumeApproved = true

/-- The jobs a call would rewind, or record as staged. -/
def Disturbs (s : SqliteRepairStore) : Call → JobId → Prop
  | .store (.apply id t _), k => k = id ∧ (∃ r, s.jobs.get? id = some r ∧ r.state = t.fromState) ∧
    (t.reason = .reconciliation ∨ (t.fromState = .matched ∧ t.toState = .staged))
  | .store (.setReviewResumePoint id _), k =>
    k = id ∧ ∃ r, s.jobs.get? id = some r ∧ r.state = .awaitingReview
  | _, _ => False

/-- A write that approves a job only as an operator's approval. -/
def ApprovesOpenly : StoreCall → Prop
  | .apply _ t u => u.patch.resumeApproved = none ∨ Approval t u
  | .recordProgress _ patch => patch.resumeApproved = none
  | _ => True

section
variable {s s' : SqliteRepairStore} {now : Time} {c : StoreCall} {id : JobId}

theorem asStr_eq_reconciliation {reason : TransitionReason}
    (h : reason.asStr = TransitionReason.reconciliation.asStr) : reason = .reconciliation := by
  cases reason with
  | reconciliation => rfl
  | review r => exact absurd (show "review" = "reconciliation" from h) (by decide)
  | _ => exact absurd h (by decide)

/-- The audit row of a transition disturbs only as the transition does. -/
theorem disturbs_transitionRow {t : Transition} {detail : Option Json} {st : Stamp}
    (h : ¬(t.reason = .reconciliation ∨ (t.fromState = .matched ∧ t.toState = .staged))) :
    TransitionRow.disturbs ⟨id, t.fromState, t.toState, t.reason.asStr, detail, st⟩ = false := by
  push Not at h
  simp only [TransitionRow.disturbs, Bool.or_eq_false_iff, decide_eq_false_iff_not,
    Bool.and_eq_false_iff]
  refine ⟨fun hr => h.1 (asStr_eq_reconciliation hr), ?_⟩
  by_cases hfrom : t.fromState = .matched
  · exact .inr (h.2 hfrom)
  · exact .inl hfrom

/-- An approval outlasts every call that does not disturb the job. -/
theorem ApprovedSince.keep (h : s.Wrote now c s') (hd : ¬Disturbs s (.store c) id)
    (ha : ApprovedSince s.transitions id) : ApprovedSince s'.transitions id := by
  cases h with
  | @moved id' t u r s' found left applied =>
    rw [apply_applied_transitions applied]
    refine approvedSince_concat.2 (.inr ⟨ha, fun hid => disturbs_transitionRow fun hc => hd ?_⟩)
    exact ⟨hid.symm, ⟨r, found, left⟩, hc⟩
  | patched => exact ha
  | repointed found parked recorded =>
    refine approvedSince_concat.2 (.inr ⟨ha, fun hid => absurd ?_ hd⟩)
    exact ⟨hid.symm, _, found, parked⟩
  | rescheduled trail rows =>
    rw [trail]
    exact ha

/-- A row is approved after a call because it was before, or by the call. -/
theorem RowApproved.of_wrote (h : s.Wrote now c s') (hopen : ApprovesOpenly c)
    (ha : RowApproved s' id) : RowApproved s id ∨ ApprovedSince s'.transitions id := by
  obtain ⟨r', hr', happroved⟩ := ha
  cases h with
  | @moved id' t u r s' found left applied =>
    rw [apply_applied_get applied] at hr'
    obtain ⟨r₀, hr₀, rfl⟩ := Option.map_eq_some_iff.1 hr'
    unfold movedRow at happroved
    split_ifs at happroved with hid
    · have hid : id' = id := hid.symm.trans (Table.get?_some hr₀).2
      subst hid
      rcases hopen with hpatch | ⟨hreason, resumedAt, hdetail⟩
      · simp only [patchRow, transitionRow, hpatch, Option.getD_none] at happroved
        split_ifs at happroved
        exact .inl ⟨r₀, hr₀, happroved⟩
      · right
        rw [apply_applied_transitions applied]
        refine approvedSince_concat.2 (.inl ⟨rfl, ?_⟩)
        simp [TransitionRow.approves, hreason, hdetail, operatorJson]
    · exact .inl ⟨r₀, hr₀, happroved⟩
  | @patched id' patch =>
    have hpatch : patch.resumeApproved = none := hopen
    rw [recordProgress, updateJobFields_get] at hr'
    obtain ⟨r₀, hr₀, rfl⟩ := Option.map_eq_some_iff.1 hr'
    refine .inl ⟨r₀, hr₀, ?_⟩
    split_ifs at happroved
    · simpa [patchRow, hpatch] using happroved
    · exact happroved
  | repointed found parked recorded =>
    rw [appendTransition_jobs, moveResumePoint_get] at hr'
    obtain ⟨r₀, hr₀, rfl⟩ := Option.map_eq_some_iff.1 hr'
    refine .inl ⟨r₀, hr₀, ?_⟩
    split_ifs at happroved <;> exact happroved
  | rescheduled trail rows =>
    obtain ⟨r₀, hr₀, _, _, _, _, _, rfl⟩ := rows _ _ hr'
    exact .inl ⟨r₀, hr₀, happroved⟩

end

/-! ## Every run -/

/-- The store, the clock, and what each thread has before it. -/
structure ApprovalWorld (W O : Type) where
  store : SqliteRepairStore
  now : Time
  desks : W ⊕ O → Desk

namespace ApprovalWorld

variable {W O : Type}

/-- A world in which nothing was loaded yet. -/
def opening (s : SqliteRepairStore) (now : Time) : ApprovalWorld W O := ⟨s, now, fun _ => .bare⟩

/-- The condition on a call: it rewinds no job, and stages none, that is approved in its row or
    in a copy another worker may still step. -/
def Undisturbed (i : W ⊕ O) (c : Call) (w : ApprovalWorld W O) : Prop :=
  ∀ id, Disturbs w.store c id → ¬RowApproved w.store id ∧ ∀ j : W, Sum.inl j ≠ i →
    ∀ job ∈ (w.desks (.inl j)).held, job.id = id → job.resumeApproved = false

/-- Every approval, in a row or in a worker's copy, stands in the trail. -/
structure Standing (w : ApprovalWorld W O) : Prop where
  rows : ∀ id, RowApproved w.store id → ApprovedSince w.store.transitions id
  copies : ∀ j : W, ∀ job ∈ (w.desks (.inl j)).held, job.resumeApproved = true →
    ApprovedSince w.store.transitions job.id

end ApprovalWorld

section
variable (W O : Type) [DecidableEq W] [DecidableEq O]

/-- Workers that never resume unasked and operators, on one store that may fail. -/
def approvals : System (W ⊕ O) Call Ans (ApprovalWorld W O) where
  answers i c w r w' := ∃ s, w.store.Replies w.now c r s ∧ w' = { w with
    store := s, desks := Function.update w.desks i ((w.desks i).record c r) }
  moves w w' := ∃ now s, w.now ≤ now ∧
    (s = w.store ∨ ∃ h d, w.store.recordDiscovery w.now h = .ok (d, s)) ∧
      w' = { w with store := s, now }
  starts := Acting fun policy => policy.autoResume = .never

end

section
variable {policies : SafetyPolicy → Prop} {d : Desk} {c : Call} {s s' : SqliteRepairStore}
  {now : Time} {W O : Type}

theorem approvesOpenly_of_may {c : StoreCall} (h : (conduct policies).may (.store c) d) :
    ApprovesOpenly c := by
  cases c with
  | apply id t u => exact Desk.MayApply.approval h
  | recordProgress id patch => exact h
  | _ => trivial

/-- A thread disturbs no job it keeps a copy of. -/
theorem not_disturbs_held {r : Ans c} {job : RepairJob} (hmay : (conduct policies).may c d)
    (hbefore : job ∈ d.held) (hafter : job ∈ (d.record c r).held) : ¬Disturbs s c job.id := by
  intro hd
  cases c with
  | store c =>
    cases c with
    | apply id t u => exact hafter.2 hd.1
    | setReviewResumePoint id state => exact hmay.1 job hbefore hd.1
    | _ => exact hd
  | _ => exact hd

/-- A call that hands over a copy disturbs nothing. -/
theorem not_disturbs_delivers {r : Ans c} {job : RepairJob} {id : JobId} (h : Delivers c r job) :
    ¬Disturbs s c id := by
  intro hd
  cases c with
  | store c =>
    cases c with
    | apply id t u => exact h
    | setReviewResumePoint id state => exact h
    | _ => exact hd
  | _ => exact hd

theorem ApprovedSince.keep_replies {r : Ans c} {id : JobId} (h : s.Replies now c r s')
    (hd : ¬Disturbs s c id) (ha : ApprovedSince s.transitions id) :
    ApprovedSince s'.transitions id := by
  rcases h.wrote with ⟨c', rfl, hw⟩ | rfl
  · exact ha.keep hw hd
  · exact ha

/-- What is discovered is approved by nobody, and disturbs nobody. -/
theorem ApprovalWorld.Standing.discover {w : ApprovalWorld W O} (h : w.Standing) {hr : HitAndRun}
    {disc : Discovered} (hok : w.store.recordDiscovery w.now hr = .ok (disc, s)) :
    ({ w with store := s, now } : ApprovalWorld W O).Standing := by
  rcases recordDiscovery_cases hok with rfl | ⟨id, row, -, htrail, ⟨detail, rfl⟩, hrows⟩
  · exact ⟨h.rows, h.copies⟩
  · have hkeep : ∀ k, ApprovedSince w.store.transitions k → ApprovedSince s.transitions k := by
      intro k hk
      rw [htrail]
      exact approvedSince_concat.2 (.inr ⟨hk, fun _ => rfl⟩)
    refine ⟨fun k hk => ?_, fun j job hj ha => hkeep _ (h.copies j job hj ha)⟩
    obtain ⟨r, hget, happroved⟩ := hk
    rw [hrows] at hget
    split_ifs at hget
    · cases hget
      cases happroved
    · exact hkeep k (h.rows k ⟨r, hget, happroved⟩)

variable [DecidableEq W] [DecidableEq O]

/-- As long as no approved job is disturbed, every approval stands. -/
theorem approvals_sound : ((approvals W O).restrict ApprovalWorld.Undisturbed).Sound
    (fun i => conduct (slotPolicies (fun policy => policy.autoResume = .never) i))
    ApprovalWorld.Standing fun i d w => d = w.desks i where
  start := fun i p w _ hp => ⟨_, rfl, hp.conducts⟩
  call := by
    rintro i c w r w' d hstanding rfl hmay ⟨hundisturbed, s, hs, rfl⟩
    refine ⟨⟨fun id ha => ?_, fun j job hjob ha => ?_⟩, ⟨_, ⟨hs.honest, rfl⟩, by simp⟩,
      fun j hj m hm => ?_⟩
    · -- an approved row
      rcases hs.wrote with ⟨c', rfl, hw⟩ | rfl
      · rcases ha.of_wrote hw (approvesOpenly_of_may hmay) with hold | hnew
        · exact (hstanding.rows id hold).keep hw fun hd => (hundisturbed id hd).1 hold
        · exact hnew
      · exact hstanding.rows id ha
    · by_cases hj : Sum.inl j = i
      · -- a copy of the thread's own: it kept it, or was just handed it
        subst hj
        simp only [Function.update_self] at hjob
        rcases Desk.held_record hjob with hold | hnew
        · exact (hstanding.copies j job hold ha).keep_replies hs (not_disturbs_held hmay hold hjob)
        · obtain ⟨row, row', hrow, ⟨_, _, _, _, _, rfl⟩, hread⟩ := hs.shows hnew.shows
          have hrowApproved : RowApproved w.store job.id := ⟨row, hrow, by rw [hread] at ha; exact ha⟩
          exact (hstanding.rows _ hrowApproved).keep_replies hs (not_disturbs_delivers hnew)
      · simp only [Function.update_of_ne hj] at hjob
        refine (hstanding.copies j job hjob ha).keep_replies hs fun hd => ?_
        rw [(hundisturbed _ hd).2 j hj job hjob rfl] at ha
        cases ha
    · simp only [Function.update_of_ne hj]
      exact hm
  move := by
    rintro w w' hstanding ⟨now, s, -, rfl | ⟨h, disc, hok⟩, rfl⟩
    · exact ⟨⟨hstanding.rows, hstanding.copies⟩, fun j m hm => hm⟩
    · exact ⟨hstanding.discover hok, fun j m hm => hm⟩

/-- In every run in which no approved job is rewound or staged, a worker that is about to resume a
    torrent does so for a job approved since its last rewind and its last staging. -/
theorem resume_approved_since {s₀ : SqliteRepairStore}
    (hopening : ∀ id, RowApproved s₀ id → ApprovedSince s₀.transitions id)
    {s : Lib.Config (W ⊕ O) Call Ans (ApprovalWorld W O)} {i : W ⊕ O} {h : InfoHash}
    {k : Ans (.client (.resume h)) → M Unit}
    (hreach : ((approvals W O).restrict ApprovalWorld.Undisturbed).Reach (.opening s₀ now) s)
    (hresume : s.threads i = some (.call (.client (.resume h)) k)) :
    ∃ job, (s.world.desks i).current = some job ∧ job.infoHash = some h ∧
      ApprovedSince s.world.store.transitions job.id := by
  have hstart : (ApprovalWorld.opening s₀ now : ApprovalWorld W O).Standing :=
    ⟨hopening, fun j job hj => hj.elim⟩
  obtain ⟨hstanding, d, rfl, job, hheld, hcurrent, hhash, policy, completeness, hpolicy, hdecide⟩ :=
    approvals_sound.permitted hstart hreach hresume
  cases i with
  | inl j =>
    exact ⟨job, hcurrent, hhash,
      hstanding.copies j job hheld ((decideResume_resume hdecide).2 hpolicy)⟩
  | inr o => exact hpolicy.elim

end

/-! ## An approval given, then the torrent lost -/

/-- A job parked only because nothing resumes by itself. -/
def heldJob : JobRow :=
  { discoveredRow ⟨1⟩ 0 ⟨⟨"tracker"⟩, ⟨"7"⟩, "show", none, 10, none⟩ with
    state := .awaitingReview
    reviewFromState := some .verified
    reviewReason := some .autoResumeDisabled
    infoHash := some sevens
    torrentFile := some []
    stagingDir := some (.ofComponent "job-1" (by decide)) }

def heldStore : SqliteRepairStore := ⟨⟨[heldJob], by decide⟩, .empty, [], 1⟩

/-- The store after an operator approved the resume. -/
def approvedStore : SqliteRepairStore :=
  (((approveResumeAction ⟨1⟩).exec (serve 0) heldStore).map Prod.snd).getD heldStore

theorem approvedStore_standing (id : JobId) (h : RowApproved approvedStore id) :
    ApprovedSince approvedStore.transitions id := by
  have hid : id = ⟨1⟩ := by
    obtain ⟨r, hr, -⟩ := h
    have hrow := List.mem_map_of_mem (f := JobRow.id) (Table.get?_some hr).1
    rw [show approvedStore.jobs.rows.map JobRow.id = [⟨1⟩] by decide, (Table.get?_some hr).2] at hrow
    exact List.mem_singleton.1 hrow
  rw [hid]
  decide

/-- Answers of a client that holds the complete torrent, or one that has lost it until it is
    added again. -/
def approvalReply (lost : Bool) : (c : Call) → ApprovalWorld Unit Unit →
    Option (Ans c × SqliteRepairStore)
  | .store c, w => some (w.store.answer w.now c)
  | .now, w => some (w.now, w.store)
  | .client (.status _), w => some (.ok
    (if lost && w.store.transitions.length ≤ 1 then none else some completeTorrent), w.store)
  | .client (.addPaused _), w | .client (.recheck _), w => some (.ok (), w.store)
  | .shuttingDown, w => some (false, w.store)
  | .publish _, w | .notify _, w | .recordTick _, w | .enterStep _, w => some ((), w.store)
  | _, _ => none

theorem approvalReply_replies {lost : Bool} {c : Call} {w : ApprovalWorld Unit Unit}
    {r : Ans c × SqliteRepairStore} (h : approvalReply lost c w = some r) :
    w.store.Replies w.now c r.1 r.2 := by
  cases c with
  | store c => cases h; exact .served
  | now => cases h; exact ⟨rfl, rfl⟩
  | client c => cases c <;> cases h <;> rfl
  | tracker c => cases h
  | library c => cases h
  | staging c => cases h
  | panic => cases h
  | _ => cases h; rfl

/-- The world after a worker's call was answered. -/
def afterReply {c : Call} (w : ApprovalWorld Unit Unit) (r : Ans c × SqliteRepairStore) :
    Ans c × ApprovalWorld Unit Unit :=
  (r.1, { w with
    store := r.2, desks := Function.update w.desks (.inl ()) ((w.desks (.inl ())).record c r.1) })

def approvalTick : M Unit := tick anyDeps ⟨"a", .fromSecs 60, 4⟩ >>= fun _ => pure ()

/-- The torrent of an approved job is lost, added and checked again, and then resumed without
    having been approved again. -/
theorem rewound_job_resumed : (∀ id, RowApproved approvedStore id →
      ApprovedSince approvedStore.transitions id) ∧
    ∃ s k, (approvals Unit Unit).Reach (.opening approvedStore 0) s ∧
      s.threads (.inl ()) = some (.call (.client (.resume sevens)) k) ∧
        ¬∃ job, (s.world.desks (.inl ())).current = some job ∧ job.infoHash = some sevens ∧
          ApprovedSince s.world.store.transitions job.id := by
  let h : (c : Call) → ApprovalWorld Unit Unit → Option (Ans c × ApprovalWorld Unit Unit) :=
    fun c w => (approvalReply true c w).map (afterReply w)
  obtain ⟨s, hs, hthread, hworld⟩ := System.reach_alone (approvals Unit Unit)
    (.opening approvedStore 0) (.inl ()) (h := h) (.tick anyDeps ⟨"a", .fromSecs 60, 4⟩ rfl)
    (fun c w r hr => by
      obtain ⟨a, ha, rfl⟩ := Option.map_eq_some_iff.1 hr
      exact ⟨w, .refl, _, approvalReply_replies ha, rfl⟩) 38
  obtain ⟨k, hk⟩ := resumes_some (by decide +kernel :
    resumes (System.drive h 38 approvalTick (.opening approvedStore 0)).1 = some sevens)
  refine ⟨approvedStore_standing, s, k, hs, hthread.trans (congrArg some hk), ?_⟩
  rintro ⟨job, hcurrent, -, hsince⟩
  rw [hworld] at hcurrent hsince
  have hid : ((System.drive h 38 approvalTick (.opening approvedStore 0)).2.desks (.inl ())).current.map
      RepairJob.id = some ⟨1⟩ := by decide +kernel
  have hnot : ¬ApprovedSince
      (System.drive h 38 approvalTick (.opening approvedStore 0)).2.store.transitions ⟨1⟩ := by
    decide +kernel
  have hjob : some ⟨1⟩ = some job.id :=
    hid.symm.trans (congrArg (Option.map RepairJob.id) hcurrent)
  rw [← Option.some.inj hjob] at hsince
  exact hnot hsince

/-- The same answers, to calls that disturb no job. -/
def quietReply : (c : Call) → ApprovalWorld Unit Unit → Option (Ans c × SqliteRepairStore)
  | .store (.apply ..), _ | .store (.setReviewResumePoint ..), _ => none
  | c, w => approvalReply false c w

theorem quietReply_undisturbed {c : Call} {w : ApprovalWorld Unit Unit}
    {r : Ans c × SqliteRepairStore} (h : quietReply c w = some r) :
    approvalReply false c w = some r ∧ w.Undisturbed (.inl ()) c := by
  cases c with
  | store c =>
    cases c with
    | apply id t u => cases h
    | setReviewResumePoint id state => cases h
    | _ => exact ⟨h, fun id hd => hd.elim⟩
  | _ => exact ⟨h, fun id hd => hd.elim⟩

/-- An approved job comes to be resumed. -/
theorem approved_job_resumed : ∃ s k,
    ((approvals Unit Unit).restrict ApprovalWorld.Undisturbed).Reach (.opening approvedStore 0) s ∧
      s.threads (.inl ()) = some (.call (.client (.resume sevens)) k) ∧
        ∃ job, (s.world.desks (.inl ())).current = some job ∧ job.infoHash = some sevens ∧
          ApprovedSince s.world.store.transitions job.id := by
  let h : (c : Call) → ApprovalWorld Unit Unit → Option (Ans c × ApprovalWorld Unit Unit) :=
    fun c w => (quietReply c w).map (afterReply w)
  obtain ⟨s, hs, hthread, -⟩ := System.reach_alone
    ((approvals Unit Unit).restrict ApprovalWorld.Undisturbed) (.opening approvedStore 0) (.inl ())
    (h := h) (.tick anyDeps ⟨"a", .fromSecs 60, 4⟩ rfl) (fun c w r hr => by
      obtain ⟨a, ha, rfl⟩ := Option.map_eq_some_iff.1 hr
      obtain ⟨hreply, hquiet⟩ := quietReply_undisturbed ha
      exact ⟨w, .refl, hquiet, _, approvalReply_replies hreply, rfl⟩) 7
  obtain ⟨k, hk⟩ := resumes_some (by decide +kernel :
    resumes (System.drive h 7 approvalTick (.opening approvedStore 0)).1 = some sevens)
  have hresume := hthread.trans (congrArg some hk)
  exact ⟨s, k, hs, hresume, resume_approved_since approvedStore_standing hs hresume⟩

end SeedMedic
