/-
  Which calls the operator's actions make.
-/
import SeedMedic.Repair.Calls
import SeedMedic.Web.Review

namespace SeedMedic

open Lib Prog

/-- What an operator may set going on a job. -/
inductive OperatorProgram (id : JobId) : M Unit → Prop
  | retry : OperatorProgram id (retryAction id >>= fun _ => pure ())
  | approveResume : OperatorProgram id (approveResumeAction id >>= fun _ => pure ())
  | chooseCandidate (path : String) (index : ℕ) :
    OperatorProgram id (chooseCandidateAction id path index >>= fun _ => pure ())
  | abandon : OperatorProgram id (abandonAction id >>= fun _ => pure ())
  | abandonAndDiscard : OperatorProgram id (abandonAndDiscardAction id >>= fun _ => pure ())
  | restart : OperatorProgram id (restartAction id >>= fun _ => pure ())

/-- A call of an operator's action. -/
def OperatorCall : Call → Prop
  | .store (.job _) | .store (.history _) | .store (.plannedFiles _) => True
  | .store (.apply ..) | .store (.recordProgress ..) => True
  | .client (.remove ..) | .staging (.discard _) | .publish _ | .panic => True
  | _ => False

section
variable {id : JobId} {job : RepairJob}

theorem withJob_only {P : Call → Prop} {action : RepairJob → M (Except WebError Unit)}
    (hjob : P (.store (.job id))) (h : ∀ job, (action job).Only P) : (withJob id action).Only P := by
  refine M.only_store hjob fun r => ?_
  split
  · trivial
  · trivial
  · exact h _

/-- An action writes the transition planned for it and tells of it. -/
theorem applyAction_only {P : Call → Prop} {target : RepairState} {reason : TransitionReason}
    {u : TransitionUpdate}
    (happly : ∀ t : Transition, t.reason = reason → P (.store (.apply job.id t u)))
    (hpublish : ∀ e, P (.publish e)) : (applyAction job target reason u).Only P := by
  unfold applyAction
  split
  · trivial
  · rename_i t ht
    refine M.only_store (happly t (validateTransition_ok ht).2.2.1) fun r => ?_
    split
    · trivial
    · exact ⟨hpublish _, fun _ => trivial⟩

/-- Discarding only removes the job's torrent and clears its staging directory. -/
theorem discardStaged_only {P : Call → Prop}
    (hremove : ∀ h, job.infoHash = some h → P (.client (.remove h false)))
    (hdiscard : ∀ dir, job.stagingDir = some dir → P (.staging (.discard dir))) :
    (discardStaged job).Only P := by
  unfold discardStaged
  cases hh : job.infoHash <;> cases hd : job.stagingDir
  · trivial
  · refine M.only_staging (hdiscard _ hd) fun r => ?_
    cases r <;> trivial
  · exact ⟨hremove _ hh, fun _ => trivial⟩
  · refine ⟨hremove _ hh, fun _ => M.only_staging (hdiscard _ hd) fun r => ?_⟩
    cases r <;> trivial

/-- A patch of the plan of a job, staged in the job's own directory, and nothing else. -/
def JobPatch.PlanOnly (patch : JobPatch) (id : JobId) : Prop := ∃ stagingDir files,
  patch = { JobPatch.default with stagingDir, files } ∧ ∀ dir, stagingDir = some dir → dir = id.home

theorem planOnly_default (id : JobId) : JobPatch.default.PlanOnly id := ⟨none, none, rfl, by nofun⟩

/-- What operators call where they discard nothing, and neither retry nor approve. -/
structure AllowsReviews (P : Call → Prop) : Prop where
  job : ∀ id, P (.store (.job id))
  history : ∀ id, P (.store (.history id))
  plannedFiles : ∀ id, P (.store (.plannedFiles id))
  recordProgress : ∀ id files,
    P (.store (.recordProgress id { JobPatch.default with files := some files }))
  apply : ∀ id t u, t.reason = .operatorChooseCandidate ∨ t.reason = .operatorAbandon ∨
    t.reason = .operatorRestart → u.patch.PlanOnly id → P (.store (.apply id t u))
  publish : ∀ e, P (.publish e)
  panic : P .panic

/-- What operators call where they neither retry nor approve. -/
structure AllowsOperators (P : Call → Prop) : Prop extends AllowsReviews P where
  remove : ∀ h, P (.client (.remove h false))
  discard : ∀ dir, P (.staging (.discard dir))

theorem AllowsReviews.mono {P P' : Call → Prop} (h : AllowsReviews P) (hP : ∀ c, P c → P' c) :
    AllowsReviews P' where
  job id := hP _ (h.job id)
  history id := hP _ (h.history id)
  plannedFiles id := hP _ (h.plannedFiles id)
  recordProgress id files := hP _ (h.recordProgress id files)
  apply id t u hr hu := hP _ (h.apply id t u hr hu)
  publish e := hP _ (h.publish e)
  panic := hP _ h.panic

theorem allows_operatorCall : AllowsOperators OperatorCall where
  job _ := trivial
  history _ := trivial
  plannedFiles _ := trivial
  recordProgress _ _ := trivial
  apply _ _ _ _ _ := trivial
  remove _ := trivial
  discard _ := trivial
  publish _ := trivial
  panic := trivial

section
variable {P : Call → Prop}

theorem abandonAction_only (h : AllowsReviews P) : (abandonAction id).Only P :=
  withJob_only (h.job id) fun _ => applyAction_only
    (fun _ hr => h.apply _ _ _ (.inr (.inl hr)) (planOnly_default _)) h.publish

/-- Discarding a job and moving it reaches only for its own torrent and directory. -/
theorem discardThen_own (h : AllowsReviews P)
    (hremove : ∀ h, job.infoHash = some h → P (.client (.remove h false)))
    (hdiscard : ∀ dir, job.stagingDir = some dir → P (.staging (.discard dir)))
    {target : RepairState} {reason : TransitionReason} {u : TransitionUpdate}
    (hreason : reason = .operatorAbandon ∨ reason = .operatorRestart) (hu : u.patch.PlanOnly job.id) :
    (discardThen job target reason u).Only P := by
  refine (discardStaged_only hremove hdiscard).bind fun r => ?_
  split
  · trivial
  · exact applyAction_only (fun t ht => h.apply _ t u (.inr (by rw [ht]; exact hreason)) hu) h.publish

theorem discardThen_only (h : AllowsOperators P) {target : RepairState} {reason : TransitionReason}
    {u : TransitionUpdate} (hreason : reason = .operatorAbandon ∨ reason = .operatorRestart)
    (hu : u.patch.PlanOnly job.id) : (discardThen job target reason u).Only P :=
  discardThen_own h.toAllowsReviews (fun _ _ => h.remove _) (fun _ _ => h.discard _) hreason hu

theorem finishChoice_only (h : AllowsReviews P) {detail : Json} {files : List PlannedFile} :
    (finishChoice job detail files).Only P := by
  unfold finishChoice
  split_ifs
  · refine M.only_store (h.recordProgress _ _) fun r => ?_
    split
    · trivial
    · exact ⟨h.publish _, fun _ => trivial⟩
  · have hplan : JobPatch.PlanOnly { JobPatch.default with
        stagingDir := some job.defaultStagingDir, files := some files } job.id :=
      ⟨_, _, rfl, fun dir hdir => (Option.some.inj hdir).symm.trans job.defaultStagingDir_eq⟩
    refine Only.bind (applyAction_only (fun t ht => h.apply _ t _ (.inl ht) hplan) h.publish)
      fun r => ?_
    split <;> trivial

theorem chooseCandidateAction_only (h : AllowsReviews P) {path : String} {index : ℕ} :
    (chooseCandidateAction id path index).Only P := by
  refine M.only_store (h.job id) fun r => ?_
  split
  · trivial
  · trivial
  · split
    · trivial
    · refine M.only_store (h.history _) fun r => ?_
      split
      · trivial
      · simp only
        split
        · trivial
        · refine M.only_store (h.plannedFiles _) fun r => ?_
          split
          · trivial
          · split
            · trivial
            · exact (M.only_expect _ h.panic).bind fun _ => finishChoice_only h

end

/-- What a retry writes. -/
def AllowsRetries (P : Call → Prop) : Prop := ∀ id (t : Transition) (u : TransitionUpdate),
  t.reason = .operatorRetry → (∃ resumeApproved, u.patch = { JobPatch.default with resumeApproved }) →
    P (.store (.apply id t u))

theorem retryAction_only {P : Call → Prop} (h : AllowsReviews P) (hretry : AllowsRetries P) :
    (retryAction id).Only P := by
  refine withJob_only (h.job id) fun job => ?_
  split
  · trivial
  · exact applyAction_only (fun t ht => hretry _ t _ ht ⟨_, rfl⟩) h.publish

theorem approveResumeAction_only {P : Call → Prop} (h : AllowsReviews P) (hretry : AllowsRetries P) :
    (approveResumeAction id).Only P := by
  refine withJob_only (h.job id) fun job => ?_
  split
  · trivial
  · split_ifs
    · trivial
    · exact applyAction_only (fun t ht => hretry _ t _ ht ⟨_, rfl⟩) h.publish

/-- Every program of an operator makes only calls that operators may make, and retries. -/
theorem OperatorProgram.only {P : Call → Prop} {p : M Unit} (hp : OperatorProgram id p)
    (h : AllowsOperators P) (hretry : AllowsRetries P) : p.Only P := by
  cases hp with
  | retry => exact (retryAction_only h.toAllowsReviews hretry).bind fun _ => trivial
  | approveResume => exact (approveResumeAction_only h.toAllowsReviews hretry).bind fun _ => trivial
  | chooseCandidate path index =>
    exact (chooseCandidateAction_only h.toAllowsReviews).bind fun _ => trivial
  | abandon => exact (abandonAction_only h.toAllowsReviews).bind fun _ => trivial
  | abandonAndDiscard =>
    exact (withJob_only (h.job id) fun _ =>
      discardThen_only h (.inl rfl) (planOnly_default _)).bind fun _ => trivial
  | restart =>
    exact (withJob_only (h.job id) fun _ =>
      discardThen_only h (.inr rfl) (planOnly_default _)).bind fun _ => trivial

/-- Operators touch the client and the staging area only to discard, and start no step. -/
theorem OperatorProgram.operates {p : M Unit} (h : OperatorProgram id p) : p.Only OperatorCall :=
  h.only allows_operatorCall fun _ _ _ _ _ => trivial

end

end SeedMedic
