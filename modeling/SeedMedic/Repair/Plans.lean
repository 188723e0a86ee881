/-
  What the steps write of a job's torrent and plan, and of where and how it is staged.
-/
import SeedMedic.Repair.Calls

namespace SeedMedic

open Lib Prog

/-- A patch that leaves the torrent and the plan alone, and where and how it is staged. -/
structure JobPatch.Planless (patch : JobPatch) : Prop where
  infoHash : patch.infoHash = none
  stagingDir : patch.stagingDir = none
  materialization : patch.materialization = none
  files : patch.files = none

theorem planless_default : JobPatch.default.Planless := ⟨rfl, rfl, rfl, rfl⟩

/-- A patch that puts a job nowhere but into its own directory. -/
def JobPatch.Homed (patch : JobPatch) (id : JobId) : Prop :=
  ∀ dir, patch.stagingDir = some dir → dir = id.home

theorem JobPatch.Planless.homed {patch : JobPatch} (h : patch.Planless) (id : JobId) :
    patch.Homed id := by
  intro dir hdir
  rw [h.stagingDir] at hdir
  cases hdir

/-- What a step before injection concludes: only its success says anything of the plan. -/
structure Plans (id : JobId) (outcome : StepOutcome) : Prop where
  homed : outcome.patch.Homed id
  else_planless : (∀ detail patch, outcome ≠ .advance detail patch) → outcome.patch.Planless

theorem plans_of_planless {id : JobId} {outcome : StepOutcome} (h : outcome.patch.Planless) :
    Plans id outcome := ⟨h.homed id, fun _ => h⟩

/-- Plans of a step that succeeds. -/
theorem plans_advance {id : JobId} {detail : Option Json} {patch : JobPatch} (h : patch.Homed id) :
    Plans id (.advance detail patch) := ⟨h, fun hne => absurd rfl (hne _ _)⟩

section
variable {deps : RepairDeps} {job : RepairJob}

theorem fetchTorrent_plans : (fetchTorrent deps job).Returns (Plans job.id) := by
  have hacquired : ∀ bytes, Plans job.id (acquired deps job bytes) := by
    intro bytes
    unfold acquired
    split
    · exact plans_of_planless planless_default
    · exact plans_of_planless planless_default
    · exact plans_of_planless planless_default
    · split_ifs
      · exact plans_of_planless planless_default
      · exact plans_advance fun dir hdir => by cases hdir
  unfold fetchTorrent
  split_ifs
  · refine M.returns_tracker fun r => ?_
    split
    · exact hacquired _
    · exact plans_of_planless planless_default
    · exact plans_of_planless planless_default
  · exact plans_of_planless planless_default

theorem matchMedia_plans : (matchMedia deps job).Returns (Plans job.id) := by
  have houtcome : ∀ found plan report,
      (matchOutcome deps job found plan report).Returns (Plans job.id) := by
    intro found plan report
    refine (Returns.all _).bind fun detail _ => ?_
    split
    · exact plans_of_planless planless_default
    · refine plans_advance fun dir hdir => ?_
      cases hdir
      exact job.defaultStagingDir_eq
  refine M.returns_store fun r => ?_
  split
  · exact plans_of_planless planless_default
  · exact plans_of_planless planless_default
  · refine (Returns.all _).bind fun found _ => ?_
    split_ifs
    · exact plans_of_planless planless_default
    · exact plans_of_planless planless_default
    · exact (Returns.all _).bind fun _ _ => houtcome _ _ _

/-- A refused attempt to stage says nothing of the plan. -/
theorem stagingRefused_planless (preference : List MaterializationStrategy) (e : StagingError) :
    (stagingRefused preference e).patch.Planless := by
  cases e <;> exact planless_default

/-- The items of a plan are its files, below the directory it is staged in. -/
theorem stagingItems_ok {dir : SafeRelativePath} : ∀ {planned : List PlannedFile}
    {items : List PlanItem}, stagingItems dir planned = .ok items →
      items.map PlanItem.destination = planned.map fun f => f.torrentPath.under dir := by
  intro planned
  induction planned with
  | nil =>
    intro items h
    cases h
    rfl
  | cons f planned ih =>
    intro items h
    rw [stagingItems, List.mapM_cons] at h
    cases hs : f.source with
    | none =>
      rw [hs] at h
      cases h
    | some source =>
      rw [hs] at h
      cases hrest : stagingItems dir planned with
      | error e =>
        rw [stagingItems] at hrest
        rw [hrest] at h
        cases h
      | ok rest =>
        rw [stagingItems] at hrest
        rw [hrest] at h
        cases h
        exact congrArg _ (ih hrest)

/-! ## The steps after staging -/

theorem clientRefused_planless (e : ClientError) : (clientRefused e).patch.Planless := by
  cases e <;> exact planless_default

theorem fileProgressPatch_planless (status : TorrentStatus) : (fileProgressPatch status).Planless :=
  ⟨rfl, rfl, rfl, rfl⟩

theorem inject_planless : (inject deps job).Returns fun outcome => outcome.patch.Planless := by
  unfold inject
  split
  · refine M.returns_store fun r => ?_
    split
    · exact planless_default
    · exact planless_default
    · refine M.returns_client fun r => ?_
      split
      · exact clientRefused_planless _
      · exact M.returns_expect.bind fun path _ => planless_default
  · exact planless_default

theorem startRecheck_planless : (startRecheck job).Returns fun outcome => outcome.patch.Planless := by
  unfold startRecheck
  split
  · exact planless_default
  · refine M.returns_client fun r => ?_
    split
    · exact planless_default
    · exact clientRefused_planless _
    · refine M.returns_client fun r => ?_
      split
      · exact clientRefused_planless _
      · exact M.returns_now fun _ => M.returns_now fun _ => ⟨rfl, rfl, rfl, rfl⟩

theorem currentStatus_planless : (currentStatus deps job).Returns fun r =>
    ∀ outcome, r = .error outcome → outcome.patch.Planless := by
  have hchecking : ∀ status now, (stillChecking deps job status now).patch.Planless := by
    intro status now
    unfold stillChecking
    simp only
    split_ifs <;> exact planless_default
  unfold currentStatus
  split
  · intro outcome h
    cases h
    exact planless_default
  · refine M.returns_client fun r => ?_
    split
    · intro outcome h
      cases h
      exact clientRefused_planless _
    · intro outcome h
      cases h
      exact planless_default
    · split
      · refine M.returns_now fun now => ?_
        intro outcome h
        cases h
        exact hchecking _ _
      · intro outcome h
        cases h
        exact planless_default
      · intro outcome h
        cases h

theorem verify_planless : (verify deps job).Returns fun outcome => outcome.patch.Planless := by
  refine currentStatus_planless.bind fun r hr => ?_
  split
  · exact hr _ rfl
  · show (verdict _ _).patch.Planless
    unfold verdict
    split <;> exact fileProgressPatch_planless _

theorem resume_planless : (resume deps job).Returns fun outcome => outcome.patch.Planless := by
  refine currentStatus_planless.bind fun r hr => ?_
  split
  · exact hr _ rfl
  · split
    · exact fileProgressPatch_planless _
    · refine M.returns_expect.bind fun h _ => M.returns_client fun r => ?_
      split
      · exact fileProgressPatch_planless _
      · exact clientRefused_planless _

theorem checkClient_planless {h : InfoHash} : (checkClient deps job h).Returns fun r =>
    ∀ outcome, r = .error outcome → outcome.patch.Planless := by
  refine M.returns_client fun r => ?_
  split
  · intro outcome h
    cases h
    exact clientRefused_planless _
  · intro outcome h
    cases h
    exact planless_default
  · split
    · intro outcome h
      cases h
    · intro outcome h
      cases h
    · split
      · intro outcome h
        cases h
        exact fileProgressPatch_planless _
      · refine M.returns_client fun r => ?_
        split
        · intro outcome h
          cases h
        · intro outcome h
          cases h
          exact clientRefused_planless _
    · intro outcome h
      cases h
      exact fileProgressPatch_planless _
    · intro outcome h
      cases h
      exact planless_default

theorem confirmWithTracker_planless :
    (confirmWithTracker deps job).Returns fun outcome => outcome.patch.Planless := by
  have hnote : ∀ r outcome, trackerNote deps job r = .error outcome → outcome.patch.Planless := by
    intro r outcome h
    unfold trackerNote at h
    split at h
    · cases h
      exact planless_default
    · cases h
    · simp only at h
      split_ifs at h
      cases h
      exact planless_default
    · cases h
      exact planless_default
    · cases h
      exact planless_default
  unfold confirmWithTracker
  split_ifs
  · refine M.returns_tracker fun r => ?_
    split
    · rename_i h
      exact hnote _ _ h
    · split
      · exact planless_default
      · refine checkClient_planless.bind fun r hr => ?_
        split
        · exact hr _ rfl
        · refine M.returns_now fun now => ?_
          show (seedingPoll ..).patch.Planless
          unfold seedingPoll
          split_ifs <;> exact ⟨rfl, rfl, rfl, rfl⟩
  · exact planless_default

/-- Staging says nothing of the torrent, and stages the job where it is, or in its own directory. -/
theorem stageFiles_dir : (stageFiles deps job).Returns fun outcome =>
    outcome.patch.infoHash = none ∧ ∀ dir, outcome.patch.stagingDir = some dir →
      dir = job.stagingDir.getD job.defaultStagingDir := by
  have hplanless : ∀ {outcome : StepOutcome}, outcome.patch.Planless →
      outcome.patch.infoHash = none ∧ ∀ dir, outcome.patch.stagingDir = some dir →
        dir = job.stagingDir.getD job.defaultStagingDir := fun h =>
    ⟨h.infoHash, fun dir hdir => by rw [h.stagingDir] at hdir; cases hdir⟩
  refine M.returns_store fun r => ?_
  split
  · exact hplanless planless_default
  · split
    · exact hplanless planless_default
    · simp only
      split_ifs
      · exact hplanless planless_default
      · refine M.returns_staging fun r => ?_
        split
        · exact hplanless (stagingRefused_planless _ _)
        · exact ⟨rfl, fun dir hdir => (Option.some.inj hdir).symm⟩

/-- A match says nothing of the torrent. -/
theorem matchMedia_hashless :
    (matchMedia deps job).Returns fun outcome => outcome.patch.infoHash = none := by
  have houtcome : ∀ found plan report, (matchOutcome deps job found plan report).Returns
      fun outcome => outcome.patch.infoHash = none := by
    intro found plan report
    refine (Returns.all _).bind fun detail _ => ?_
    split <;> rfl
  refine M.returns_store fun r => ?_
  split
  · rfl
  · rfl
  · refine (Returns.all _).bind fun found _ => ?_
    split_ifs
    · rfl
    · rfl
    · exact (Returns.all _).bind fun _ _ => houtcome _ _ _

end

end SeedMedic
