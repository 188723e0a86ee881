/-
  Startup reconciliation: walking jobs back to what reality supports
  (`repair/reconcile.rs`).
-/
import SeedMedic.Repair.Steps

namespace SeedMedic

open Lib

structure ReconcileSummary where
  leasesCleared : ℕ
  jobsExamined : ℕ
  jobsRewound : ℕ
  parkedExamined : ℕ
  parkedCorrected : ℕ

def ReconcileSummary.default : ReconcileSummary := ⟨0, 0, 0, 0, 0⟩

/-- The rank of a state; those beside the lifecycle come last. -/
def reconcileRank (s : RepairState) : ℕ := s.rank.getD (wordSize - 1)

def earliest (left right : RepairState) : RepairState :=
  if reconcileRank left ≤ reconcileRank right then left else right

/-- What an inspection looks at: only destinations and lengths matter. -/
def inspectionItems (dir : SafeRelativePath) (files : List PlannedFile) : List PlanItem :=
  files.map fun f => ⟨f.source.getD ⟨[]⟩, f.torrentPath.under dir, f.length, f.materializedAs⟩

def stagingPlan (job : RepairJob) : M (Option MaterializationPlan) :=
  match job.stagingDir with
  | none => pure none
  | some dir => do
    match ← M.store (.plannedFiles job.id) with
    | .error _ => pure none
    | .ok [] => pure none
    | .ok files => pure (some ⟨inspectionItems dir files⟩)

/-- Past injection: does the client still have it? -/
def clientBackedTarget (job : RepairJob) (starting : RepairState) : M RepairState :=
  if reconcileRank .injected ≤ reconcileRank starting then
    match job.infoHash with
    | none => pure starting
    | some infoHash => do
      match ← M.client (.status infoHash) with
      | .ok none => pure (earliest starting .staged)
      -- an error tells nothing, and guessing would be the unsafe direction
      | .ok (some _) | .error _ => pure starting
  else pure starting

/-- Past staging: is the data still on disk? -/
def stagingBackedTarget (job : RepairJob) (starting target : RepairState) : M RepairState :=
  if reconcileRank .staged ≤ reconcileRank starting then do
    match ← stagingPlan job with
    | none => pure target
    | some plan =>
      match ← M.staging (.inspect plan) with
      | .ok .complete | .error _ => pure target
      | .ok _ => pure (earliest target .matched)
  else pure target

/-- Where reality supports resuming from `starting`. -/
def realityBackedTarget (job : RepairJob) (starting : RepairState) : M RepairState := do
  let target ← clientBackedTarget job starting
  stagingBackedTarget job starting target

/-- Walk one unfinished job back; tells whether it moved. -/
def reconcileActionableJob (job : RepairJob) : M Bool := do
  let target ← realityBackedTarget job job.state
  if target = job.state then pure false
  else
    match job.planTransition target .reconciliation with
    | .error _ => pure false
    | .ok transition =>
      match ← M.store (.apply job.id transition (.withDetail (.obj
          [("reason", .str "external state was behind the persisted state"),
            ("from", .str job.state.asStr), ("to", .str target.asStr)]))) with
      | .ok _ => pure true
      | .error _ => pure false

/-- Walk the resume point of one parked job back; tells whether it moved. -/
def reconcileParkedJob (job : RepairJob) : M Bool :=
  match job.reviewFromState with
  | none => pure false
  | some starting => do
    let target ← realityBackedTarget job starting
    if target = starting then pure false
    else
      match ← M.store (.setReviewResumePoint job.id target) with
      | .ok () => pure true
      | .error _ => pure false

/-- How many jobs of a list an action moved. -/
def countMoved (action : RepairJob → M Bool) : List RepairJob → M ℕ
  | [] => pure 0
  | job :: jobs => do
    let moved ← action job
    let rest ← countMoved action jobs
    pure ((if moved then 1 else 0) + rest)

/-- The parked jobs; none when they cannot be listed. -/
def listParked : M (List RepairJob) := do
  match ← M.store .parked with
  | .ok jobs => pure jobs
  | .error _ => pure []

/-- Reconcile every job, once stale leases are dropped. -/
def reconcileAfter (leasesCleared : ℕ) : M ReconcileSummary := do
  match ← M.store .unfinished with
  | .error _ => pure { ReconcileSummary.default with leasesCleared }
  | .ok jobs =>
    let jobsRewound ← countMoved reconcileActionableJob jobs
    -- the worker would find a wrong resume point only after the retry
    let parked ← listParked
    let parkedCorrected ← countMoved reconcileParkedJob parked
    let now ← M.now
    M.publish (.activity { Activity.default with
      kind := .reconcile, time := some now, rewound := jobsRewound })
    pure ⟨leasesCleared, jobs.length, jobsRewound, parked.length, parkedCorrected⟩

/-- Reconcile every job before the worker starts. -/
def reconcileOnStartup (owner : String) : M ReconcileSummary := do
  match ← M.store (.clearStaleLeases owner) with
  | .ok cleared => reconcileAfter cleared
  | .error _ => reconcileAfter 0

end SeedMedic
