/-
  The worker: claiming jobs and driving each as far as it goes (`repair/worker.rs`).
-/
import SeedMedic.Repair.Steps

namespace SeedMedic

open Lib

structure WorkerConfig where
  /-- Identifies this instance's leases. -/
  owner : String
  lease : Duration
  batchSize : ℤ

structure TickSummary where
  claimed : ℕ
  advanced : ℕ
  parked : ℕ
  waiting : ℕ
  retrying : ℕ
  rewound : ℕ

def TickSummary.default : TickSummary := ⟨0, 0, 0, 0, 0, 0⟩

/-- How to leave a job when the worker stops touching it. -/
structure Stop where
  retryAt : Option Time
  countAttempt : Bool

/-- Release the lease and leave the job due immediately. -/
def Stop.idle : Stop := ⟨none, false⟩

/-- Where a drive goes after a step: on with a job, or out, with the way to leave the job
    where the lease is still held. -/
inductive Control where
  | next (job : RepairJob)
  | leave (stop : Option Stop)

/-- A span as the clock's arithmetic takes it. -/
def chronoDuration (d : Duration) : Duration := (chronoFromStd d).getD (.fromSecs 60)

/-- A jitter source mixed from the clock and the job. -/
def jitterSeed (now : Time) (id : JobId) (attempts : ℕ) : ℕ :=
  let nanos := if now ≤ i64Max then now else 0
  wadd (wmul (wadd (wmul nanos 0x9E3779B97F4A7C15) id.val.toUInt64.toNat) 0xBF58476D1CE4E5B9) attempts

/-- The next value of a 32-bit counter. -/
def succAttempts (attempts : ℕ) : ℕ := (attempts + 1) % 2 ^ 32

def retryDelayFor (deps : RepairDeps) (job : RepairJob) (attempts : ℕ) : M Duration := do
  let now ← M.now
  pure (retryDelayWithJitter attempts deps.policy (jitterSeed now job.id attempts))

/-- Renew the lease on a job; tells whether it is still held. -/
def renewLease (config : WorkerConfig) (id : JobId) : M Bool := do
  match ← M.store (.renewLease id config.owner config.lease) with
  | .ok held => pure held
  -- unknown, not lost
  | .error _ => pure true

def reload (id : JobId) : M (Option RepairJob) := do
  match ← M.store (.job id) with
  | .ok job => pure job
  | .error _ => pure none

def stopForRetry (deps : RepairDeps) (job : RepairJob) (attempts : ℕ) : M Stop := do
  let now ← M.now
  let delay ← retryDelayFor deps job attempts
  pure ⟨some (now + chronoDuration delay), true⟩

def release (id : JobId) (stop : Stop) : M Unit := do
  -- an error is only logged
  let _ ← M.store (.release id stop.retryAt stop.countAttempt)

def park (job : RepairJob) (reason : ReviewReason) (detail : Option Json) (patch : JobPatch) :
    M Unit :=
  match job.planTransition .awaitingReview (.review reason) with
  | .error _ => pure ()
  | .ok transition => do
    match ← M.store (.apply job.id transition ⟨detail, none, patch⟩) with
    | .error _ => pure ()
    | .ok _ =>
      M.publish (.jobTransitioned job.id job.state .awaitingReview "review")
      M.notify (.parkedForReview job.id job.tracker.str job.torrentName reason.asStr)

/-- What follows the write of a step that advanced. -/
def recordAdvance (job : RepairJob) (transition : Transition) : M Unit := do
  if transition.toState = .completed then
    M.notify (.completed job.id job.tracker.str job.torrentName)
  M.publish (.jobTransitioned job.id transition.fromState transition.toState "progress")

/-- Renew after a step, and go on with the job as it is now. -/
def proceed (config : WorkerConfig) (id : JobId) : M Control := do
  if ← renewLease config id then
    match ← reload id with
    | some next => pure (if next.state.isActionable then .next next else .leave (some .idle))
    | none => pure (.leave (some .idle))
  else pure (.leave none)

/-- A step that advanced. -/
def settleAdvance (deps : RepairDeps) (config : WorkerConfig) (job : RepairJob)
    (summary : TickSummary) (detail : Option Json) (patch : JobPatch) :
    M (TickSummary × Control) :=
  match job.advance with
  | .error _ => pure (summary, .leave (some .idle))
  | .ok transition => do
    match ← M.store (.apply job.id transition ⟨detail, none, patch⟩) with
    | .ok .applied => do
      recordAdvance job transition
      let control ← proceed config job.id
      pure ({ summary with advanced := summary.advanced + 1 }, control)
    | .ok .alreadyInTargetState => do
      let control ← proceed config job.id
      pure (summary, control)
    | .error (.conflict ..) => pure (summary, .leave (some .idle))
    | .error _ => do
      let stop ← stopForRetry deps job (succAttempts job.attempts)
      pure (summary, .leave (some stop))

/-- A step that found reality behind the job. -/
def settleRewind (job : RepairJob) (target : RepairState) (note : String) : M Control :=
  match job.planTransition target .reconciliation with
  | .error _ => pure (.leave (some .idle))
  | .ok transition => do
    match ← M.store (.apply job.id transition (.withDetail
        (.obj [("note", .str note), ("from", .str job.state.asStr)]))) with
    | .error _ => pure (.leave (some .idle))
    | .ok _ => do
      M.publish (.jobTransitioned job.id transition.fromState transition.toState "reconciliation")
      match ← reload job.id with
      | some next => pure (.next next)
      | none => pure (.leave (some .idle))

/-- A step that has to be taken again later. -/
def settleWait (job : RepairJob) (after : Duration) (patch : JobPatch) : M Stop := do
  if patch ≠ .default then
    match ← M.store (.recordProgress job.id patch) with
    | .error _ => pure ()
    | .ok () => M.publish (.jobProgress job.id)
  let now ← M.now
  pure ⟨some (now + chronoDuration after), false⟩

/-- A step that failed in a way that may pass. -/
def settleRetry (deps : RepairDeps) (job : RepairJob) (summary : TickSummary) (error : String) :
    M (TickSummary × Control) := do
  let summary := { summary with retrying := summary.retrying + 1 }
  let attempts := succAttempts job.attempts
  if deps.policy.maxAttempts ≤ attempts then
    park job .retryBudgetExhausted
      (some (.obj [("attempts", .ofNat attempts), ("error", .str error)])) .default
    pure (summary, .leave (some .idle))
  else
    let stop ← stopForRetry deps job attempts
    pure (summary, .leave (some stop))

/-- Carry out what a step concluded. -/
def settle (deps : RepairDeps) (config : WorkerConfig) (job : RepairJob) (summary : TickSummary) :
    StepOutcome → M (TickSummary × Control)
  | .advance detail patch => settleAdvance deps config job summary detail patch
  | .rewind target note => do
    let control ← settleRewind job target note
    pure ({ summary with rewound := summary.rewound + 1 }, control)
  | .review reason detail patch => do
    park job reason detail patch
    pure ({ summary with parked := summary.parked + 1 }, .leave (some .idle))
  | .wait after _ patch => do
    let stop ← settleWait job after patch
    pure ({ summary with waiting := summary.waiting + 1 }, .leave (some stop))
  | .retry error => settleRetry deps job summary error

/-- One round of a drive: the step, and what it concluded carried out. -/
def driveRound (deps : RepairDeps) (config : WorkerConfig) (job : RepairJob)
    (summary : TickSummary) : M (TickSummary × Control) := do
  M.enterStep job
  let outcome ← step deps job
  settle deps config job summary outcome

/-- The most steps one drive takes. -/
def driveBound : ℕ := RepairState.PROGRESSION.length * 2

/-- Step a job while it keeps moving, `bound` times at most. -/
def driveLoop (deps : RepairDeps) (config : WorkerConfig) :
    ℕ → RepairJob → TickSummary → M (TickSummary × Option Stop)
  | 0, _, summary => pure (summary, some .idle)
  | bound + 1, job, summary => do
    if ← M.shuttingDown then pure (summary, some .idle)
    else do
      match ← driveRound deps config job summary with
      | (summary, .next job) => driveLoop deps config bound job summary
      | (summary, .leave stop) => pure (summary, stop)

/-- Drive one job, and release it unless its lease is lost. -/
def drive (deps : RepairDeps) (config : WorkerConfig) (job : RepairJob) (summary : TickSummary) :
    M TickSummary := do
  let (summary, stop) ← driveLoop deps config driveBound job summary
  match stop with
  | some stop => do
    release job.id stop
    pure summary
  | none => pure summary

/-- Drive the jobs of a claim, one after the other. -/
def driveAll (deps : RepairDeps) (config : WorkerConfig) :
    List RepairJob → TickSummary → M TickSummary
  | [], summary => pure summary
  | job :: jobs, summary => do
    if ← M.shuttingDown then pure summary
    else do
      let summary ← drive deps config job summary
      driveAll deps config jobs summary

/-- The outcome of a tick, for the feed. -/
def tickActivity (summary : TickSummary) (now : Time) : Activity :=
  { Activity.default with
    kind := .tick
    time := some now
    claimed := summary.claimed
    advanced := summary.advanced
    parked := summary.parked
    retrying := summary.retrying
    rewound := summary.rewound }

/-- Claim what is due and drive each job as far as it goes. -/
def tick (deps : RepairDeps) (config : WorkerConfig) : M TickSummary := do
  let now ← M.now
  M.recordTick now
  match ← M.store (.claim config.owner config.lease config.batchSize) with
  | .error _ => pure .default
  | .ok claimed => do
    let summary ← driveAll deps config claimed { TickSummary.default with claimed := claimed.length }
    let now ← M.now
    M.publish (.activity (tickActivity summary now))
    pure summary

/-- One turn of the worker's loop: a tick, unless it is told to stop. -/
def turn (deps : RepairDeps) (config : WorkerConfig) : M Unit := do
  if ← M.shuttingDown then pure ()
  else do
    let _ ← tick deps config

end SeedMedic
