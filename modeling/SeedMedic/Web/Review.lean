/-
  The operator's review actions (`web/review.rs`, `web/jobs.rs`).
-/
import SeedMedic.Repair.Effects

namespace SeedMedic

open Lib

inductive WebError where
  | notFound
  | refused (text : String)
  | store (error : StoreError)

/-- The candidates recorded for a file by the last parking. -/
def ambiguousCandidates (history : List TransitionRecord) (torrentPath : String) :
    List CandidateSummary :=
  let detail := (history.reverse.find? fun r => r.reason = "review").bind (·.detail)
  let unmatched := (detail.bind (·.get "unmatched")).bind Json.asArray
  let entry := unmatched.bind fun es =>
    es.find? fun e => (e.get "path").bind Json.asStr = some torrentPath
  match (entry.bind (·.get "reason")).bind UnmatchedReason.ofJson with
  | some (.ambiguous candidates) => candidates
  | some .noCandidate | none => []

/-- Load a job for an action, or end with the error its absence calls for. -/
def withJob (id : JobId) (action : RepairJob → M (Except WebError Unit)) :
    M (Except WebError Unit) := do
  match ← M.store (.job id) with
  | .error e => pure (.error (.store e))
  | .ok none => pure (.error .notFound)
  | .ok (some job) => action job

/-- One validated transition on an operator's behalf. -/
def applyAction (job : RepairJob) (target : RepairState) (reason : TransitionReason)
    (update : TransitionUpdate) : M (Except WebError Unit) :=
  match job.planTransition target reason with
  | .error e =>
    pure (.error (.refused
      (e.toText ++ ". The job may have moved since this page was loaded.")))
  | .ok transition => do
    match ← M.store (.apply job.id transition update) with
    | .error e => pure (.error (.store e))
    | .ok _ =>
      M.publish (.jobTransitioned job.id job.state target reason.asStr)
      pure (.ok ())

/-- The audit form of an operator action. -/
def operatorJson (action : String) (fields : List (String × Json)) : Json :=
  .obj (("operator", .str action) :: fields)

def retryAction (id : JobId) : M (Except WebError Unit) :=
  withJob id fun job =>
    match job.reviewFromState with
    | none => pure (.error (.refused ("This job does not record which step it stopped at, " ++
        "so it cannot be retried. Start it over instead.")))
    | some resumeTo =>
      applyAction job resumeTo .operatorRetry
        (.withDetail (operatorJson "retry" [("resumed_at", .str resumeTo.asStr)]))

/-- Approve a resume held back only because nothing resumes by itself. -/
def approveResumeAction (id : JobId) : M (Except WebError Unit) :=
  withJob id fun job =>
    match job.reviewFromState with
    | none => pure (.error (.refused ("This job does not record which step it stopped at, " ++
        "so the resume cannot be approved.")))
    | some resumeTo =>
      if job.reviewReason ≠ some .autoResumeDisabled then
        pure (.error (.refused ("This job is not parked only because auto-resume is disabled, " ++
          "so there is nothing to approve.")))
      else
        applyAction job resumeTo .operatorRetry
          ((TransitionUpdate.withDetail
            (operatorJson "approve_resume" [("resumed_at", .str resumeTo.asStr)])).withPatch
              { JobPatch.default with resumeApproved := some true })

/-- Whether a choice was the last one needed. -/
structure Chosen where
  resolved : Bool
  deriving DecidableEq

/-- A planned file with the candidate the operator chose for it. -/
def choose (chosen : CandidateSummary) (candidates : ℕ) (file : PlannedFile) : PlannedFile :=
  { file with
    source := some chosen.path
    confidence := some .operator
    evidence := some ⟨true, false, candidates, false⟩ }

/-- The plan with a choice made for the first file of a path; none when there is no such file. -/
def chooseIn (path : SafeRelativePath) (chosen : CandidateSummary) (candidates : ℕ)
    (files : List PlannedFile) : Option (List PlannedFile) :=
  (files.findIdx? fun f => f.torrentPath = path).map fun i =>
    files.modify i (choose chosen candidates)

/-- Keep a plan with a new choice: as it is while other files still need one, and with the
    move to the matched state after the last. -/
def finishChoice (job : RepairJob) (detail : Json) (files : List PlannedFile) :
    M (Except WebError Chosen) := do
  if files.any fun f => f.source.isNone then
    match ← M.store (.recordProgress job.id { JobPatch.default with files := some files }) with
    | .error e => pure (.error (.store e))
    | .ok () =>
      M.publish (.jobProgress job.id)
      pure (.ok ⟨false⟩)
  else
    match ← applyAction job .matched .operatorChooseCandidate
        ((TransitionUpdate.withDetail detail).withPatch { JobPatch.default with
          stagingDir := some job.defaultStagingDir
          files := some files }) with
    | .error e => pure (.error e)
    | .ok () => pure (.ok ⟨true⟩)

/-- Resolve one file matching could not decide on, from the candidates it recorded. -/
def chooseCandidateAction (id : JobId) (submittedPath : String) (candidateIndex : ℕ) :
    M (Except WebError Chosen) := do
  match ← M.store (.job id) with
  | .error e => pure (.error (.store e))
  | .ok none => pure (.error .notFound)
  | .ok (some job) =>
    match SafeRelativePath.parse submittedPath with
    | .error e => pure (.error (.refused ("not a valid torrent path: " ++ e.toText)))
    | .ok path =>
      match ← M.store (.history job.id) with
      | .error e => pure (.error (.store e))
      | .ok history =>
        let candidates := ambiguousCandidates history path.asStr
        match candidates[candidateIndex]? with
        | none => pure (.error (.refused ("That candidate is no longer on offer for this file. " ++
            "The job may have moved since this page was loaded.")))
        | some chosen =>
          match ← M.store (.plannedFiles job.id) with
          | .error e => pure (.error (.store e))
          | .ok planned =>
            match chooseIn path chosen candidates.length planned with
            | none => pure (.error (.refused "This job has no such file in its plan."))
            | some files =>
              let chosenJson ← M.expect chosen.toJson
              let detail := operatorJson "choose_candidate"
                [("torrent_path", .str path.asStr), ("chosen", chosenJson)]
              finishChoice job detail files

def abandonAction (id : JobId) : M (Except WebError Unit) :=
  withJob id fun job =>
    applyAction job .failed .operatorAbandon
      ((TransitionUpdate.withDetail (operatorJson "abandon" [])).failedBecause
        "abandoned by operator")

/-- Take a job's torrent out of the client, whatever comes of it, then delete what it staged;
    the text of the refusal when that fails. -/
def discardStaged (job : RepairJob) : M (Except WebError Unit) := do
  match job.infoHash with
  | none => pure ()
  | some infoHash =>
    -- an error is only logged
    let _ ← M.client (.remove infoHash false)
  match job.stagingDir with
  | none => pure (.ok ())
  | some dir =>
    match ← M.staging (.discard dir) with
    | .ok () => pure (.ok ())
    | .error e => pure (.error (.refused
        ("Could not clear the staging directory, so the job was left alone: " ++ e.toText)))

/-- Discard what a job staged, then move it. -/
def discardThen (job : RepairJob) (target : RepairState) (reason : TransitionReason)
    (update : TransitionUpdate) : M (Except WebError Unit) := do
  match ← discardStaged job with
  | .error e => pure (.error e)
  | .ok () => applyAction job target reason update

/-- Abandon a job and reclaim what it staged. -/
def abandonAndDiscardAction (id : JobId) : M (Except WebError Unit) :=
  withJob id fun job =>
    discardThen job .failed .operatorAbandon
      ((TransitionUpdate.withDetail
        (operatorJson "abandon" [("staging_discarded", .bool true)])).failedBecause
          "abandoned by operator, staging discarded")

/-- Send a job back to the beginning. -/
def restartAction (id : JobId) : M (Except WebError Unit) :=
  withJob id fun job =>
    discardThen job .discovered .operatorRestart
      (.withDetail (operatorJson "restart" [("staging_discarded", .bool true)]))

end SeedMedic
