/-
  One step for each state of the lifecycle (`repair/application`).
-/
import SeedMedic.Repair.Effects

namespace SeedMedic

open Lib

/-- What a step concluded. -/
inductive StepOutcome where
  | advance (detail : Option Json) (patch : JobPatch)
  | review (reason : ReviewReason) (detail : Option Json) (patch : JobPatch)
  /-- Reality is behind the persisted state. -/
  | rewind (target : RepairState) (note : String)
  | wait (after : Duration) (note : String) (patch : JobPatch)
  | retry (error : String)

namespace StepOutcome

def advanceWith (detail : Json) (patch : JobPatch) : StepOutcome := advance (some detail) patch

def hold (reason : ReviewReason) (detail : Json) : StepOutcome := review reason (some detail) .default

/-- An adapter that is not built yet. -/
def stub (n : NotImplemented) : StepOutcome :=
  hold .adapterNotImplemented (.obj [("adapter", .str n.adapter), ("todo", .str n.todo)])

end StepOutcome

/-- The audit form of an error text. -/
def errorJson (text : String) : Json := .obj [("error", .str text)]

/-! ## `acquire.rs` -/

/-- The plan a fetched torrent opens with: its files, in its order, without sources. -/
def fetchedFiles (metadata : TorrentMetadata) : List PlannedFile :=
  metadata.files.map fun file => ⟨file.path, file.length, none, none, none, none, none⟩

def fetchedPatch (metadata : TorrentMetadata) (bytes : List UInt8) : JobPatch :=
  { JobPatch.default with
    infoHash := some metadata.infoHash
    torrentFile := some bytes
    totalBytes := some metadata.totalLength
    files := some (fetchedFiles metadata) }

/-- What becomes of the bytes the tracker served. -/
def acquired (deps : RepairDeps) (job : RepairJob) (bytes : List UInt8) : StepOutcome :=
  match deps.inspect bytes with
  | .error (.notImplemented d) => .stub d
  | .error (.unsafePath r) => .hold .unsafeTorrentPaths (errorJson (InspectError.unsafePath r).toText)
  | .error e => .hold .torrentUnreadable (errorJson e.toText)
  | .ok metadata =>
    if job.infoHash.any fun expected => expected ≠ metadata.infoHash then
      .hold .infoHashMismatch (.obj
        [("tracker", .str ((job.infoHash.map InfoHash.toHex).getD "")),
          ("torrent", .str metadata.infoHash.toHex)])
    else
      .advanceWith (.obj
        [("info_hash", .str metadata.infoHash.toHex), ("files", .ofNat metadata.fileCount),
          ("total_bytes", .ofNat metadata.totalLength)])
        (fetchedPatch metadata bytes)

/-- The outcome for a job of a tracker that is not configured. -/
def trackerMissing (job : RepairJob) : StepOutcome :=
  .hold .trackerStatusUnclear
    (errorJson ("tracker `" ++ job.tracker.str ++ "` is not configured"))

def fetchTorrent (deps : RepairDeps) (job : RepairJob) : M StepOutcome :=
  if job.tracker ∉ deps.trackers then pure (trackerMissing job)
  else do
    match ← M.tracker (.fetchTorrentFile job.tracker job.torrentId) with
    | .ok bytes => pure (acquired deps job bytes)
    | .error (.notImplemented d) => pure (.stub d)
    | .error e => pure (.retry e.toText)

/-! ## `match_media.rs` -/

/-- The file list matching works on. -/
def torrentFiles (planned : List PlannedFile) : List TorrentFile :=
  planned.map fun f => ⟨f.torrentPath, f.length⟩

/-- The torrent's piece data, read again from the stored bytes. -/
def torrentPieces (deps : RepairDeps) (job : RepairJob) : M (Option (ℕ × List PieceHash)) := do
  match ← M.store (.torrentFile job.id) with
  | .ok (some bytes) =>
    match deps.inspect bytes with
    | .ok metadata => pure (some (metadata.pieceLength, metadata.pieces))
    | .error _ => pure none
  | _ => pure none

/-- A source that could not be asked. -/
structure SourceFailure where
  source : String
  error : CandidateError

namespace SourceFailure

def toJson : SourceFailure → Json
  | ⟨s, .notImplemented d⟩ => .obj [("source", .str s), ("todo", .str d.todo)]
  | ⟨s, e⟩ => .obj [("source", .str s), ("error", .str e.toText)]

/-- The failure as it is printed in the text of a retry. -/
def debug : SourceFailure → String
  | ⟨s, .notImplemented d⟩ =>
    "Object \x7b\"source\": String(" ++ PathRejection.debugStr s ++ "), \"todo\": String(" ++
      PathRejection.debugStr d.todo ++ ")\x7d"
  | ⟨s, e⟩ =>
    "Object \x7b\"error\": String(" ++ PathRejection.debugStr e.toText ++ "), \"source\": String(" ++
      PathRejection.debugStr s ++ ")\x7d"

end SourceFailure

/-- What the sources had to say so far. -/
structure Lookup where
  candidates : List Candidate
  failures : List SourceFailure
  stubbed : Bool

/-- Ask one source. -/
def lookUp (query : CandidateQuery) (found : Lookup) (source : String × ℕ) : M Lookup := do
  match ← M.library (.findCandidates source.2 query) with
  | .ok candidates => pure { found with candidates := found.candidates ++ candidates }
  | .error (.notImplemented d) =>
    pure { found with
      stubbed := true, failures := found.failures ++ [⟨source.1, .notImplemented d⟩] }
  | .error e => pure { found with failures := found.failures ++ [⟨source.1, e⟩] }

def unmatchedJson (u : UnmatchedFile) : Option Json :=
  u.reason.toJson.map fun reason => .obj [("path", .str u.torrentPath.asStr), ("reason", reason)]

def checkJson (c : PieceCheck) : Option Json :=
  (pathToJson c.candidate).map fun candidate =>
    .obj [("path", .str c.torrentPath.asStr), ("candidate", candidate),
      ("piece", .ofNat c.pieceIndex)]

/-- The evidence of a match; none when a path in it is not text. -/
def matchDetail (found : Lookup) (plan : MatchPlan) (report : VerificationReport) : Option Json := do
  let unmatched ← plan.unmatched.mapM unmatchedJson
  let rejected ← report.rejected.mapM checkJson
  pure (.obj [("candidates", .ofNat found.candidates.length),
    ("matched", .ofNat plan.matched.length), ("unmatched", .arr unmatched),
    ("sources_failed", .arr (found.failures.map SourceFailure.toJson)),
    ("verification", .obj [("checked", .ofNat report.checks.length), ("rejected", .arr rejected)])])

/-- The plan an accepted match writes. -/
def matchedFiles (plan : MatchPlan) : List PlannedFile :=
  plan.matched.map fun m =>
    ⟨m.torrentPath, m.length, some m.source, some m.confidence, some m.evidence, none, none⟩

/-- The plan for what was found, verified where the piece data can be read. -/
def verifiedPlan (deps : RepairDeps) (job : RepairJob) (files : List TorrentFile)
    (candidates : List Candidate) : M (MatchPlan × VerificationReport) := do
  match ← torrentPieces deps job with
  | some (pieceLength, pieces) =>
    verifyMatches (fun path range => M.library (.hashPiece path range)) files candidates
      pieceLength pieces deps.policy.verificationPieces
  | none => pure (planMatches files candidates, .default)

/-- What becomes of a plan. -/
def matchOutcome (deps : RepairDeps) (job : RepairJob) (found : Lookup) (plan : MatchPlan)
    (report : VerificationReport) : M StepOutcome := do
  let detail ← M.expect (matchDetail found plan report)
  match decideMatch plan deps.policy with
  | .holdForReview reason => pure (.hold reason detail)
  | .accept =>
    pure (.advanceWith detail { JobPatch.default with
      stagingDir := some job.defaultStagingDir
      files := some (matchedFiles plan) })

def matchMedia (deps : RepairDeps) (job : RepairJob) : M StepOutcome := do
  match ← M.store (.plannedFiles job.id) with
  | .error e => pure (.retry e.toText)
  | .ok [] => pure (.hold .torrentUnreadable (errorJson "the torrent recorded no files"))
  | .ok planned =>
    let files := torrentFiles planned
    let found ← deps.candidateSources.zipIdx.foldlM (lookUp ⟨job.torrentName, files⟩) ⟨[], [], false⟩
    if found.candidates = [] ∧ ¬found.failures.isEmpty then
      if found.stubbed ∧ found.failures.length = deps.candidateSources.length then
        pure (.hold .adapterNotImplemented (.obj
          [("sources", .arr (found.failures.map SourceFailure.toJson))]))
      else
        pure (.retry ("every candidate source failed: [" ++
          ", ".intercalate (found.failures.map SourceFailure.debug) ++ "]"))
    else do
      let (plan, report) ← verifiedPlan deps job files found.candidates
      matchOutcome deps job found plan report

/-! ## `stage.rs` -/

/-- The items of a staging plan, or the first file without a source. -/
def stagingItems (dir : SafeRelativePath) (planned : List PlannedFile) :
    Except SafeRelativePath (List PlanItem) :=
  planned.mapM fun f =>
    match f.source with
    | none => .error f.torrentPath
    | some source => .ok ⟨source, f.torrentPath.under dir, f.length, f.materializedAs⟩

/-- The strategy a layout records for a path, the last one where a path comes twice. -/
def strategyAt (layout : StagedLayout) (path : SafeRelativePath) : Option MaterializationStrategy :=
  (layout.files.reverse.find? fun f => f.path = path).map (·.strategy)

/-- The plan with the strategy each file got. -/
def stagedFiles (dir : SafeRelativePath) (layout : StagedLayout) (planned : List PlannedFile) :
    List PlannedFile :=
  planned.map fun f => { f with materializedAs := strategyAt layout (f.torrentPath.under dir) }

/-- What staging recorded on the job. -/
def stagedPatch (dir : SafeRelativePath) (layout : StagedLayout) (planned : List PlannedFile) :
    JobPatch :=
  { JobPatch.default with
    stagingDir := some dir
    materialization := layout.summaryStrategy
    files := some (stagedFiles dir layout planned) }

/-- The list of strategies as it is printed. -/
def preferenceText (preference : List MaterializationStrategy) : String :=
  "[" ++ ", ".intercalate (preference.map MaterializationStrategy.debug) ++ "]"

/-- What becomes of a staging attempt that failed. -/
def stagingRefused (preference : List MaterializationStrategy) : StagingError → StepOutcome
  | .notImplemented d => .stub d
  | e@(.strategyUnavailable ..) | e@.noStrategyPermitted =>
    .hold .materializationUnavailable
      (.obj [("error", .str e.toText), ("tried", .str (preferenceText preference))])
  | e@(.sourceMissing _) | e@(.sourceChanged ..) => .hold .libraryChanged (errorJson e.toText)
  | e@(.unsafePath ..) => .hold .unsafeTorrentPaths (errorJson e.toText)
  | e@(.insufficientSpace ..) => .hold .insufficientStagingSpace (errorJson e.toText)
  | e@(.io _) => .retry e.toText

def stageFiles (deps : RepairDeps) (job : RepairJob) : M StepOutcome := do
  let dir := job.stagingDir.getD job.defaultStagingDir
  match ← M.store (.plannedFiles job.id) with
  | .error e => pure (.retry e.toText)
  | .ok planned =>
    match stagingItems dir planned with
    | .error path =>
      pure (.hold .ambiguousMatch (.obj
        [("error", .str "file has no matched source"), ("path", .str path.asStr)]))
    | .ok items =>
      let preference := deps.policy.materialization.preference
      if preference = [] then
        pure (.hold .materializationUnavailable
          (errorJson "configuration permits no materialization strategy"))
      else do
        match ← M.staging (.materialize ⟨items⟩ preference) with
        | .error e => pure (stagingRefused preference e)
        | .ok layout =>
          pure (.advanceWith (.obj
            [("staging_dir", .str dir.asStr),
              ("strategy", .ofOption (fun s => .str s.asStr) layout.summaryStrategy),
              ("aliases_library", .bool layout.aliasesLibraryFiles),
              ("bytes", .ofNat layout.totalBytes)])
            (stagedPatch dir layout planned))

/-! ## `inject.rs` -/

/-- The outcome of a client error. -/
def clientRefused : ClientError → StepOutcome
  | .notImplemented d => .stub d
  | e => .retry e.toText

def inject (deps : RepairDeps) (job : RepairJob) : M StepOutcome := do
  match job.infoHash, job.stagingDir with
  | some infoHash, some dir =>
    match ← M.store (.torrentFile job.id) with
    | .error e => pure (.retry e.toText)
    | .ok none => pure (.hold .torrentUnreadable (errorJson "the stored .torrent is missing"))
    | .ok (some torrentFile) =>
      let savePath := deps.savePath dir
      match ← M.client (.addPaused ⟨infoHash, torrentFile, savePath, deps.category⟩) with
      | .error e => pure (clientRefused e)
      | .ok () =>
        let path ← M.expect (pathToJson savePath)
        pure (.advanceWith (.obj [("save_path", path), ("info_hash", .str infoHash.toHex)]) .default)
  | _, _ =>
    pure (.hold .torrentUnreadable
      (errorJson "job reached injection without an info-hash or staging directory"))

/-- The outcome when the client has lost the torrent. -/
def torrentGone : StepOutcome :=
  .rewind .staged "the download client no longer has this torrent"

def startRecheck (job : RepairJob) : M StepOutcome := do
  match job.infoHash with
  | none =>
    pure (.hold .torrentUnreadable (errorJson "job reached rechecking without an info-hash"))
  | some infoHash =>
    match ← M.client (.status infoHash) with
    | .ok none => pure torrentGone
    | .error e => pure (clientRefused e)
    | .ok (some _) =>
      match ← M.client (.recheck infoHash) with
      | .error e => pure (clientRefused e)
      | .ok () =>
        let startedAt ← M.now
        let recorded ← M.now
        pure (.advanceWith (.obj [("started_at", .ofNat startedAt)])
          { JobPatch.default with recheckingStartedAt := some recorded })

/-! ## `verify.rs` -/

/-- The client's per-file report as progress to record. -/
def fileProgressPatch (status : TorrentStatus) : JobPatch :=
  { JobPatch.default with
    fileProgress := status.files.map fun files =>
      files.map fun f => ⟨f.torrentPath, f.completeness.ratio⟩ }

/-- The evidence of data held back. -/
def heldDetail (job : RepairJob) (status : TorrentStatus) : Json :=
  .obj [("completeness", status.completeness.toJson),
    ("materialization", .ofOption (fun s => .str s.asStr) job.materialization),
    ("files", .ofOption (fun fs => .arr (fs.map FileProgress.toJson)) status.files)]

/-- The client's view of a torrent it is checking. -/
def stillChecking (deps : RepairDeps) (job : RepairJob) (status : TorrentStatus) (now : Time) :
    StepOutcome :=
  let elapsed := recheckElapsed job.recheckingStartedAt now
  if deps.policy.recheckTimeout ≤ elapsed then
    .hold .recheckTimedOut (.obj [("elapsed_seconds", .ofNat elapsed.asSecs)])
  else if status.queued then
    .wait (queuedRecheckPollDelay deps.policy) "hash check queued" .default
  else .wait (recheckPollDelay elapsed deps.policy) "hash check in progress" .default

/-- The client's view, or the outcome it calls for. -/
def currentStatus (deps : RepairDeps) (job : RepairJob) : M (Except StepOutcome TorrentStatus) := do
  match job.infoHash with
  | none =>
    pure (.error (.hold .torrentUnreadable
      (errorJson "job reached verification without an info-hash")))
  | some infoHash =>
    match ← M.client (.status infoHash) with
    | .error e => pure (.error (clientRefused e))
    | .ok none => pure (.error torrentGone)
    | .ok (some status) =>
      match status.state with
      | .checking => do
        let now ← M.now
        pure (.error (stillChecking deps job status now))
      | .errored =>
        pure (.error (.hold .recheckErrored (.obj
          [("message", .ofOption Json.str status.message),
            ("completeness", status.completeness.toJson)])))
      | _ => pure (.ok status)

/-- What the client found on disk, judged. -/
def verdict (job : RepairJob) (status : TorrentStatus) : StepOutcome :=
  match assessData status.completeness job.materialization with
  | .completeAndSafe =>
    .advanceWith (.obj [("completeness", status.completeness.toJson),
      ("state", status.state.toJson)]) (fileProgressPatch status)
  | .holdForReview reason =>
    .review reason (some (heldDetail job status)) (fileProgressPatch status)

def verify (deps : RepairDeps) (job : RepairJob) : M StepOutcome := do
  match ← currentStatus deps job with
  | .error outcome => pure outcome
  | .ok status => pure (verdict job status)

def resume (deps : RepairDeps) (job : RepairJob) : M StepOutcome := do
  match ← currentStatus deps job with
  | .error outcome => pure outcome
  | .ok status =>
    match decideResume status.completeness job.materialization deps.policy job.resumeApproved with
    | .holdForReview reason =>
      pure (.review reason (some (heldDetail job status)) (fileProgressPatch status))
    | .resume =>
      let infoHash ← M.expect job.infoHash
      match ← M.client (.resume infoHash) with
      | .ok () =>
        pure (.advanceWith (.obj [("resumed", .bool true),
          ("completeness", status.completeness.toJson)]) (fileProgressPatch status))
      | .error e => pure (clientRefused e)

/-! ## `confirm.rs` -/

/-- Whether the torrent is still doing what it was left doing. -/
def checkClient (deps : RepairDeps) (job : RepairJob) (infoHash : InfoHash) :
    M (Except StepOutcome TorrentStatus) := do
  match ← M.client (.status infoHash) with
  | .error e => pure (.error (clientRefused e))
  | .ok none => pure (.error torrentGone)
  | .ok (some status) =>
    match status.state with
    | .seeding | .checking => pure (.ok status)
    | .paused =>
      match decideResume status.completeness job.materialization deps.policy job.resumeApproved with
      | .holdForReview reason =>
        pure (.error (.review reason (some (heldDetail job status)) (fileProgressPatch status)))
      | .resume =>
        match ← M.client (.resume infoHash) with
        | .ok () => pure (.ok status)
        | .error e => pure (.error (clientRefused e))
    | .downloading =>
      pure (.error (.review .downloadingDuringSeeding
        (some (.obj [("completeness", status.completeness.toJson),
          ("files", .ofOption (fun fs => .arr (fs.map FileProgress.toJson)) status.files)]))
        (fileProgressPatch status)))
    | .errored =>
      pure (.error (.rewind .staged
        "the download client reported this torrent as errored while seeding"))

/-- The outcome of a poll whose client is healthy. -/
def seedingPoll (deps : RepairDeps) (job : RepairJob) (note : String) (unknownStreak : ℕ)
    (status : TorrentStatus) (now : Time) : StepOutcome :=
  if job.deadline.any fun deadline => deadline ≤ now then
    .hold .hitAndRunDeadlinePassed (.obj [("deadline", .ofOption Json.ofNat job.deadline)])
  else
    .wait (trackerPollDelay now job.deadline deps.policy) note { JobPatch.default with
      consecutiveUnknownTrackerStatus := some unknownStreak
      uploadedBytes := some status.uploadedBytes
      seedingSeconds := status.seedingSeconds }

/-- What the tracker's answer says and the streak of unknown answers to record, or the
    outcome it calls for. -/
def trackerNote (deps : RepairDeps) (job : RepairJob) :
    Except TrackerError HitAndRunStatus → Except StepOutcome (String × ℕ)
  | .ok .cleared => .error (.advance none .default)
  | .ok .active => .ok ("tracker still shows the hit-and-run as outstanding", 0)
  | .ok .unknown =>
    let streak := (job.consecutiveUnknownTrackerStatus + 1) % 2 ^ 32
    if deps.policy.maxConsecutiveUnknownTrackerStatus ≤ streak then
      .error (.hold .trackerStatusUnclear (.obj [("consecutive_unknown_answers", .ofNat streak)]))
    else .ok ("tracker's answer could not be interpreted", streak)
  | .error (.notImplemented d) => .error (.stub d)
  | .error e => .error (.retry e.toText)

def confirmWithTracker (deps : RepairDeps) (job : RepairJob) : M StepOutcome :=
  if job.tracker ∉ deps.trackers then pure (trackerMissing job)
  else do
    match trackerNote deps job (← M.tracker (.hitAndRunStatus job.tracker job.torrentId)) with
    | .error outcome => pure outcome
    | .ok (note, unknownStreak) =>
      match job.infoHash with
      | none =>
        pure (.hold .torrentUnreadable
          (errorJson "job reached seeding confirmation without an info-hash"))
      | some infoHash =>
        match ← checkClient deps job infoHash with
        | .error outcome => pure outcome
        | .ok status => do
          let now ← M.now
          pure (seedingPoll deps job note unknownStreak status now)

/-- The step a job's state calls for. -/
def step (deps : RepairDeps) (job : RepairJob) : M StepOutcome :=
  match job.state with
  | .discovered => fetchTorrent deps job
  | .torrentFetched => matchMedia deps job
  | .matched => stageFiles deps job
  | .staged => inject deps job
  | .injected => startRecheck job
  | .rechecking => verify deps job
  | .verified => resume deps job
  | .seeding => confirmWithTracker deps job
  | .completed | .awaitingReview | .failed =>
    pure (.wait (.fromSecs 3600) (job.state.asStr ++ " is not a state the worker acts on") .default)

end SeedMedic
