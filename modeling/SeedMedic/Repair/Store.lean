/-
  The durable store: its tables and the statements run against them
  (`repair/adapters/sqlite.rs`, `migrations`).
-/
import SeedMedic.Lib.Table
import SeedMedic.Repair.Ports
import Mathlib.Data.List.Sort
import Mathlib.Data.String.Basic

namespace SeedMedic

open Lib

/-- The database has no unsigned numbers; sizes beyond the limit saturate. -/
def asI64 (value : ℕ) : ℤ := (min value i64Max : ℕ)

def asU64 (value : ℤ) : ℕ := value.toNat

/-- A counter column read as a 32-bit number. -/
def asU32 (value : ℕ) : ℕ := min value (2 ^ 32 - 1)

/-- A point in time as the columns have it, in microseconds. -/
abbrev Stamp := ℕ

def timestamp (t : Time) : Stamp := t / 1000

def parseTime (s : Stamp) : Time := s * 1000

theorem timestamp_mono {t t' : Time} (h : t ≤ t') : timestamp t ≤ timestamp t' :=
  Nat.div_le_div_right h

@[simp] theorem timestamp_parseTime (s : Stamp) : timestamp (parseTime s) = s :=
  Nat.mul_div_cancel s (by decide)

theorem asU64_asI64 {n : ℕ} (h : n ≤ i64Max) : asU64 (asI64 n) = n := by
  simp [asU64, asI64, min_eq_left h]

theorem asU64_asI64_le (n : ℕ) : asU64 (asI64 n) ≤ n := by
  simp [asU64, asI64]

/-- One row of `repair_jobs`. -/
structure JobRow where
  id : JobId
  trackerId : TrackerId
  trackerTorrentId : TrackerTorrentId
  torrentName : String
  state : RepairState
  reviewFromState : Option RepairState
  reviewReason : Option ReviewReason
  failureReason : Option String
  infoHash : Option InfoHash
  torrentFile : Option (List UInt8)
  totalBytes : Option ℤ
  stagingDir : Option SafeRelativePath
  materialization : Option MaterializationStrategy
  recheckingStartedAt : Option Stamp
  consecutiveUnknownTrackerStatus : ℕ
  deadline : Option Stamp
  uploadedBytes : Option ℤ
  seedingSeconds : Option ℤ
  resumeApproved : Bool
  attempts : ℕ
  nextAttemptAt : Option Stamp
  leaseOwner : Option String
  leaseExpiresAt : Option Stamp
  createdAt : Stamp
  updatedAt : Stamp

/-- One row of `repair_job_files`. -/
structure FileRow where
  jobId : JobId
  torrentPath : SafeRelativePath
  lengthBytes : ℤ
  sourcePath : Option String
  matchConfidence : Option MatchConfidence
  matchEvidence : Option MatchEvidence
  materializedAs : Option MaterializationStrategy
  recheckProgress : Option ℚ
  deriving DecidableEq

/-- The primary key of `repair_job_files`. -/
def FileRow.key (r : FileRow) : JobId × SafeRelativePath := (r.jobId, r.torrentPath)

/-- One row of `repair_job_transitions`; rows are kept in the order of their ids. -/
structure TransitionRow where
  jobId : JobId
  fromState : RepairState
  toState : RepairState
  reason : String
  detail : Option Json
  occurredAt : Stamp

structure SqliteRepairStore where
  jobs : Table JobRow JobId JobRow.id
  files : Table FileRow (JobId × SafeRelativePath) FileRow.key
  transitions : List TransitionRow
  /-- The last job id given out. -/
  jobSeq : Int64

/-- The text of a uniqueness failure of the file rows. -/
def uniqueFailed : String := "error returned from database: (code: 1555) " ++
  "UNIQUE constraint failed: repair_job_files.job_id, repair_job_files.torrent_path"

def readJob (r : JobRow) : RepairJob where
  id := r.id
  tracker := r.trackerId
  torrentId := r.trackerTorrentId
  torrentName := r.torrentName
  state := r.state
  reviewFromState := r.reviewFromState
  reviewReason := r.reviewReason
  failureReason := r.failureReason
  infoHash := r.infoHash
  totalBytes := r.totalBytes.map asU64
  stagingDir := r.stagingDir
  materialization := r.materialization
  deadline := r.deadline.map parseTime
  uploadedBytes := r.uploadedBytes.map asU64
  seedingSeconds := r.seedingSeconds.map asU64
  recheckingStartedAt := r.recheckingStartedAt.map parseTime
  consecutiveUnknownTrackerStatus := asU32 r.consecutiveUnknownTrackerStatus
  resumeApproved := r.resumeApproved
  attempts := asU32 r.attempts
  nextAttemptAt := r.nextAttemptAt.map parseTime
  createdAt := parseTime r.createdAt
  updatedAt := parseTime r.updatedAt

def readPlannedFile (r : FileRow) : PlannedFile where
  torrentPath := r.torrentPath
  length := asU64 r.lengthBytes
  source := r.sourcePath.map PathBuf.ofString
  confidence := r.matchConfidence
  evidence := r.matchEvidence
  materializedAs := r.materializedAs
  recheckProgress := r.recheckProgress

def readTransition (r : TransitionRow) : TransitionRecord :=
  ⟨r.fromState, r.toState, r.reason, r.detail, parseTime r.occurredAt⟩

/-- What a new plan writes for one file; the progress column is not among the values. -/
def writePlannedFile (id : JobId) (f : PlannedFile) : FileRow where
  jobId := id
  torrentPath := f.torrentPath
  lengthBytes := asI64 f.length
  sourcePath := f.source.map PathBuf.toStringLossy
  matchConfidence := f.confidence
  matchEvidence := f.evidence
  materializedAs := f.materializedAs
  recheckProgress := none

/-- The columns a patch sets, each left alone where the patch has nothing. -/
def patchRow (patch : JobPatch) (now : Stamp) (r : JobRow) : JobRow :=
  { r with
    infoHash := patch.infoHash <|> r.infoHash
    torrentFile := patch.torrentFile <|> r.torrentFile
    totalBytes := patch.totalBytes.map asI64 <|> r.totalBytes
    stagingDir := patch.stagingDir <|> r.stagingDir
    materialization := patch.materialization <|> r.materialization
    recheckingStartedAt := patch.recheckingStartedAt.map timestamp <|> r.recheckingStartedAt
    consecutiveUnknownTrackerStatus :=
      patch.consecutiveUnknownTrackerStatus.getD r.consecutiveUnknownTrackerStatus
    uploadedBytes := patch.uploadedBytes.map asI64 <|> r.uploadedBytes
    seedingSeconds := patch.seedingSeconds.map asI64 <|> r.seedingSeconds
    resumeApproved := patch.resumeApproved.getD r.resumeApproved
    updatedAt := now }

/-- The columns a transition sets; parking takes an approval back. -/
def transitionRow (t : Transition) (failureReason : Option String) (now : Stamp) (r : JobRow) :
    JobRow :=
  { r with
    state := t.toState
    reviewFromState := if t.toState = .awaitingReview then some t.fromState else none
    reviewReason := match t.reason with
      | .review reason => some reason
      | _ => none
    failureReason := failureReason
    resumeApproved := if t.toState = .awaitingReview then false else r.resumeApproved
    attempts := 0
    nextAttemptAt := none
    updatedAt := now }

/-- The row a newly seen hit-and-run opens. -/
def discoveredRow (id : JobId) (now : Stamp) (h : HitAndRun) : JobRow where
  id := id
  trackerId := h.tracker
  trackerTorrentId := h.torrentId
  torrentName := h.torrentName
  state := .discovered
  reviewFromState := none
  reviewReason := none
  failureReason := none
  infoHash := h.infoHash
  torrentFile := none
  totalBytes := some (asI64 h.sizeBytes)
  stagingDir := none
  materialization := none
  recheckingStartedAt := none
  consecutiveUnknownTrackerStatus := 0
  deadline := h.deadline.map timestamp
  uploadedBytes := none
  seedingSeconds := none
  resumeApproved := false
  attempts := 0
  nextAttemptAt := none
  leaseOwner := none
  leaseExpiresAt := none
  createdAt := now
  updatedAt := now

@[simp] theorem patchRow_id (p : JobPatch) (now : Stamp) (r : JobRow) : (patchRow p now r).id = r.id :=
  rfl

@[simp] theorem patchRow_state (p : JobPatch) (now : Stamp) (r : JobRow) :
    (patchRow p now r).state = r.state := rfl

@[simp] theorem transitionRow_id (t : Transition) (f : Option String) (now : Stamp) (r : JobRow) :
    (transitionRow t f now r).id = r.id := rfl

@[simp] theorem transitionRow_state (t : Transition) (f : Option String) (now : Stamp) (r : JobRow) :
    (transitionRow t f now r).state = t.toState := rfl

namespace SqliteRepairStore

variable (s : SqliteRepairStore)

/-- The store after the migrations. -/
def new : SqliteRepairStore := ⟨.empty, .empty, [], 0⟩

/-! ## Reading -/

def job (id : JobId) : Option RepairJob := (s.jobs.get? id).map readJob

/-- The rows in one of the states the worker acts on, in the order of their ids. -/
def unfinished : List RepairJob :=
  ((s.jobs.rows.filter fun r => r.state.isActionable).insertionSort
    fun a b => a.id.val ≤ b.id.val).map readJob

def parked : List RepairJob :=
  ((s.jobs.rows.filter fun r => r.state = .awaitingReview).insertionSort
    fun a b => a.id.val ≤ b.id.val).map readJob

def torrentFile (id : JobId) : Except StoreError (Option (List UInt8)) :=
  match s.jobs.get? id with
  | none => .error (.missing id)
  | some r => .ok r.torrentFile

/-- The rows of one job, as they lie in the table. -/
def fileRows (id : JobId) : List FileRow := s.files.rows.filter fun r => r.jobId = id

/-- The plan of one job, ordered by path. -/
def plannedFiles (id : JobId) : List PlannedFile :=
  ((s.fileRows id).insertionSort fun a b => a.torrentPath.str ≤ b.torrentPath.str).map
    readPlannedFile

def history (id : JobId) : List TransitionRecord :=
  (s.transitions.filter fun r => r.jobId = id).map readTransition

/-! ## Writing -/

/-- Record a hit-and-run, once for each tracker and torrent. -/
def recordDiscovery (now : Time) (h : HitAndRun) :
    Except StoreError (Discovered × SqliteRepairStore) :=
  match s.jobs.rows.find? fun r => r.trackerId = h.tracker ∧ r.trackerTorrentId = h.torrentId with
  | some r => .ok (⟨r.id, false⟩, s)
  | none =>
    let id : JobId := ⟨s.jobSeq + 1⟩
    let detail : Json := .obj [("tracker", .str h.tracker.str), ("torrent_id", .str h.torrentId.str),
      ("size_bytes", .ofNat h.sizeBytes), ("deadline", .ofOption Json.ofNat h.deadline)]
    match s.jobs.insert? (discoveredRow id (timestamp now) h) with
    | none => .error (.database "database or disk is full")
    | some jobs => .ok (⟨id, true⟩, { s with
        jobs
        transitions := s.transitions ++
          [⟨id, .discovered, .discovered, "discovered", some detail, timestamp now⟩]
        jobSeq := s.jobSeq + 1 })

/-- The scalar columns of a patch. -/
def updateJobFields (id : JobId) (patch : JobPatch) (now : Stamp) : SqliteRepairStore :=
  { s with jobs := s.jobs.update (fun r => r.id = id) (patchRow patch now) fun _ => rfl }

def deleteFiles (id : JobId) : SqliteRepairStore :=
  { s with files := s.files.delete fun r => r.jobId = id }

def insertFile (id : JobId) (f : PlannedFile) : Except StoreError SqliteRepairStore :=
  match s.files.insert? (writePlannedFile id f) with
  | none => .error (.database uniqueFailed)
  | some files => .ok { s with files }

/-- Progress recorded on the row a file already has, if any. -/
def setProgress (id : JobId) (c : FileCompleteness) : SqliteRepairStore :=
  { s with
    files := s.files.update (fun r => r.jobId = id ∧ r.torrentPath = c.torrentPath)
      (fun r => { r with recheckProgress := some c.ratio }) fun _ => rfl }

/-- The plan of one job replaced by a new one. -/
def replaceFiles (id : JobId) (files : List PlannedFile) : Except StoreError SqliteRepairStore :=
  files.foldlM (fun s f => s.insertFile id f) (s.deleteFiles id)

/-- Everything a patch says, inside the transition's transaction. -/
def applyPatch (id : JobId) (patch : JobPatch) (now : Stamp) :
    Except StoreError SqliteRepairStore := do
  let s := s.updateJobFields id patch now
  let s ← match patch.files with
    | some files => s.replaceFiles id files
    | none => pure s
  match patch.fileProgress with
  | some progress => pure (progress.foldl (fun s c => s.setProgress id c) s)
  | none => pure s

/-- The transition's own columns, on the row the compare-and-swap found. -/
def moveJob (id : JobId) (t : Transition) (failureReason : Option String) (now : Stamp) :
    SqliteRepairStore :=
  { s with
    jobs := s.jobs.update (fun r => r.id = id ∧ r.state = t.fromState)
      (transitionRow t failureReason now) fun _ => rfl }

def appendTransition (row : TransitionRow) : SqliteRepairStore :=
  { s with transitions := s.transitions ++ [row] }

/-- Move a job with its audit row and its field updates, in one transaction: an error
    leaves the store as it was. -/
def apply (now : Time) (id : JobId) (t : Transition) (update : TransitionUpdate) :
    Except StoreError (Applied × SqliteRepairStore) :=
  match s.jobs.get? id with
  | none => .error (.missing id)
  | some r =>
    if r.state = t.fromState then do
      let now := timestamp now
      let s ← (s.moveJob id t update.failureReason now).applyPatch id update.patch now
      pure (.applied, s.appendTransition
        ⟨id, t.fromState, t.toState, t.reason.asStr, update.detail, now⟩)
    else if r.state = t.toState then .ok (.alreadyInTargetState, s)
    else .error (.conflict id t.fromState r.state)

def recordProgress (now : Time) (id : JobId) (patch : JobPatch) : SqliteRepairStore :=
  s.updateJobFields id patch (timestamp now)

def moveResumePoint (now : Stamp) (id : JobId) (state : RepairState) : SqliteRepairStore :=
  { s with
    jobs := s.jobs.update (fun r => r.id = id)
      (fun r => { r with reviewFromState := some state, updatedAt := now }) fun _ => rfl }

/-- Correct where a parked job will resume. -/
def setReviewResumePoint (now : Time) (id : JobId) (state : RepairState) :
    Except StoreError SqliteRepairStore :=
  match s.jobs.get? id with
  | none => .error (.missing id)
  | some r =>
    if r.state ≠ .awaitingReview then .ok s
    else match r.reviewFromState with
      | none => .error (.corrupt id "awaiting_review job has no review_from_state")
      | some previous =>
        if previous = state then .ok s
        else
          let detail : Json :=
            .obj [("note", .str "parked repair's resume point moved back to match reality")]
          .ok ((s.moveResumePoint (timestamp now) id state).appendTransition
            ⟨id, previous, state, "reconciliation", some detail, timestamp now⟩)

/-! ## Leases -/

/-- Whether a row is due for work and nobody's lease on it runs. -/
def claimable (now : Stamp) (r : JobRow) : Bool :=
  r.state.isActionable && (r.nextAttemptAt.all fun t => t ≤ now) &&
    r.leaseExpiresAt.all fun t => t ≤ now

/-- The order of a claim: unscheduled rows first, then by schedule, then by id. -/
def claimBefore (a b : JobRow) : Bool :=
  match a.nextAttemptAt, b.nextAttemptAt with
  | none, none => a.id.val ≤ b.id.val
  | none, some _ => true
  | some _, none => false
  | some s, some t => s < t || (s = t && a.id.val ≤ b.id.val)

/-- The first `limit` rows, all of them for a negative limit. -/
def limited {α : Type} (limit : ℤ) (rows : List α) : List α :=
  if limit < 0 then rows else rows.take limit.toNat

/-- The jobs a claim takes. -/
def claimedIds (now : Stamp) (limit : ℤ) : List JobId :=
  (limited limit ((s.jobs.rows.filter (claimable now)).insertionSort
    fun a b => claimBefore a b)).map JobRow.id

/-- When a lease taken now ends. -/
def leaseEnd (now : Time) (lease : Duration) : Stamp := timestamp (now + (chronoFromStd lease).getD 0)

def leaseRow (owner : String) (expires : Stamp) (r : JobRow) : JobRow :=
  { r with leaseOwner := some owner, leaseExpiresAt := some expires }

/-- Take a lease on up to `limit` jobs that are due. -/
def claim (now : Time) (owner : String) (lease : Duration) (limit : ℤ) :
    List RepairJob × SqliteRepairStore :=
  let ids := s.claimedIds (timestamp now) limit
  let jobs := s.jobs.update (fun r => r.id ∈ ids) (leaseRow owner (leaseEnd now lease)) fun _ => rfl
  ((jobs.rows.filter fun r => r.id ∈ ids).map readJob, { s with jobs })

def releaseRow (retryAt : Option Stamp) (countAttempt : Bool) (now : Stamp) (r : JobRow) : JobRow :=
  { r with
    leaseOwner := none
    leaseExpiresAt := none
    nextAttemptAt := retryAt
    attempts := r.attempts + (if countAttempt then 1 else 0)
    updatedAt := now }

/-- Give up the lease, whoever holds it. -/
def release (now : Time) (id : JobId) (retryAt : Option Time) (countAttempt : Bool) :
    SqliteRepairStore :=
  { s with
    jobs := s.jobs.update (fun r => r.id = id) (releaseRow (retryAt.map timestamp) countAttempt (timestamp now))
      fun _ => rfl }

/-- Extend a held lease; tells whether a row was touched. -/
def renewLease (now : Time) (id : JobId) (owner : String) (lease : Duration) :
    Bool × SqliteRepairStore :=
  let hit := fun r : JobRow => decide (r.id = id ∧ r.leaseOwner = some owner)
  (s.jobs.rows.any hit,
    { s with
      jobs := s.jobs.update hit
        (fun r => { r with leaseExpiresAt := some (leaseEnd now lease) }) fun _ => rfl })

/-- Whether `clearStaleLeases` drops the lease of a row. -/
def stale (now : Stamp) (owner : String) (r : JobRow) : Bool :=
  r.leaseExpiresAt.any fun t => t ≤ now || r.leaseOwner = some owner

/-- Drop leases that have expired or are held by `owner`. -/
def clearStaleLeases (now : Time) (owner : String) : ℕ × SqliteRepairStore :=
  ((s.jobs.rows.filter (stale (timestamp now) owner)).length,
    { s with
      jobs := s.jobs.update (stale (timestamp now) owner)
        (fun r => { r with leaseOwner := none, leaseExpiresAt := none }) fun _ => rfl })

end SqliteRepairStore

end SeedMedic
