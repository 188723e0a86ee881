/-
  Everything the workflow reaches outside itself for: the store, the client, the tracker,
  the library, the staging area, the clock and the feeds (`repair/worker.rs`, the ports).
-/
import SeedMedic.Lib.Prog
import SeedMedic.Library.Verification
import SeedMedic.Repair.Policy
import SeedMedic.Repair.Ports

namespace SeedMedic

open Lib

/-! ## The feeds -/

inductive ActivityKind where
  | tick
  | discovery
  | reconcile
  deriving DecidableEq

/-- The outcome of one of the worker's periodic jobs. -/
structure Activity where
  kind : ActivityKind
  time : Option Time
  claimed : ℕ
  advanced : ℕ
  parked : ℕ
  retrying : ℕ
  rewound : ℕ
  jobsCreated : ℕ
  trackersFailed : ℕ
  deriving DecidableEq

def Activity.default : Activity := ⟨.tick, none, 0, 0, 0, 0, 0, 0, 0⟩

/-- What the live feed is told. -/
inductive EventKind where
  | jobTransitioned (job : JobId) (fromState toState : RepairState) (reason : String)
  | jobProgress (job : JobId)
  | activity (a : Activity)
  deriving DecidableEq

/-- What the operator is notified of. -/
inductive NotificationEvent where
  | parkedForReview (job : JobId) (tracker : String) (torrentName : String) (reason : String)
  | completed (job : JobId) (tracker : String) (torrentName : String)
  deriving DecidableEq

/-! ## The ports -/

/-- What candidates are looked up by. -/
structure CandidateQuery where
  torrentName : String
  files : List TorrentFile
  deriving DecidableEq

inductive StoreCall where
  | job (id : JobId)
  | torrentFile (id : JobId)
  | plannedFiles (id : JobId)
  | history (id : JobId)
  | unfinished
  | parked
  | apply (id : JobId) (transition : Transition) (update : TransitionUpdate)
  | recordProgress (id : JobId) (patch : JobPatch)
  | setReviewResumePoint (id : JobId) (state : RepairState)
  | claim (owner : String) (lease : Duration) (limit : ℤ)
  | release (id : JobId) (retryAt : Option Time) (countAttempt : Bool)
  | renewLease (id : JobId) (owner : String) (lease : Duration)
  | clearStaleLeases (owner : String)
  deriving DecidableEq

def StoreCall.Ans : StoreCall → Type
  | job _ => Except StoreError (Option RepairJob)
  | torrentFile _ => Except StoreError (Option (List UInt8))
  | plannedFiles _ => Except StoreError (List PlannedFile)
  | history _ => Except StoreError (List TransitionRecord)
  | unfinished | parked => Except StoreError (List RepairJob)
  | apply .. => Except StoreError Applied
  | recordProgress .. | setReviewResumePoint .. | release .. => Except StoreError Unit
  | claim .. => Except StoreError (List RepairJob)
  | renewLease .. => Except StoreError Bool
  | clearStaleLeases _ => Except StoreError ℕ

inductive ClientCall where
  | addPaused (request : AddTorrent)
  | status (infoHash : InfoHash)
  | recheck (infoHash : InfoHash)
  | resume (infoHash : InfoHash)
  | remove (infoHash : InfoHash) (deleteFiles : Bool)
  deriving DecidableEq

def ClientCall.Ans : ClientCall → Type
  | status _ => Except ClientError (Option TorrentStatus)
  | _ => Except ClientError Unit

inductive TrackerCall where
  | fetchTorrentFile (tracker : TrackerId) (torrent : TrackerTorrentId)
  | hitAndRunStatus (tracker : TrackerId) (torrent : TrackerTorrentId)
  deriving DecidableEq

def TrackerCall.Ans : TrackerCall → Type
  | fetchTorrentFile .. => Except TrackerError (List UInt8)
  | hitAndRunStatus .. => Except TrackerError HitAndRunStatus

inductive LibraryCall where
  /-- Ask the source at a place of the configured list. -/
  | findCandidates (source : ℕ) (query : CandidateQuery)
  /-- Hash a range of a library file. -/
  | hashPiece (path : PathBuf) (range : ByteRange)
  deriving DecidableEq

def LibraryCall.Ans : LibraryCall → Type
  | findCandidates .. => Except CandidateError (List Candidate)
  | hashPiece .. => Option Digest

inductive StagingCall where
  | materialize (plan : MaterializationPlan) (preference : List MaterializationStrategy)
  | inspect (plan : MaterializationPlan)
  | discard (dir : SafeRelativePath)
  deriving DecidableEq

def StagingCall.Ans : StagingCall → Type
  | materialize .. => Except StagingError StagedLayout
  | inspect _ => Except StagingError StagingPresence
  | discard _ => Except StagingError Unit

inductive Call where
  | store (c : StoreCall)
  | client (c : ClientCall)
  | tracker (c : TrackerCall)
  | library (c : LibraryCall)
  | staging (c : StagingCall)
  | now
  | shuttingDown
  | publish (e : EventKind)
  | notify (e : NotificationEvent)
  | recordTick (time : Time)
  /-- The span around one step of a job. -/
  | enterStep (job : RepairJob)
  /-- The task dies here. -/
  | panic
  deriving DecidableEq

@[reducible] def Ans : Call → Type
  | .store c => c.Ans
  | .client c => c.Ans
  | .tracker c => c.Ans
  | .library c => c.Ans
  | .staging c => c.Ans
  | .now => Time
  | .shuttingDown => Bool
  | .publish _ | .notify _ | .recordTick _ | .enterStep _ => Unit
  | .panic => Empty

/-- Code of the workflow. -/
abbrev M := Prog Call Ans

/-- What the workflow is configured with. -/
structure RepairDeps where
  trackers : List TrackerId
  /-- Decodes a torrent. -/
  inspect : List UInt8 → Except InspectError TorrentMetadata
  /-- The labels of the candidate sources. -/
  candidateSources : List String
  stagingRoot : PathBuf
  policy : SafetyPolicy
  category : Option String

/-- Where the client finds the files of a job. -/
def RepairDeps.savePath (deps : RepairDeps) (dir : SafeRelativePath) : PathBuf :=
  dir.joinOnto deps.stagingRoot

namespace M

def store (c : StoreCall) : M c.Ans := Prog.ask (A := Ans) (.store c)
def client (c : ClientCall) : M c.Ans := Prog.ask (A := Ans) (.client c)
def tracker (c : TrackerCall) : M c.Ans := Prog.ask (A := Ans) (.tracker c)
def library (c : LibraryCall) : M c.Ans := Prog.ask (A := Ans) (.library c)
def staging (c : StagingCall) : M c.Ans := Prog.ask (A := Ans) (.staging c)
def now : M Time := Prog.ask (A := Ans) .now
def shuttingDown : M Bool := Prog.ask (A := Ans) .shuttingDown
def publish (e : EventKind) : M Unit := Prog.ask (A := Ans) (.publish e)
def notify (e : NotificationEvent) : M Unit := Prog.ask (A := Ans) (.notify e)
def recordTick (time : Time) : M Unit := Prog.ask (A := Ans) (.recordTick time)
def enterStep (job : RepairJob) : M Unit := Prog.ask (A := Ans) (.enterStep job)

/-- A value that must be there; the task dies where it is not. -/
def expect {α : Type} : Option α → M α
  | some a => pure a
  | none => .call .panic fun e => nomatch e

@[simp] theorem expect_some {α : Type} (a : α) : expect (some a) = .ret a := rfl

@[simp] theorem store_bind {α : Type} (c : StoreCall) (f : c.Ans → M α) :
    (store c >>= f) = .call (.store c) f := rfl

@[simp] theorem client_bind {α : Type} (c : ClientCall) (f : c.Ans → M α) :
    (client c >>= f) = .call (.client c) f := rfl

@[simp] theorem tracker_bind {α : Type} (c : TrackerCall) (f : c.Ans → M α) :
    (tracker c >>= f) = .call (.tracker c) f := rfl

@[simp] theorem library_bind {α : Type} (c : LibraryCall) (f : c.Ans → M α) :
    (library c >>= f) = .call (.library c) f := rfl

@[simp] theorem staging_bind {α : Type} (c : StagingCall) (f : c.Ans → M α) :
    (staging c >>= f) = .call (.staging c) f := rfl

@[simp] theorem now_bind {α : Type} (f : Time → M α) : (now >>= f) = .call .now f := rfl

@[simp] theorem shuttingDown_bind {α : Type} (f : Bool → M α) :
    (shuttingDown >>= f) = .call .shuttingDown f := rfl

@[simp] theorem notify_bind {α : Type} (e : NotificationEvent) (f : Unit → M α) :
    (notify e >>= f) = .call (.notify e) f := rfl

@[simp] theorem recordTick_bind {α : Type} (time : Time) (f : Unit → M α) :
    (recordTick time >>= f) = .call (.recordTick time) f := rfl

@[simp] theorem enterStep_bind {α : Type} (job : RepairJob) (f : Unit → M α) :
    (enterStep job >>= f) = .call (.enterStep job) f := rfl

@[simp] theorem publish_bind {α : Type} (e : EventKind) (f : Unit → M α) :
    (publish e >>= f) = .call (.publish e) f := rfl

end M

end SeedMedic
