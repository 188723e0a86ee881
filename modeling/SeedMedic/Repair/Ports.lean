/-
  What the workflow hands to the durable store and gets back
  (`repair/ports.rs`).
-/
import SeedMedic.Library.Domain
import SeedMedic.Repair.Domain

namespace SeedMedic

open Lib

inductive StoreError where
  | missing (id : JobId)
  | conflict (id : JobId) (expected actual : RepairState)
  | invalid (error : InvalidTransition)
  | corrupt (id : JobId) (reason : String)
  | database (detail : String)
  deriving DecidableEq

def StoreError.toText : StoreError → String
  | missing id => "repair job " ++ id.toText ++ " does not exist"
  | conflict id e a =>
    "repair job " ++ id.toText ++ " is in state " ++ a.asStr ++ ", not " ++ e.asStr
  | invalid e => e.toText
  | corrupt id r => "stored repair job " ++ id.toText ++ " cannot be read: " ++ r
  | database d => "database error: " ++ d

/-- Outcome of applying a transition. -/
inductive Applied where
  | applied
  /-- The job was there already, and nothing was written. -/
  | alreadyInTargetState
  deriving DecidableEq

/-- Result of recording a hit-and-run. -/
structure Discovered where
  id : JobId
  created : Bool
  deriving DecidableEq

/-- A file in the repair plan. -/
structure PlannedFile where
  torrentPath : SafeRelativePath
  length : ℕ
  source : Option PathBuf
  confidence : Option MatchConfidence
  evidence : Option MatchEvidence
  materializedAs : Option MaterializationStrategy
  recheckProgress : Option ℚ
  deriving DecidableEq

/-- One file's completeness from a recheck, for the row the file already has. -/
structure FileCompleteness where
  torrentPath : SafeRelativePath
  ratio : ℚ
  deriving DecidableEq

/-- Job fields a step learned; what is absent stays as it is. -/
structure JobPatch where
  infoHash : Option InfoHash
  torrentFile : Option (List UInt8)
  totalBytes : Option ℕ
  stagingDir : Option SafeRelativePath
  materialization : Option MaterializationStrategy
  recheckingStartedAt : Option Time
  /-- Replaces the whole file plan. -/
  files : Option (List PlannedFile)
  /-- Applied after `files`, to the rows of the files it names. -/
  fileProgress : Option (List FileCompleteness)
  consecutiveUnknownTrackerStatus : Option ℕ
  uploadedBytes : Option ℕ
  seedingSeconds : Option ℕ
  resumeApproved : Option Bool
  deriving DecidableEq

/-- The patch that changes nothing. -/
def JobPatch.default : JobPatch where
  infoHash := none
  torrentFile := none
  totalBytes := none
  stagingDir := none
  materialization := none
  recheckingStartedAt := none
  files := none
  fileProgress := none
  consecutiveUnknownTrackerStatus := none
  uploadedBytes := none
  seedingSeconds := none
  resumeApproved := none

/-- Everything written alongside a transition. -/
structure TransitionUpdate where
  /-- Evidence for the audit trail. -/
  detail : Option Json
  failureReason : Option String
  patch : JobPatch
  deriving DecidableEq

namespace TransitionUpdate

def default : TransitionUpdate := ⟨none, none, .default⟩

def withDetail (detail : Json) : TransitionUpdate := { default with detail := some detail }

def withPatch (u : TransitionUpdate) (patch : JobPatch) : TransitionUpdate :=
  { u with patch := patch }

def failedBecause (u : TransitionUpdate) (reason : String) : TransitionUpdate :=
  { u with failureReason := some reason }

end TransitionUpdate

end SeedMedic
