/-
  The staging area port: how library files get into a torrent's layout
  (`staging/domain.rs`, `staging/ports.rs`).
-/
import SeedMedic.Torrent.Domain

namespace SeedMedic

open Lib

/-- How a staged file is backed by the library file it came from. -/
inductive MaterializationStrategy where
  | reflink
  /-- A second name for the same inode. -/
  | hardlink
  | copy
  deriving DecidableEq

namespace MaterializationStrategy

/-- Whether writing to the staged file writes to the library file. -/
def aliasesLibraryFile : MaterializationStrategy → Bool
  | hardlink => true
  | _ => false

def asStr : MaterializationStrategy → String
  | reflink => "reflink"
  | hardlink => "hardlink"
  | copy => "copy"

/-- The name of the variant. -/
def debug : MaterializationStrategy → String
  | reflink => "Reflink"
  | hardlink => "Hardlink"
  | copy => "Copy"

end MaterializationStrategy

inductive ReflinkSupport where
  | supported
  | unsupported (reason : String)
  deriving DecidableEq

/-- One file to materialise. -/
structure PlanItem where
  source : PathBuf
  /-- Relative to the staging root, job directory included. -/
  destination : SafeRelativePath
  length : ℕ
  /-- What the job's row says an earlier attempt used. -/
  previousStrategy : Option MaterializationStrategy
  deriving DecidableEq

structure MaterializationPlan where
  items : List PlanItem
  deriving DecidableEq

structure StagedFile where
  path : SafeRelativePath
  strategy : MaterializationStrategy
  bytes : ℕ

/-- What ended up on disk. -/
structure StagedLayout where
  files : List StagedFile
  reflink : Option ReflinkSupport

namespace StagedLayout

/-- Whether any file shares an inode with the library. -/
def aliasesLibraryFiles (l : StagedLayout) : Bool :=
  l.files.any fun f => f.strategy.aliasesLibraryFile

/-- The riskiest strategy used. -/
def summaryStrategy (l : StagedLayout) : Option MaterializationStrategy :=
  if l.files.any fun f => f.strategy.aliasesLibraryFile then some .hardlink
  else if l.files.any fun f => f.strategy = .copy then some .copy
  else l.files.head?.map (·.strategy)

def totalBytes (l : StagedLayout) : ℕ := wsum (l.files.map (·.bytes))

/-- A layout that holds a hardlink is summarised as one. -/
theorem summaryStrategy_hardlink {l : StagedLayout} {f : StagedFile} (hf : f ∈ l.files)
    (h : f.strategy = .hardlink) : l.summaryStrategy = some .hardlink := by
  have hany : (l.files.any fun f => f.strategy.aliasesLibraryFile) = true :=
    List.any_eq_true.2 ⟨f, hf, by rw [h]; rfl⟩
  rw [summaryStrategy, if_pos hany]

end StagedLayout

inductive StagingPresence where
  | absent
  | incomplete (present expected : ℕ)
  | complete
  deriving DecidableEq

inductive StagingError where
  | notImplemented (details : NotImplemented)
  | strategyUnavailable (strategy : MaterializationStrategy) (reason : String)
  | noStrategyPermitted
  | insufficientSpace (needed available margin : ℕ)
  | sourceMissing (path : PathBuf)
  | sourceChanged (path : PathBuf) (expected actual : ℕ)
  | unsafePath (path : PathBuf) (reason : String)
  | io (detail : String)

namespace StagingError

def toText : StagingError → String
  | notImplemented d => d.toText
  | strategyUnavailable s r => s.debug ++ " is not available here: " ++ r
  | noStrategyPermitted => "no permitted materialization strategy works for this repair"
  | insufficientSpace n a m => "staging filesystem has " ++ toString a ++
      " bytes free but this plan needs " ++ toString n ++ " bytes, after keeping " ++
      toString m ++ " bytes free"
  | sourceMissing p => "library file " ++ p.toStringLossy ++ " no longer exists"
  | sourceChanged p e a => "library file " ++ p.toStringLossy ++ " is now " ++ toString a ++
      " bytes, expected " ++ toString e
  | unsafePath p r => "refusing to touch " ++ p.toStringLossy ++ ": " ++ r
  | io s => "staging I/O failed: " ++ s

def isTransient : StagingError → Bool
  | io _ => true
  | _ => false

end StagingError

end SeedMedic
