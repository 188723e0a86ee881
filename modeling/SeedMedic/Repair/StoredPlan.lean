/-
  A planned file in the columns of its row, and what is read back of them
  (`repair/adapters/sqlite.rs`).
-/
import SeedMedic.Lib.Fallible
import SeedMedic.Repair.MatchedPlan

namespace SeedMedic

open Lib

/-! ## Texts of the columns -/

def confidenceStr : MatchConfidence → String
  | .exact => "exact"
  | .operator => "operator"
  | .probable => "probable"
  | .ambiguous => "ambiguous"

def parseConfidence (raw : String) : Option MatchConfidence :=
  if raw = "exact" then some .exact
  else if raw = "operator" then some .operator
  else if raw = "probable" then some .probable
  else if raw = "ambiguous" then some .ambiguous
  else none

theorem parseConfidence_confidenceStr (c : MatchConfidence) :
    parseConfidence (confidenceStr c) = some c := by
  cases c <;> rfl

namespace MaterializationStrategy

def fromStr (value : String) : Except String MaterializationStrategy :=
  if value = "reflink" then .ok .reflink
  else if value = "hardlink" then .ok .hardlink
  else if value = "copy" then .ok .copy
  else .error ("unknown materialization strategy `" ++ value ++ "`")

theorem fromStr_asStr (s : MaterializationStrategy) : fromStr s.asStr = .ok s := by
  cases s <;> rfl

end MaterializationStrategy

namespace MatchEvidence

def toJson (e : MatchEvidence) : Json := .obj
  [("size_matches", .bool e.sizeMatches), ("name_matches", .bool e.nameMatches),
    ("candidates_with_matching_size", .ofNat e.candidatesWithMatchingSize),
    ("piece_verified", .bool e.pieceVerified)]

def ofJson (j : Json) : Option MatchEvidence := do
  let sizeMatches ← (j.get "size_matches").bind Json.asBool
  let nameMatches ← (j.get "name_matches").bind Json.asBool
  let candidatesWithMatchingSize ← (j.get "candidates_with_matching_size").bind Json.asNat
  let pieceVerified ← (j.get "piece_verified").bind Json.asBool
  pure ⟨sizeMatches, nameMatches, candidatesWithMatchingSize, pieceVerified⟩

theorem ofJson_toJson (e : MatchEvidence) : ofJson e.toJson = some e := by
  simp [ofJson, toJson, Json.get, Json.asBool]

end MatchEvidence

/-! ## Rows -/

/-- One row of `repair_job_files`, column by column; a column of JSON holds what its text says. -/
structure StoredFile where
  jobId : JobId
  torrentPath : String
  lengthBytes : ℤ
  sourcePath : Option String
  matchConfidence : Option String
  matchEvidence : Option Json
  materializedAs : Option String
  recheckProgress : Option ℚ

/-- The values a new plan binds for one file. -/
def bindPlannedFile (id : JobId) (file : PlannedFile) : StoredFile where
  jobId := id
  torrentPath := file.torrentPath.asStr
  lengthBytes := asI64 file.length
  sourcePath := file.source.map PathBuf.toStringLossy
  matchConfidence := file.confidence.map confidenceStr
  matchEvidence := file.evidence.map MatchEvidence.toJson
  materializedAs := file.materializedAs.map MaterializationStrategy.asStr
  recheckProgress := none

def readStoredFile (id : JobId) (row : StoredFile) : Except StoreError PlannedFile := do
  let torrentPath ← (SafeRelativePath.parse row.torrentPath).mapError fun e =>
    StoreError.corrupt id ("torrent_path: " ++ e.toText)
  let materializedAs ← row.materializedAs.mapM fun raw =>
    (MaterializationStrategy.fromStr raw).mapError (StoreError.corrupt id)
  pure {
    torrentPath
    length := asU64 row.lengthBytes
    source := row.sourcePath.map PathBuf.ofString
    confidence := row.matchConfidence.bind parseConfidence
    evidence := row.matchEvidence.bind MatchEvidence.ofJson
    materializedAs
    recheckProgress := row.recheckProgress }

/-- A row of the model as its columns have it. -/
def FileRow.stored (r : FileRow) : StoredFile where
  jobId := r.jobId
  torrentPath := r.torrentPath.asStr
  lengthBytes := r.lengthBytes
  sourcePath := r.sourcePath
  matchConfidence := r.matchConfidence.map confidenceStr
  matchEvidence := r.matchEvidence.map MatchEvidence.toJson
  materializedAs := r.materializedAs.map MaterializationStrategy.asStr
  recheckProgress := r.recheckProgress

/-- A row is written as its plan says. -/
theorem stored_writePlannedFile (id : JobId) (file : PlannedFile) :
    (writePlannedFile id file).stored = bindPlannedFile id file := by
  rfl

/-- Every column is read back as what it was written for. -/
theorem readStoredFile_stored (id : JobId) (r : FileRow) :
    readStoredFile id r.stored = .ok (readPlannedFile r) := by
  have hstrategy : (r.stored.materializedAs.mapM fun raw => (MaterializationStrategy.fromStr raw).mapError
      (StoreError.corrupt id)) = .ok r.materializedAs := by
    cases hs : r.materializedAs with
    | none =>
      rw [FileRow.stored, hs]
      rfl
    | some strategy =>
      rw [FileRow.stored, hs]
      change (Except.mapError _ (MaterializationStrategy.fromStr strategy.asStr) >>= _) = _
      rw [MaterializationStrategy.fromStr_asStr]
      rfl
  have hconfidence : r.stored.matchConfidence.bind parseConfidence = r.matchConfidence := by
    rw [FileRow.stored, Option.bind_map]
    cases r.matchConfidence with
    | none => rfl
    | some confidence => exact parseConfidence_confidenceStr confidence
  have hevidence : r.stored.matchEvidence.bind MatchEvidence.ofJson = r.matchEvidence := by
    rw [FileRow.stored, Option.bind_map]
    cases r.matchEvidence with
    | none => rfl
    | some evidence => exact MatchEvidence.ofJson_toJson evidence
  have hpath : SafeRelativePath.parse r.stored.torrentPath = .ok r.torrentPath :=
    r.torrentPath.parse_asStr
  unfold readStoredFile
  rw [hpath, hstrategy, hconfidence, hevidence]
  rfl

namespace SqliteRepairStore

/-- The plan of one job as it is read column by column, ordered by path. -/
def readPlan (s : SqliteRepairStore) (id : JobId) : Except StoreError (List PlannedFile) :=
  (((s.fileRows id).map FileRow.stored).insertionSort fun a b => a.torrentPath ≤ b.torrentPath).mapM
    (readStoredFile id)

theorem readPlan_eq (s : SqliteRepairStore) (id : JobId) : s.readPlan id = .ok (s.plannedFiles id) := by
  have hsorted : ((s.fileRows id).map FileRow.stored).insertionSort
      (fun a b => a.torrentPath ≤ b.torrentPath) =
      ((s.fileRows id).insertionSort fun a b => a.torrentPath.str ≤ b.torrentPath.str).map
        FileRow.stored := by
    rw [List.map_insertionSort (fun a b : FileRow => a.torrentPath.str ≤ b.torrentPath.str)
      (fun a b : StoredFile => a.torrentPath ≤ b.torrentPath) _ _ fun _ _ _ _ => Iff.rfl]
  rw [readPlan, hsorted, List.mapM_map, plannedFiles]
  have hread : readStoredFile id ∘ FileRow.stored = fun r => pure (readPlannedFile r) :=
    funext fun r => readStoredFile_stored id r
  rw [hread, List.mapM_pure]
  rfl

end SqliteRepairStore

/-! ## What is kept of a plan -/

/-- What is read back of a planned file: everything, but a length beyond the limit of its column as
    the limit; where the source is text, and the progress of a recheck is not part of the plan. -/
structure Kept (file got : PlannedFile) : Prop where
  torrentPath : got.torrentPath = file.torrentPath
  length : got.length = min file.length i64Max
  source : (∀ path, file.source = some path → path.toStr ≠ none) → got.source = file.source
  confidence : got.confidence = file.confidence
  evidence : got.evidence = file.evidence
  materializedAs : got.materializedAs = file.materializedAs
  recheckProgress : file.recheckProgress = none → got.recheckProgress = none

theorem kept_readPlannedFile (id : JobId) (file : PlannedFile) :
    Kept file (readPlannedFile (writePlannedFile id file)) where
  torrentPath := rfl
  length := Int.toNat_natCast _
  source htext := by
    cases hsource : file.source with
    | none => simp [readPlannedFile, writePlannedFile, hsource]
    | some path =>
      obtain ⟨text, hread⟩ := Option.ne_none_iff_exists'.1 (htext path hsource)
      have hkept : PathBuf.ofString path.toStringLossy = path := by
        rw [PathBuf.toStringLossy, hread]
        exact PathBuf.ofString_of_toStr hread
      simp [readPlannedFile, writePlannedFile, hsource, hkept]
  confidence := rfl
  evidence := rfl
  materializedAs := rfl
  recheckProgress _ := rfl

/-- What is kept whole. -/
theorem Kept.eq {file got : PlannedFile} (h : Kept file got) (hlength : file.length ≤ i64Max)
    (hsource : ∀ path, file.source = some path → path.toStr ≠ none)
    (hprogress : file.recheckProgress = none) : got = file := by
  have hlen := h.length
  rw [min_eq_left hlength] at hlen
  have hpath := h.torrentPath
  have hsame := h.source hsource
  have hconfidence := h.confidence
  have hevidence := h.evidence
  have hstrategy := h.materializedAs
  have hnone := (h.recheckProgress hprogress).trans hprogress.symm
  cases file
  cases got
  simp_all

/-- A file of the torrent at its place, matched and staged. -/
def stagedPilot (path : SafeRelativePath) (length : ℕ) : PlannedFile :=
  ⟨path, length, some plainPath, some .probable, some ⟨true, true, 1, false⟩, some .hardlink, none⟩

def setPlan (files : List PlannedFile) : TransitionUpdate :=
  ⟨none, none, { JobPatch.default with files := some files }⟩

/-- Whether the store takes a plan. -/
def takesFiles (files : List PlannedFile) : Bool :=
  match pilotStore.apply 0 ⟨1⟩ advanceToMatched (setPlan files) with
  | .ok (.applied, _) => true
  | _ => false

theorem exists_takenFiles {files : List PlannedFile} (h : takesFiles files = true) :
    ∃ s', pilotStore.apply 0 ⟨1⟩ advanceToMatched (setPlan files) = .ok (.applied, s') := by
  unfold takesFiles at h
  split at h
  · rename_i s' happly
    exact ⟨s', happly⟩
  · cases h

/-- The two files of a torrent. -/
def firstPilot : PlannedFile := stagedPilot (.ofComponent "a.mkv" rfl) 7

def secondPilot : PlannedFile := stagedPilot (.ofComponent "b.mkv" rfl) 5

end SeedMedic
