/-
  Deterministic matching of torrent files to library files (`library/matching.rs`).
-/
import SeedMedic.Library.Domain
import Mathlib.Data.List.Sort

namespace SeedMedic

open Lib

/-- The white space of Unicode. -/
def isWhitespace (c : Char) : Bool :=
  (0x09 ≤ c.val && c.val ≤ 0x0D) || c.val = 0x20 || c.val = 0x85 || c.val = 0xA0 ||
    c.val = 0x1680 || (0x2000 ≤ c.val && c.val ≤ 0x200A) || c.val = 0x2028 || c.val = 0x2029 ||
    c.val = 0x202F || c.val = 0x205F || c.val = 0x3000

/-- The words between white space. -/
def splitWhitespace (cs : List Char) : List (List Char) :=
  (cs.splitOnP isWhitespace).filter fun w => w ≠ []

/-- A file name without its last extension; nothing where it is no name. -/
def fileStem (name : List Char) : Option (List Char) :=
  if name = [] ∨ name = ['.'] ∨ name = ['.', '.'] then none
  else
    -- the part before the last full stop, unless that is all there is
    match name.reverse.dropWhile fun c => c ≠ '.' with
    | [] | ['.'] => some name
    | _ :: before => some before.reverse

def normalizeName (name : String) : String :=
  let stem := (fileStem name.toList).getD name.toList
  let spaced := stem.map fun c => if c = '.' ∨ c = '_' then ' ' else c.toLower
  String.ofList ([' '].intercalate (splitWhitespace spaced))

/-- Names agree up to extension, case and the choice of word separator. -/
def namesAgree (left right : String) : Bool := normalizeName left = normalizeName right

/-- The last component of a torrent path. -/
def wantedName (path : SafeRelativePath) : String := ((splitParts path.asStr).getLast?).getD ""

/-- The candidates of the file's size, ordered by path. -/
def sizedCandidates (candidates : List Candidate) (file : TorrentFile) : List Candidate :=
  (candidates.filter fun c => c.sizeBytes = file.length).insertionSort fun a b => a.path.le b.path

/-- What one torrent file is paired with. -/
def planFile (candidates : List Candidate) (file : TorrentFile) : FileMatch ⊕ UnmatchedFile :=
  let sized := sizedCandidates candidates file
  let nameMatches := fun c : Candidate => namesAgree c.fileName (wantedName file.path)
  let pick := fun (chosen : Candidate) (confidence : MatchConfidence) =>
    Sum.inl { torrentPath := file.path, length := file.length, source := chosen.path,
              origin := chosen.origin, confidence,
              evidence := ⟨true, nameMatches chosen, sized.length, false⟩ }
  match sized, sized.filter nameMatches with
  | [], _ => .inr ⟨file.path, file.length, .noCandidate⟩
  -- one candidate, or one of several, that agrees on size and name
  | _, [named] => pick named .probable
  -- one candidate of the right size whose name disagrees
  | [only], [] => pick only .ambiguous
  | _, _ => .inr ⟨file.path, file.length, .ambiguous (sized.map .ofCandidate)⟩

def MatchPlan.push (plan : MatchPlan) : FileMatch ⊕ UnmatchedFile → MatchPlan
  | .inl m => { plan with matched := plan.matched ++ [m] }
  | .inr u => { plan with unmatched := plan.unmatched ++ [u] }

/-- Pair every torrent file with the best candidate there is. -/
def planMatches (files : List TorrentFile) (candidates : List Candidate) : MatchPlan :=
  files.foldl (fun plan file => plan.push (planFile candidates file)) .empty

/-! ## What a plan says of each file -/

theorem foldl_push (candidates : List Candidate) (files : List TorrentFile) :
    ∀ plan : MatchPlan, files.foldl (fun plan file => plan.push (planFile candidates file)) plan =
      ⟨plan.matched ++ files.filterMap fun f => (planFile candidates f).getLeft?,
        plan.unmatched ++ files.filterMap fun f => (planFile candidates f).getRight?⟩ := by
  induction files with
  | nil => intro plan; simp
  | cons f files ih =>
    intro plan
    rw [List.foldl_cons, ih]
    cases h : planFile candidates f <;> simp [MatchPlan.push, h]

/-- The matched files, in the order of the torrent. -/
theorem planMatches_matched (files : List TorrentFile) (candidates : List Candidate) :
    (planMatches files candidates).matched =
      files.filterMap fun f => (planFile candidates f).getLeft? := by
  simp [planMatches, foldl_push, MatchPlan.empty]

/-- The files left unmatched, in the order of the torrent. -/
theorem planMatches_unmatched (files : List TorrentFile) (candidates : List Candidate) :
    (planMatches files candidates).unmatched =
      files.filterMap fun f => (planFile candidates f).getRight? := by
  simp [planMatches, foldl_push, MatchPlan.empty]

theorem mem_sizedCandidates {candidates : List Candidate} {file : TorrentFile} {c : Candidate} :
    c ∈ sizedCandidates candidates file ↔ c ∈ candidates ∧ c.sizeBytes = file.length := by
  simp [sizedCandidates]

/-- A match names its file and a candidate of the file's size. -/
theorem planFile_inl {candidates : List Candidate} {file : TorrentFile} {m : FileMatch}
    (h : planFile candidates file = .inl m) :
    m.torrentPath = file.path ∧ m.length = file.length ∧
      ∃ c ∈ candidates, c.sizeBytes = file.length ∧ m.source = c.path ∧ m.origin = c.origin := by
  unfold planFile at h
  simp only at h
  split at h
  · cases h
  · rename_i named hnamed _
    cases h
    have hmem : named ∈ sizedCandidates candidates file :=
      List.mem_of_mem_filter (hnamed ▸ List.mem_singleton_self named)
    obtain ⟨hc, hs⟩ := mem_sizedCandidates.1 hmem
    exact ⟨rfl, rfl, named, hc, hs, rfl, rfl⟩
  · rename_i only hsized _
    cases h
    have hmem : only ∈ sizedCandidates candidates file := hsized ▸ List.mem_singleton_self only
    obtain ⟨hc, hs⟩ := mem_sizedCandidates.1 hmem
    exact ⟨rfl, rfl, only, hc, hs, rfl, rfl⟩
  · cases h

theorem planFile_inr {candidates : List Candidate} {file : TorrentFile} {u : UnmatchedFile}
    (h : planFile candidates file = .inr u) : u.torrentPath = file.path ∧ u.length = file.length := by
  unfold planFile at h
  simp only at h
  split at h <;> cases h <;> exact ⟨rfl, rfl⟩

/-- A plan speaks of every file once. -/
theorem planMatches_paths (files : List TorrentFile) (candidates : List Candidate) :
    ((planMatches files candidates).matched.map FileMatch.torrentPath ++
      (planMatches files candidates).unmatched.map UnmatchedFile.torrentPath).Perm
        (files.map TorrentFile.path) := by
  rw [planMatches_matched, planMatches_unmatched]
  induction files with
  | nil => exact List.Perm.refl _
  | cons f files ih =>
    cases h : planFile candidates f with
    | inl m =>
      rw [List.filterMap_cons_some (by rw [h]; rfl), List.filterMap_cons_none (by rw [h]; rfl)]
      rw [List.map_cons, List.map_cons, (planFile_inl h).1, List.cons_append]
      exact ih.cons _
    | inr u =>
      rw [List.filterMap_cons_none (by rw [h]; rfl), List.filterMap_cons_some (by rw [h]; rfl)]
      rw [List.map_cons, List.map_cons, (planFile_inr h).1]
      exact List.perm_middle.trans (ih.cons _)

end SeedMedic
