/-
  Library files, how sure a match is, and the plan for a whole torrent
  (`library/domain.rs`, `library/ports.rs`).
-/
import SeedMedic.Lib.Json
import SeedMedic.Torrent.Domain

namespace SeedMedic

open Lib

/-- Where a candidate came from. -/
inductive CandidateOrigin where
  | sonarr (inst : String)
  | radarr (inst : String)
  | filesystem (root : PathBuf)
  deriving DecidableEq

/-- A library file that might be what a torrent wants. -/
structure Candidate where
  path : PathBuf
  sizeBytes : ℕ
  origin : CandidateOrigin
  deriving DecidableEq

/-- The last component of the path, where it is text. -/
def Candidate.fileName (c : Candidate) : String :=
  (c.path.fileName.bind fun name => PathBuf.toStr ⟨name⟩).getD ""

/-- What a review page shows of a candidate. -/
structure CandidateSummary where
  path : PathBuf
  origin : CandidateOrigin
  deriving DecidableEq

def CandidateSummary.ofCandidate (c : Candidate) : CandidateSummary := ⟨c.path, c.origin⟩

inductive MatchConfidence where
  /-- Several plausible candidates, or one that only agrees on size. -/
  | ambiguous
  /-- A single candidate agreeing on size and name. -/
  | probable
  /-- An operator's choice. -/
  | operator
  /-- Verified against the torrent's piece hashes. -/
  | exact
  deriving DecidableEq

namespace MatchConfidence

def rank : MatchConfidence → ℕ
  | ambiguous => 0
  | probable => 1
  | operator => 2
  | exact => 3

instance : LT MatchConfidence := ⟨fun a b => a.rank < b.rank⟩

instance (a b : MatchConfidence) : Decidable (a < b) := inferInstanceAs (Decidable (_ < _))

/-- The smaller of two confidences. -/
def min (a b : MatchConfidence) : MatchConfidence := if b < a then b else a

end MatchConfidence

/-- Why a match is believed. -/
structure MatchEvidence where
  sizeMatches : Bool
  nameMatches : Bool
  candidatesWithMatchingSize : ℕ
  pieceVerified : Bool
  deriving DecidableEq

/-- One torrent file paired with the library file chosen for it. -/
structure FileMatch where
  torrentPath : SafeRelativePath
  length : ℕ
  source : PathBuf
  origin : CandidateOrigin
  confidence : MatchConfidence
  evidence : MatchEvidence
  deriving DecidableEq

inductive UnmatchedReason where
  | noCandidate
  | ambiguous (candidates : List CandidateSummary)
  deriving DecidableEq

structure UnmatchedFile where
  torrentPath : SafeRelativePath
  length : ℕ
  reason : UnmatchedReason
  deriving DecidableEq

structure MatchPlan where
  matched : List FileMatch
  unmatched : List UnmatchedFile
  deriving DecidableEq

namespace MatchPlan

def empty : MatchPlan := ⟨[], []⟩

/-- The weakest confidence of a matched file. -/
def lowestConfidence (p : MatchPlan) : Option MatchConfidence :=
  match p.matched with
  | [] => none
  | m :: ms => some (ms.foldl (fun acc f => acc.min f.confidence) m.confidence)

end MatchPlan

inductive CandidateError where
  | notImplemented (details : NotImplemented)
  | transport (detail : String)
  | protocol (detail : String)
  | io (detail : String)

namespace CandidateError

def toText : CandidateError → String
  | notImplemented d => d.toText
  | transport s => "candidate lookup failed: " ++ s
  | protocol s => "candidate source returned data we cannot interpret: " ++ s
  | io s => "failed to read the media library: " ++ s

def isTransient : CandidateError → Bool
  | transport _ | io _ => true
  | _ => false

end CandidateError

/-! ## The audit form of what was offered -/

/-- A path as a JSON string; a path that is not text has none. -/
def pathToJson (p : PathBuf) : Option Json := p.toStr.map .str

def CandidateOrigin.toJson : CandidateOrigin → Option Json
  | sonarr i => some (.obj [("kind", .str "sonarr"), ("instance", .str i)])
  | radarr i => some (.obj [("kind", .str "radarr"), ("instance", .str i)])
  | filesystem r => (pathToJson r).map fun r => .obj [("kind", .str "filesystem"), ("root", r)]

def CandidateOrigin.ofJson (j : Json) : Option CandidateOrigin :=
  match j.get "kind" with
  | some (.str "sonarr") => ((j.get "instance").bind Json.asStr).map sonarr
  | some (.str "radarr") => ((j.get "instance").bind Json.asStr).map radarr
  | some (.str "filesystem") =>
    ((j.get "root").bind Json.asStr).map fun r => filesystem (.ofString r)
  | _ => none

def CandidateSummary.toJson (c : CandidateSummary) : Option Json :=
  match pathToJson c.path, c.origin.toJson with
  | some p, some o => some (.obj [("path", p), ("origin", o)])
  | _, _ => none

def CandidateSummary.ofJson (j : Json) : Option CandidateSummary :=
  match (j.get "path").bind Json.asStr, (j.get "origin").bind CandidateOrigin.ofJson with
  | some p, some o => some ⟨.ofString p, o⟩
  | _, _ => none

def UnmatchedReason.toJson : UnmatchedReason → Option Json
  | noCandidate => some (.str "no_candidate")
  | ambiguous cs => (cs.mapM CandidateSummary.toJson).map fun cs =>
      .obj [("ambiguous", .obj [("candidates", .arr cs)])]

def UnmatchedReason.ofJson : Json → Option UnmatchedReason
  | .str "no_candidate" => some noCandidate
  | j => ((((j.get "ambiguous").bind (Json.get · "candidates")).bind Json.asArray).bind
      fun cs => cs.mapM CandidateSummary.ofJson).map ambiguous

/-- A path that was recorded is read back as it was. -/
theorem ofString_of_toJson {p : PathBuf} {j : Json} (h : pathToJson p = some j) :
    ∃ s, j = .str s ∧ PathBuf.ofString s = p := by
  simp only [pathToJson, Option.map_eq_some_iff] at h
  obtain ⟨s, hs, rfl⟩ := h
  refine ⟨s, rfl, ?_⟩
  simp only [PathBuf.toStr, String.fromUTF8?] at hs
  split_ifs at hs
  cases hs
  rfl

theorem CandidateOrigin.ofJson_toJson {o : CandidateOrigin} {j : Json} (h : o.toJson = some j) :
    CandidateOrigin.ofJson j = some o := by
  cases o with
  | sonarr i => cases h; rfl
  | radarr i => cases h; rfl
  | filesystem r =>
    simp only [toJson, Option.map_eq_some_iff] at h
    obtain ⟨jr, hr, rfl⟩ := h
    obtain ⟨s, rfl, rfl⟩ := ofString_of_toJson hr
    rfl

theorem CandidateSummary.ofJson_toJson {c : CandidateSummary} {j : Json} (h : c.toJson = some j) :
    CandidateSummary.ofJson j = some c := by
  unfold toJson at h
  split at h
  · rename_i p o hp ho
    cases h
    obtain ⟨s, rfl, hs⟩ := ofString_of_toJson hp
    have hget : (Json.obj [("path", .str s), ("origin", o)]).get "origin" = some o := rfl
    simp only [ofJson, hget, Option.bind_some, CandidateOrigin.ofJson_toJson ho]
    obtain ⟨p, og⟩ := c
    exact congrArg some (congrArg (CandidateSummary.mk · og) hs)
  · cases h

theorem mapM_ofJson_toJson : ∀ {cs : List CandidateSummary} {js : List Json},
    cs.mapM CandidateSummary.toJson = some js → js.mapM CandidateSummary.ofJson = some cs
  | [], js, h => by
    simp only [List.mapM_nil] at h
    cases h; rfl
  | c :: cs, js, h => by
    simp only [List.mapM_cons, bind, Option.bind_eq_some_iff, pure, Option.some.injEq] at h
    obtain ⟨j, hj, js', hjs, rfl⟩ := h
    simp only [List.mapM_cons, CandidateSummary.ofJson_toJson hj, mapM_ofJson_toJson hjs]
    rfl

/-- The reason a file was left unmatched is read back as it was recorded. -/
theorem UnmatchedReason.ofJson_toJson {r : UnmatchedReason} {j : Json} (h : r.toJson = some j) :
    UnmatchedReason.ofJson j = some r := by
  cases r with
  | noCandidate => cases h; rfl
  | ambiguous cs =>
    simp only [toJson, Option.map_eq_some_iff] at h
    obtain ⟨js, hjs, rfl⟩ := h
    show ((js.mapM CandidateSummary.ofJson).map ambiguous) = _
    rw [mapM_ofJson_toJson hjs]
    rfl

end SeedMedic
