/-
  Library files that Sonarr and Radarr report (`library/adapters/arr.rs`).
-/
import SeedMedic.Config.Domain
import SeedMedic.Library.Filesystem

namespace SeedMedic

open Lib

/-- A directory as the reporting program sees it, and as it is seen here. -/
structure PathMapping where
  src : PathBuf
  dst : PathBuf

structure SonarrParseResponse where
  series : Option ℕ
  seasonNumber : Option ℤ

structure EpisodeFile where
  seasonNumber : ℤ
  path : String
  size : ℕ

structure MovieFile where
  path : String
  size : ℕ

/-- What the program answers to the requests that are made of it, each response parsed. -/
structure ArrApi where
  parseEpisode : String → Except CandidateError SonarrParseResponse
  episodeFile : ℕ → Except CandidateError (List EpisodeFile)
  /-- The movie a title is parsed into, if any. -/
  parseMovie : String → Except CandidateError (Option ℕ)
  movieFile : ℕ → Except CandidateError (List MovieFile)

/-- What the system answers of its files, links in the last step of a path followed or not. -/
structure LibraryView extends Filesystem.Answers where
  metadata : PathBuf → Except String Metadata

structure ArrCandidateSource where
  kind : ArrKind
  inst : String
  pathMappings : List PathMapping

namespace ArrCandidateSource

variable (a : ArrCandidateSource) (sys : LibraryView) (api : ArrApi)

def origin : CandidateOrigin :=
  match a.kind with
  | .sonarr => .sonarr a.inst
  | .radarr => .radarr a.inst

/-- The path here of a reported path, by the first mapping of a directory it is in. -/
def mapPath (reported : String) : PathBuf :=
  let path := PathBuf.ofString reported
  (a.pathMappings.findSome? fun mapping =>
    (path.stripPrefix mapping.src).map fun rest => mapping.dst.push rest.bytes).getD path

/-- A reported file that is there and has the reported size. -/
def verify (reportedPath : String) (size : ℕ) : Option Candidate :=
  let path := a.mapPath reportedPath
  match sys.metadata path with
  | .ok metadata => if metadata.len = size then some ⟨path, size, a.origin⟩ else none
  | .error _ => none

def findSonarrCandidates (title : String) : Except CandidateError (List Candidate) := do
  let parsed ← api.parseEpisode title
  match parsed.series with
  | none => pure []
  | some series =>
    let files ← api.episodeFile series
    pure ((files.filter fun file => parsed.seasonNumber.all (· = file.seasonNumber)).filterMap
      fun file => a.verify sys file.path file.size)

def findRadarrCandidates (title : String) : Except CandidateError (List Candidate) := do
  match ← api.parseMovie title with
  | none => pure []
  | some movie =>
    let files ← api.movieFile movie
    pure (files.filterMap fun file => a.verify sys file.path file.size)

def findCandidates (query : CandidateQuery) : Except CandidateError (List Candidate) :=
  match a.kind with
  | .sonarr => a.findSonarrCandidates sys api query.torrentName
  | .radarr => a.findRadarrCandidates sys api query.torrentName

variable {a sys api}

theorem verify_some {reportedPath : String} {size : ℕ} {c : Candidate}
    (h : a.verify sys reportedPath size = some c) :
    c.path = a.mapPath reportedPath ∧ ∃ m, sys.metadata c.path = .ok m ∧ m.len = c.sizeBytes := by
  unfold verify at h
  dsimp only at h
  split at h
  · rename_i m hlook
    split_ifs at h with hlen
    cases h
    exact ⟨rfl, m, hlook, hlen⟩
  · cases h

/-- Whatever is reported, a candidate leads to something of its size. -/
theorem findCandidates_leads {query : CandidateQuery} {found : List Candidate}
    (h : a.findCandidates sys api query = .ok found) :
    ∀ c ∈ found, ∃ m, sys.metadata c.path = .ok m ∧ m.len = c.sizeBytes := by
  intro c hc
  unfold findCandidates at h
  split at h
  · obtain ⟨parsed, -, h⟩ := bind_eq_ok.1 h
    split at h
    · cases h
      cases hc
    · obtain ⟨files, -, h⟩ := bind_eq_ok.1 h
      cases h
      obtain ⟨file, -, hfile⟩ := List.mem_filterMap.1 hc
      exact (verify_some hfile).2
  · obtain ⟨movie, -, h⟩ := bind_eq_ok.1 h
    split at h
    · cases h
      cases hc
    · obtain ⟨files, -, h⟩ := bind_eq_ok.1 h
      cases h
      obtain ⟨file, -, hfile⟩ := List.mem_filterMap.1 hc
      exact (verify_some hfile).2

end ArrCandidateSource

end SeedMedic
