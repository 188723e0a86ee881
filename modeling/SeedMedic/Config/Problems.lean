/-
  What can be wrong with a configuration, with and without looking at the disk
  (`config/mod.rs`, `staging/domain.rs`).
-/
import SeedMedic.Config.Domain

namespace SeedMedic

open Lib

inductive Severity where
  | error
  | warning
  deriving DecidableEq

/-- One thing wrong, with the dotted key it is about where there is one. -/
structure Problem where
  key : Option String
  severity : Severity
  message : String
  deriving DecidableEq

namespace Problem

def error (key message : String) : Problem := ⟨some key, .error, message⟩
def warning (key message : String) : Problem := ⟨some key, .warning, message⟩
def globalError (message : String) : Problem := ⟨none, .error, message⟩
def globalWarning (message : String) : Problem := ⟨none, .warning, message⟩

end Problem

/-- The errors among the problems, as one; warnings never fail. -/
def asResult (problems : List Problem) : Except ConfigError Unit :=
  let messages := (problems.filter fun p => p.severity = .error).map (·.message)
  if messages = [] then .ok () else .error (.invalid ("\n".intercalate messages))

theorem asResult_eq_ok {problems : List Problem} :
    asResult problems = .ok () ↔ ∀ p ∈ problems, p.severity ≠ .error := by
  unfold asResult
  simp only [List.map_eq_nil_iff, List.filter_eq_nil_iff, decide_eq_true_eq]
  split_ifs with h
  · simpa using h
  · rw [false_iff]
    exact h

/-- Where the `i`-th entry of a repeated section keeps a field. -/
def rowKey (name : String) (i : ℕ) (field : String) : String :=
  name ++ "." ++ toString i ++ "." ++ field

/-- Names met so far, and what each variable suffix was made from. -/
structure NamesSeen where
  names : List String
  suffixes : List (String × String)

/-- The problems of one name, given the names before it. -/
def nameProblems (name field : String) (index : ℕ) (value : String) (seen : NamesSeen) :
    List Problem × NamesSeen :=
  let key := rowKey name index field
  if trim value = "" then
    ([.error key ("every " ++ name ++ " needs a non-empty `" ++ field ++ "`")], seen)
  else
    let twice := if value ∈ seen.names then
      [.error key (name ++ " " ++ field ++ " `" ++ value ++ "` is used twice")] else []
    let names := value :: seen.names
    match (seen.suffixes.find? fun s => s.1 = shouty value).map (·.2) with
    | some other =>
      if other ≠ value then
        (twice ++ [.error key (name ++ " " ++ field ++ " `" ++ value ++ "` and `" ++ other ++
          "` both become `" ++ shouty value ++
          "` as an environment variable suffix, which collides")], { seen with names })
      else (twice, { seen with names })
    | none => (twice, ⟨names, (shouty value, value) :: seen.suffixes⟩)

/-- Every name of a repeated section must be there, be unique, and give a suffix of its own. -/
def repeatedNameProblems (name field : String) : ℕ → List String → NamesSeen → List Problem
  | _, [], _ => []
  | index, value :: values, seen =>
    let (problems, seen) := nameProblems name field index value seen
    problems ++ repeatedNameProblems name field (index + 1) values seen

namespace Config

/-- Where an operator is sent to make a setting. -/
def SETTINGS_URL : String := "/settings"

variable (host : ConfigHost) (c : Config)

def serverProblems : List Problem :=
  (match host.parseSocketAddr c.server.bindAddress with
    | .ok () => []
    | .error e => [.error "server.bind_address" ("server.bind_address `" ++ c.server.bindAddress ++
        "` is not a socket address: " ++ e)]) ++
  if c.server.authToken.isEmpty then
    [.warning "server.auth_token" ("server.auth_token is unset; anyone who can reach this port " ++
      "can change where SeedMedic writes — see " ++ SETTINGS_URL)]
  else []

def trackerProblems : List Problem :=
  (if c.trackers = [] then
    [.globalWarning ("no [[trackers]] entry is configured; correct for a fresh install, but " ++
      "discovery will find nothing until at least one is set")] else []) ++
  repeatedNameProblems "trackers" "id" 0 (c.trackers.map (·.id)) ⟨[], []⟩ ++
  (if (c.trackers.any fun t => t.kind = .fake) && c.trackers.any fun t => t.kind ≠ .fake then
    [.globalError ("trackers mix a `fake` tracker with a real one; the torrent decoder is " ++
      "chosen for the whole build, so the fake tracker's demo torrents will fail to parse")]
    else []) ++
  c.trackers.zipIdx.flatMap fun (t, index) =>
    if t.kind = .fake && !host.fakes then
      [.error (rowKey "trackers" index "kind") ("tracker `" ++ t.id ++ "` is configured as " ++
        "`fake`, but this build has the `fakes` feature disabled")]
    else []

def stagingProblems : List Problem :=
  (if isUnset c.staging.root then
    [.warning "staging.root" ("staging.root is unset; no repair can be materialized until it is " ++
      "set — see " ++ SETTINGS_URL)]
  else if !isAbsolute c.staging.root then
    [.error "staging.root" ("staging.root `" ++ c.staging.root.toStringLossy ++
      "` must be an absolute path")]
  else []) ++
  if c.staging.minFreeBytes = 0 then
    [.warning "staging.min_free_bytes"
      "staging.min_free_bytes is 0, disabling the free-space margin it exists for"]
  else []

def libraryProblems : List Problem :=
  (c.library.roots.zipIdx.flatMap fun (root, index) =>
    if !isAbsolute root then
      [.error ("library.roots." ++ toString index) ("library root `" ++ root.toStringLossy ++
        "` must be an absolute path")]
    else []) ++
  if c.arr = [] ∧ c.library.roots = [] then
    [.globalWarning ("no candidate source is configured (`[[arr]]` or `library.roots`); correct " ++
      "for a fresh install, but SeedMedic will not find anything to repair until one is set")]
  else []

/-- The tracker is asked no more often than this. -/
def MIN_TRACKER_POLL_SECONDS : ℕ := 60

def policyProblems : List Problem :=
  let p := c.policy
  (if !(p.preferReflink || p.allowHardlink || p.allowCopy) then
    [.globalError ("policy permits no materialization strategy; enable at least one of " ++
      "prefer_reflink, allow_copy, allow_hardlink")] else []) ++
  (if p.maxAttempts = 0 then
    [.error "policy.max_attempts" "policy.max_attempts must be at least 1"] else []) ++
  (if p.retryMaxSeconds < p.retryBaseSeconds then
    [.error "policy.retry_max_seconds"
      "policy.retry_max_seconds must be at least retry_base_seconds"] else []) ++
  (if p.recheckPollMaxSeconds < p.recheckPollSeconds then
    [.error "policy.recheck_poll_max_seconds"
      "policy.recheck_poll_max_seconds must be at least recheck_poll_seconds"] else []) ++
  (if p.recheckTimeoutSeconds = 0 then
    [.error "policy.recheck_timeout_seconds" "policy.recheck_timeout_seconds must be at least 1"]
  else if p.recheckTimeoutSeconds < p.recheckPollMaxSeconds then
    [.warning "policy.recheck_timeout_seconds" ("policy.recheck_timeout_seconds (" ++
      toString p.recheckTimeoutSeconds ++ ") is less than recheck_poll_max_seconds (" ++
      toString p.recheckPollMaxSeconds ++ "); a recheck times out before it can be polled a " ++
      "second time")]
  else []) ++
  (if p.verificationPieces = 0 then
    [.warning "policy.verification_pieces" ("policy.verification_pieces is 0, disabling piece " ++
      "verification; no match can exceed `probable` confidence")] else []) ++
  (if p.minMatchConfidence = .exact then
    [.warning "policy.min_match_confidence" ("policy.min_match_confidence = \"exact\" requires " ++
      "piece-verified matches; until docs/todos/0005-media-matching.md lands, no candidate can " ++
      "reach that confidence, so every repair will park for review")] else []) ++
  (if p.maxConsecutiveUnknownTrackerStatus = 0 then
    [.error "policy.max_consecutive_unknown_tracker_status"
      "policy.max_consecutive_unknown_tracker_status must be at least 1"] else []) ++
  (if p.trackerPollSeconds < p.trackerPollMinSeconds then
    [.error "policy.tracker_poll_min_seconds"
      "policy.tracker_poll_min_seconds must be at most tracker_poll_seconds"] else []) ++
  if p.trackerPollSeconds < MIN_TRACKER_POLL_SECONDS then
    [.error "policy.tracker_poll_seconds" ("policy.tracker_poll_seconds (" ++
      toString p.trackerPollSeconds ++ ") is below the minimum of " ++
      toString MIN_TRACKER_POLL_SECONDS ++
      "s; polling a private tracker this often risks a ban")]
  else []

def workerProblems : List Problem :=
  (if c.worker.batchSize < 1 then
    [.error "worker.batch_size" "worker.batch_size must be at least 1"] else []) ++
  (if c.worker.leaseSeconds = 0 then
    [.error "worker.lease_seconds" "worker.lease_seconds must be at least 1"] else []) ++
  if trim c.worker.owner = "" then [.error "worker.owner" "worker.owner must not be empty"] else []

def clientProblems : List Problem :=
  match c.downloadClient with
  | none => [.globalWarning ("no download_client is configured; correct for a fresh install, but " ++
      "no repair can be seeded until one is set — see " ++ SETTINGS_URL)]
  | some client =>
    (if client.baseUrl = placeholderUrl then
      [.warning "download_client.base_url"
        "download_client.base_url is still the http://localhost placeholder"] else []) ++
    if client.kind = .fake && !host.fakes then
      [.error "download_client.kind" ("download_client is configured as `fake`, but this build " ++
        "has the `fakes` feature disabled")]
    else []

def webhookProblems : List Problem :=
  match c.notifications.webhookUrl with
  | none => []
  | some url =>
    if url.scheme ≠ "http" ∧ url.scheme ≠ "https" then
      [.error "notifications.webhook_url" ("notifications.webhook_url `" ++ url.text ++
        "` must be http or https, not `" ++ url.scheme ++ "`")]
    else []

/-- Every problem found without looking at the disk. -/
def problems : List Problem :=
  c.serverProblems host ++ c.trackerProblems host ++ c.stagingProblems ++ c.libraryProblems ++
    c.policyProblems ++ c.workerProblems ++ c.clientProblems host ++
    repeatedNameProblems "arr" "name" 0 (c.arr.map (·.name)) ⟨[], []⟩ ++ c.webhookProblems

def validate : Except ConfigError Unit := asResult (c.problems host)

end Config

/-! ## Looking at the disk -/

/-- Paths are spelled from their components. -/
def ofComponents : List Component → PathBuf
  | .rootDir :: cs => ⟨PathBuf.slash :: [PathBuf.slash].intercalate (cs.map name)⟩
  | cs => ⟨[PathBuf.slash].intercalate (cs.map name)⟩
where
  /-- The bytes of one component. -/
  name : Component → List UInt8
    | .rootDir => []
    | .curDir => [PathBuf.dot]
    | .parentDir => [PathBuf.dot, PathBuf.dot]
    | .normal n => n

/-- The path without its last component. -/
def parentOf (p : PathBuf) : Option PathBuf :=
  match p.components.getLast? with
  | none | some .rootDir => none
  | some _ => some (ofComponents p.components.dropLast)

def startsWith (p base : PathBuf) : Bool := base.components.isPrefixOf p.components

/-- The deepest ancestor that is there, with the names below it; `fuel` bounds the climb. -/
def lexicalResolve (host : ConfigHost) (path : PathBuf) : PathBuf :=
  let (existing, remainder) := climb (path.components.length + 1) path []
  let resolved := (host.canonicalize existing).getD existing
  ofComponents (resolved.components ++ remainder)
where
  /-- Climb while nothing is there. -/
  climb : ℕ → PathBuf → List Component → PathBuf × List Component
    | 0, existing, remainder => (existing, remainder)
    | fuel + 1, existing, remainder =>
      if host.pathExists existing then (existing, remainder)
      else
        match existing.components.getLast?, parentOf existing with
        | some (.normal n), some parent => climb fuel parent (.normal n :: remainder)
        | _, _ => (existing, remainder)

inductive StagingRootError where
  | notAbsolute (path : PathBuf)
  | unusable (path : PathBuf) (reason : String)
  | overlapsLibrary (staging library : PathBuf)

def StagingRootError.toText : StagingRootError → String
  | notAbsolute p => "staging root must be an absolute path, got " ++ p.toStringLossy
  | unusable p r => "cannot use staging root " ++ p.toStringLossy ++ ": " ++ r
  | overlapsLibrary s l => "staging root " ++ s.toStringLossy ++ " overlaps media library root " ++
      l.toStringLossy ++ "; staging must be a separate directory"

/-- Whether one of two places lies in the other. -/
def overlap (a b : PathBuf) : Bool := startsWith a b || startsWith b a

/-- A staging root that overlaps no library root, without writing anything. -/
def checkOverlap (host : ConfigHost) (path : PathBuf) (libraryRoots : List PathBuf) :
    Except StagingRootError Unit :=
  if !isAbsolute path then .error (.notAbsolute path)
  else
    let staging := lexicalResolve host path
    match (libraryRoots.map (lexicalResolve host)).find? (overlap staging) with
    | some library => .error (.overlapsLibrary staging library)
    | none => .ok ()

/-- The path, or its nearest ancestor that is there; `fuel` bounds the climb. -/
def nearestExistingAncestor (host : ConfigHost) : ℕ → PathBuf → PathBuf
  | 0, current => current
  | fuel + 1, current =>
    if host.pathExists current then current
    else
      match parentOf current with
      | some parent => nearestExistingAncestor host fuel parent
      | none => current

def directoryIsWritable (host : ConfigHost) (path : PathBuf) : Bool :=
  match host.metadata path with
  | none => false
  | some m =>
    if host.euid = 0 then true
    else if m.uid = host.euid then m.mode &&& 0o200 ≠ 0
    else if m.gid = host.egid then m.mode &&& 0o020 ≠ 0
    else m.mode &&& 0o002 ≠ 0

namespace Config

variable (host : ConfigHost) (c : Config)

def trackerKeyProblems : List Problem :=
  c.trackers.zipIdx.flatMap fun (t, index) =>
    if t.kind = .unit3d && t.apiKey.isEmpty then
      [.error (rowKey "trackers" index "api_key") ("tracker `" ++ t.id ++ "` is a unit3d tracker " ++
        "and needs an api_key, set inline, via api_key_file, or via SEEDMEDIC_TRACKER_" ++
        shouty t.id ++ "_API_KEY")]
    else []

def clientLoginProblems : List Problem :=
  match c.downloadClient with
  | none => []
  | some client =>
    if client.kind = .qbittorrent && (client.username = "" || client.password.isEmpty) then
      [.error "download_client" ("download_client.kind = \"qbittorrent\" needs both username and " ++
        "password; password may be set inline, via password_file, or via " ++
        "SEEDMEDIC_DOWNLOAD_CLIENT_PASSWORD")]
    else []

def arrKeyProblems : List Problem :=
  c.arr.zipIdx.flatMap fun (a, index) =>
    if a.apiKey.isEmpty then
      [.error (rowKey "arr" index "api_key") ("arr instance `" ++ a.name ++ "` needs an api_key, " ++
        "set inline, via api_key_file, or via SEEDMEDIC_ARR_" ++ shouty a.name ++ "_API_KEY")]
    else []

def libraryDirProblems : List Problem :=
  c.library.roots.zipIdx.flatMap fun (root, index) =>
    match host.readDir root with
    | .ok () => []
    | .error e => [.error ("library.roots." ++ toString index) ("library root `" ++
        root.toStringLossy ++ "` is not a readable directory: " ++ e)]

def stagingDirProblems : List Problem :=
  if isUnset c.staging.root then []
  else
    (match checkOverlap host c.staging.root c.library.roots with
      | .ok () => []
      | .error e => [.error "staging.root" e.toText]) ++
    let ancestor :=
      nearestExistingAncestor host (c.staging.root.components.length + 1) c.staging.root
    if !directoryIsWritable host ancestor then
      [.error "staging.root" ("staging.root `" ++ c.staging.root.toStringLossy ++
        "` is not writable: `" ++ ancestor.toStringLossy ++ "` denies write access")]
    else []

/-- Every problem found by looking at the disk, which is not written. -/
def problemsOnDisk : List Problem :=
  c.trackerKeyProblems ++ c.clientLoginProblems ++ c.arrKeyProblems ++ c.libraryDirProblems host ++
    c.stagingDirProblems host ++
    if c.metrics.enabled && !host.metrics then
      [.warning "metrics.enabled" ("metrics.enabled = true, but this build does not have the " ++
        "`metrics` feature; no metrics will be collected")]
    else []

/-- The checks that need the disk. -/
def validateRuntime : Except ConfigError Unit := asResult (c.problemsOnDisk host)

end Config

end SeedMedic
