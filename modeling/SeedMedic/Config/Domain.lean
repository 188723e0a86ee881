/-
  The configuration: its sections, their defaults, and where a secret's value
  comes from (`config/mod.rs`).
-/
import SeedMedic.Library.Matching
import SeedMedic.Repair.Worker

namespace SeedMedic

open Lib

/-! ## Text and paths -/

/-- Text without the white space around it. -/
def trim (s : String) : String :=
  String.ofList (((s.toList.dropWhile isWhitespace).reverse.dropWhile isWhitespace).reverse)

def isAbsolute (p : PathBuf) : Bool := p.bytes.head? = some PathBuf.slash

/-- Whether a path is no text at all, which stands for a setting that is not made. -/
def isUnset (p : PathBuf) : Bool := p.bytes.isEmpty

/-- A parsed address. -/
structure Url where
  text : String
  scheme : String
  deriving DecidableEq

/-- The value of `http://localhost`. -/
def placeholderUrl : Url := ⟨"http://localhost/", "http"⟩

/-! ## Secrets -/

/-- What the settings pages may know about a secret. -/
inductive SecretSource where
  | unset
  | environment (var : String)
  | file (path : PathBuf)
  /-- The only source the pages can change. -/
  | inline
  deriving DecidableEq

structure Secret where
  value : String
  source : SecretSource
  deriving DecidableEq

namespace Secret

def new (value : String) : Secret := ⟨value, if value = "" then .unset else .inline⟩

def default : Secret := ⟨"", .unset⟩

def isEmpty (s : Secret) : Bool := s.value = ""

/-- The bytes told apart by folding over all of them. -/
def differs (xs ys : List UInt8) : UInt8 :=
  (xs.zip ys).foldl (fun diff p => diff ||| (p.1 ^^^ p.2)) 0

def verify (s : Secret) (candidate : String) : Bool :=
  let expected := s.value.toByteArray.data.toList
  let candidate := candidate.toByteArray.data.toList
  if expected.length ≠ candidate.length then false else differs expected candidate = 0

end Secret

/-! ## The sections -/

structure ServerConfig where
  bindAddress : String
  authToken : Secret
  authTokenFile : Option PathBuf
  basePath : String
  deriving DecidableEq

def ServerConfig.default : ServerConfig := ⟨"0.0.0.0:9899", .default, none, ""⟩

/-- Empty, or one leading slash and no trailing one. -/
def normaliseBasePath (raw : String) : String :=
  let chars := (trim raw).toList.dropWhile fun c => c = '/'
  let trimmed := (chars.reverse.dropWhile fun c => c = '/').reverse
  if trimmed = [] then "" else String.ofList ('/' :: trimmed)

structure DatabaseConfig where
  path : PathBuf
  deriving DecidableEq

def DatabaseConfig.default : DatabaseConfig := ⟨.ofString "data/seedmedic.db"⟩

structure StagingConfig where
  /-- Empty where no staging area is set up. -/
  root : PathBuf
  minFreeBytes : ℕ
  deriving DecidableEq

def StagingConfig.default : StagingConfig := ⟨⟨[]⟩, 2 ^ 30⟩

structure LibraryConfig where
  roots : List PathBuf
  deriving DecidableEq

def LibraryConfig.default : LibraryConfig := ⟨[]⟩

structure PolicyConfig where
  autoResume : AutoResume
  minMatchConfidence : MatchConfidence
  verificationPieces : ℕ
  preferReflink : Bool
  allowHardlink : Bool
  allowCopy : Bool
  maxAttempts : ℕ
  retryBaseSeconds : ℕ
  retryMaxSeconds : ℕ
  recheckPollSeconds : ℕ
  recheckPollMaxSeconds : ℕ
  recheckTimeoutSeconds : ℕ
  trackerPollSeconds : ℕ
  trackerPollMinSeconds : ℕ
  maxConsecutiveUnknownTrackerStatus : ℕ
  deriving DecidableEq

/-- The whole seconds of a span. -/
def asSecs (d : Duration) : ℕ := d / 1000000000

namespace PolicyConfig

def default : PolicyConfig :=
  let policy := SafetyPolicy.default
  { autoResume := policy.autoResume
    minMatchConfidence := policy.minMatchConfidence
    verificationPieces := policy.verificationPieces
    preferReflink := policy.materialization.preferReflink
    allowHardlink := policy.materialization.allowHardlink
    allowCopy := policy.materialization.allowCopy
    maxAttempts := policy.maxAttempts
    retryBaseSeconds := asSecs policy.retryBaseDelay
    retryMaxSeconds := asSecs policy.retryMaxDelay
    recheckPollSeconds := asSecs policy.recheckPollInterval
    recheckPollMaxSeconds := asSecs policy.recheckPollMaxInterval
    recheckTimeoutSeconds := asSecs policy.recheckTimeout
    trackerPollSeconds := asSecs policy.trackerPollInterval
    trackerPollMinSeconds := asSecs policy.trackerPollMinInterval
    maxConsecutiveUnknownTrackerStatus := policy.maxConsecutiveUnknownTrackerStatus }

def toPolicy (c : PolicyConfig) : SafetyPolicy where
  autoResume := c.autoResume
  minMatchConfidence := c.minMatchConfidence
  verificationPieces := c.verificationPieces
  materialization := ⟨c.preferReflink, c.allowHardlink, c.allowCopy⟩
  maxAttempts := c.maxAttempts
  retryBaseDelay := .fromSecs c.retryBaseSeconds
  retryMaxDelay := .fromSecs c.retryMaxSeconds
  recheckPollInterval := .fromSecs c.recheckPollSeconds
  recheckPollMaxInterval := .fromSecs c.recheckPollMaxSeconds
  recheckTimeout := .fromSecs c.recheckTimeoutSeconds
  trackerPollInterval := .fromSecs c.trackerPollSeconds
  trackerPollMinInterval := .fromSecs c.trackerPollMinSeconds
  maxConsecutiveUnknownTrackerStatus := c.maxConsecutiveUnknownTrackerStatus

/-- The defaults of the file are the defaults of the policy. -/
theorem toPolicy_default : default.toPolicy = SafetyPolicy.default := rfl

end PolicyConfig

structure WorkerSettings where
  owner : String
  leaseSeconds : ℕ
  batchSize : ℤ
  pollIntervalSeconds : ℕ
  discoveryIntervalSeconds : ℕ
  deriving DecidableEq

def WorkerSettings.default : WorkerSettings := ⟨"seedmedic", 300, 4, 10, 900⟩

def WorkerSettings.toWorkerConfig (w : WorkerSettings) : WorkerConfig :=
  ⟨w.owner, .fromSecs w.leaseSeconds, w.batchSize⟩

inductive TrackerKind where
  | unit3d
  /-- In memory, in builds that have it. -/
  | fake
  deriving DecidableEq

inductive TokenPlacement where
  | header
  | query
  deriving DecidableEq

structure TrackerConfig where
  /-- What jobs are filed under. -/
  id : String
  kind : TrackerKind
  baseUrl : Url
  apiKey : Secret
  apiKeyFile : Option PathBuf
  tokenPlacement : TokenPlacement
  deriving DecidableEq

inductive DownloadClientKind where
  | qbittorrent
  | fake
  deriving DecidableEq

structure DownloadClientConfig where
  kind : DownloadClientKind
  baseUrl : Url
  username : String
  password : Secret
  passwordFile : Option PathBuf
  category : Option String
  deriving DecidableEq

def DownloadClientConfig.default : DownloadClientConfig :=
  ⟨.qbittorrent, placeholderUrl, "", .default, none, some "seedmedic"⟩

inductive ArrKind where
  | sonarr
  | radarr
  deriving DecidableEq

structure PathMappingConfig where
  src : PathBuf
  dst : PathBuf
  deriving DecidableEq

structure ArrConfig where
  kind : ArrKind
  name : String
  baseUrl : Url
  apiKey : Secret
  apiKeyFile : Option PathBuf
  pathMappings : List PathMappingConfig
  deriving DecidableEq

structure MetricsConfig where
  enabled : Bool
  deriving DecidableEq

def MetricsConfig.default : MetricsConfig := ⟨false⟩

structure NotificationsConfig where
  webhookUrl : Option Url
  trackerUnreachableAfterSeconds : ℕ
  deriving DecidableEq

def NotificationsConfig.default : NotificationsConfig := ⟨none, 1800⟩

structure Config where
  server : ServerConfig
  database : DatabaseConfig
  staging : StagingConfig
  library : LibraryConfig
  policy : PolicyConfig
  worker : WorkerSettings
  trackers : List TrackerConfig
  /-- None on a fresh install. -/
  downloadClient : Option DownloadClientConfig
  arr : List ArrConfig
  metrics : MetricsConfig
  notifications : NotificationsConfig
  deriving DecidableEq

def Config.default : Config where
  server := .default
  database := .default
  staging := .default
  library := .default
  policy := .default
  worker := .default
  trackers := []
  downloadClient := none
  arr := []
  metrics := .default
  notifications := .default

/-! ## The surroundings a configuration is read in -/

/-- Owner and mode bits of a directory. -/
structure DirMetadata where
  mode : ℕ
  uid : ℕ
  gid : ℕ

/-- The process's environment and the disk, as far as they decide about a configuration, and the
    features of the build. -/
structure ConfigHost where
  env : String → Option String
  /-- The contents of a file, or the error of reading it. -/
  readToString : PathBuf → Except String String
  /-- The error of listing a directory, if any. -/
  readDir : PathBuf → Except String Unit
  pathExists : PathBuf → Bool
  canonicalize : PathBuf → Option PathBuf
  metadata : PathBuf → Option DirMetadata
  /-- The user and the group the process runs as. -/
  euid : ℕ
  egid : ℕ
  parseUrl : String → Except String Url
  /-- The error of reading a socket address, if any. -/
  parseSocketAddr : String → Except String Unit
  fakes : Bool
  metrics : Bool

inductive ConfigError where
  | read (path : PathBuf) (source : String)
  | parse (path : PathBuf) (source : String)
  | invalid (message : String)
  deriving DecidableEq

def ConfigError.toText : ConfigError → String
  | read p s => "cannot read " ++ p.toStringLossy ++ ": " ++ s
  | parse p s => "cannot parse " ++ p.toStringLossy ++ ": " ++ s
  | invalid m => "invalid configuration: " ++ m

/-- The last line ends of a secret file are not part of the secret. -/
def trimLineEnds (s : String) : String :=
  String.ofList ((s.toList.reverse.dropWhile fun c => c = '\n' || c = '\r').reverse)

/-- The environment first, then the file, then what the configuration says itself. -/
def resolveSecret (host : ConfigHost) (inline : Secret) (file : Option PathBuf) (envVar : String) :
    Except ConfigError Secret :=
  match host.env envVar with
  | some value => .ok ⟨value, .environment envVar⟩
  | none =>
    match file with
    | none => .ok inline
    | some path =>
      match host.readToString path with
      | .error source => .error (.invalid ("cannot read secret file " ++ path.toStringLossy ++
          " (set via a `_file` setting): " ++ source))
      | .ok contents => .ok ⟨trimLineEnds contents, .file path⟩

/-- The part of a variable's name an identifier gives. -/
def shouty (id : String) : String :=
  String.ofList (id.toList.map fun c => if c.isAlphanum then c.toUpper else '_')

namespace Config

def resolveDownloadClient (host : ConfigHost) (c : DownloadClientConfig) :
    Except ConfigError DownloadClientConfig := do
  let password ← resolveSecret host c.password c.passwordFile "SEEDMEDIC_DOWNLOAD_CLIENT_PASSWORD"
  pure { c with password }

def resolveTracker (host : ConfigHost) (t : TrackerConfig) : Except ConfigError TrackerConfig := do
  let apiKey ← resolveSecret host t.apiKey t.apiKeyFile
    ("SEEDMEDIC_TRACKER_" ++ shouty t.id ++ "_API_KEY")
  pure { t with apiKey }

def resolveArr (host : ConfigHost) (a : ArrConfig) : Except ConfigError ArrConfig := do
  let apiKey ← resolveSecret host a.apiKey a.apiKeyFile
    ("SEEDMEDIC_ARR_" ++ shouty a.name ++ "_API_KEY")
  pure { a with apiKey }

/-- Every secret taken from where it is kept. -/
def resolveSecrets (host : ConfigHost) (c : Config) : Except ConfigError Config := do
  let downloadClient ← c.downloadClient.mapM (resolveDownloadClient host)
  let authToken ← resolveSecret host c.server.authToken c.server.authTokenFile
    "SEEDMEDIC_SERVER_AUTH_TOKEN"
  let trackers ← c.trackers.mapM (resolveTracker host)
  let arr ← c.arr.mapM (resolveArr host)
  pure { c with downloadClient, server := { c.server with authToken }, trackers, arr }

end Config

namespace Secret

/-- A difference once seen is not forgotten. -/
theorem foldl_differs_eq_zero (ps : List (UInt8 × UInt8)) : ∀ d : UInt8,
    ps.foldl (fun diff p => diff ||| (p.1 ^^^ p.2)) d = 0 ↔ d = 0 ∧ ∀ p ∈ ps, p.1 = p.2 := by
  induction ps with
  | nil => simp
  | cons p ps ih =>
    intro d
    rw [List.foldl_cons, ih, UInt8.or_eq_zero_iff, UInt8.xor_eq_zero_iff]
    simp [and_assoc]

theorem forall_zip_eq {xs ys : List UInt8} (h : xs.length = ys.length) :
    (∀ p ∈ xs.zip ys, p.1 = p.2) ↔ xs = ys := by
  induction xs generalizing ys with
  | nil => simp [List.length_eq_zero_iff.1 h.symm]
  | cons x xs ih =>
    obtain _ | ⟨y, ys⟩ := ys
    · cases h
    · rw [List.zip_cons_cons, List.forall_mem_cons, ih (Nat.succ.inj h), List.cons.injEq]

/-- Verifying is comparing. -/
theorem verify_iff {s : Secret} {candidate : String} :
    s.verify candidate = true ↔ s.value = candidate := by
  have hinj : ∀ a b : String, a.toByteArray.data.toList = b.toByteArray.data.toList → a = b := by
    intro a b h
    exact String.toByteArray_inj.1 (ByteArray.ext (Array.toList_inj.1 h))
  unfold verify differs
  simp only [ne_eq, ite_not]
  split_ifs with hlen
  · rw [decide_eq_true_eq, foldl_differs_eq_zero]
    simp only [true_and]
    rw [forall_zip_eq hlen]
    exact ⟨hinj _ _, fun h => by rw [h]⟩
  · constructor
    · intro h
      cases h
    · rintro rfl
      exact absurd rfl hlen

end Secret

end SeedMedic
