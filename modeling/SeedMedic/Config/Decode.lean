/-
  Reading a configuration out of a TOML document, and loading one from its file
  (`config/mod.rs`).
-/
import SeedMedic.Lib.Fallible
import SeedMedic.Lib.Toml
import SeedMedic.Config.Problems

namespace SeedMedic

open Lib Lib.Toml

/-! ## Values -/

/-- A number of a type with `bound` values. -/
def decUnsigned (bound : ℕ) : Item → Option ℕ
  | .int n => if 0 ≤ n ∧ n.toNat < bound then some n.toNat else none
  | _ => none

def decU64 : Item → Option ℕ := decUnsigned (2 ^ 64)

def decU32 : Item → Option ℕ := decUnsigned (2 ^ 32)

def decPath (item : Item) : Option PathBuf := item.asStr.map .ofString

def decSecret (item : Item) : Option Secret := item.asStr.map .new

def decUrl (host : ConfigHost) (item : Item) : Option Url :=
  item.asStr.bind fun s => (host.parseUrl s).toOption

/-- The name of a variant, alone or as the one key of an empty table. -/
def variantName : Item → Option String
  | .str s => some s
  | .table [(k, v)] | .inlineTable [(k, v)] =>
    match v with
    | .table [] | .inlineTable [] | .array [] => some k
    | _ => none
  | _ => none

/-- One of the variants named in a list. -/
def decVariant {α : Type} (names : List (String × α)) (item : Item) : Option α :=
  (variantName item).bind fun s => (names.find? fun n => n.1 = s).map (·.2)

def autoResumeNames : List (String × AutoResume) :=
  [("never", .never), ("when_verified_complete", .whenVerifiedComplete)]

def matchConfidenceNames : List (String × MatchConfidence) :=
  [("ambiguous", .ambiguous), ("probable", .probable), ("operator", .operator), ("exact", .exact)]

def trackerKindNames : List (String × TrackerKind) := [("unit3d", .unit3d), ("fake", .fake)]

def tokenPlacementNames : List (String × TokenPlacement) := [("header", .header), ("query", .query)]

def downloadClientKindNames : List (String × DownloadClientKind) :=
  [("qbittorrent", .qbittorrent), ("fake", .fake)]

def arrKindNames : List (String × ArrKind) := [("sonarr", .sonarr), ("radarr", .radarr)]

def decList {α : Type} (dec : Item → Option α) : Item → Option (List α)
  | .array xs => xs.mapM dec
  | _ => none

/-- The table a section is, or its keys in their order where it is written as a list of values. -/
def asSection (names : List String) : Item → Option Table
  | .table t | .inlineTable t => some t
  | .array xs => some (names.zip xs)
  | .arrayOfTables rows => some (names.zip (rows.map .table))
  | _ => none

/-- Every table of a repeated section, however the section is written. -/
def decRows {α : Type} (names : List String) (dec : Table → Option α) : Item → Option (List α)
  | .arrayOfTables rows => rows.mapM dec
  | .array xs => xs.mapM fun x => (asSection names x).bind dec
  | _ => none

/-! ## Keys -/

/-- Nothing but the keys a section knows. -/
def knows (names : List String) (t : Table) : Option Unit :=
  if t.keys ⊆ names then some () else none

/-- What a key says, or a default where it is not there. -/
def orDefault {α : Type} (dec : Item → Option α) (dflt : α) (t : Table) (k : String) : Option α :=
  match t.get k with
  | none => some dflt
  | some item => dec item

def optional {α : Type} (dec : Item → Option α) (t : Table) (k : String) : Option (Option α) :=
  orDefault (fun item => (dec item).map some) none t k

def required {α : Type} (dec : Item → Option α) (t : Table) (k : String) : Option α :=
  (t.get k).bind dec

/-- A section, or its default where it is not there. -/
def part {α : Type} (names : List String) (dec : Table → Option α) (dflt : α) (t : Table)
    (k : String) : Option α :=
  orDefault (fun item => (asSection names item).bind dec) dflt t k

/-! ## Sections -/

def serverKeys : List String := ["bind_address", "auth_token", "auth_token_file", "base_path"]

def stagingKeys : List String := ["root", "min_free_bytes"]

/-- The keys of the policy. -/
def policyKeys : List String :=
  ["auto_resume", "min_match_confidence", "verification_pieces", "prefer_reflink",
    "allow_hardlink", "allow_copy", "max_attempts", "retry_base_seconds", "retry_max_seconds",
    "recheck_poll_seconds", "recheck_poll_max_seconds", "recheck_timeout_seconds",
    "tracker_poll_seconds", "tracker_poll_min_seconds", "max_consecutive_unknown_tracker_status"]

def workerKeys : List String :=
  ["owner", "lease_seconds", "batch_size", "poll_interval_seconds", "discovery_interval_seconds"]

def trackerKeys : List String :=
  ["id", "kind", "base_url", "api_key", "api_key_file", "token_placement"]

def downloadClientKeys : List String :=
  ["kind", "base_url", "username", "password", "password_file", "category"]

def mappingKeys : List String := ["from", "to"]

def arrKeys : List String :=
  ["kind", "name", "base_url", "api_key", "api_key_file", "path_mappings"]

def notificationsKeys : List String := ["webhook_url", "tracker_unreachable_after_seconds"]

def ServerConfig.decode (t : Table) : Option ServerConfig := do
  knows serverKeys t
  let bindAddress ← orDefault Item.asStr ServerConfig.default.bindAddress t "bind_address"
  let authToken ← orDefault decSecret .default t "auth_token"
  let authTokenFile ← optional decPath t "auth_token_file"
  let basePath ← orDefault Item.asStr "" t "base_path"
  pure { bindAddress, authToken, authTokenFile, basePath }

def DatabaseConfig.decode (t : Table) : Option DatabaseConfig := do
  knows ["path"] t
  let path ← orDefault decPath DatabaseConfig.default.path t "path"
  pure { path }

def StagingConfig.decode (t : Table) : Option StagingConfig := do
  knows stagingKeys t
  let root ← orDefault decPath StagingConfig.default.root t "root"
  let minFreeBytes ← orDefault decU64 StagingConfig.default.minFreeBytes t "min_free_bytes"
  pure { root, minFreeBytes }

def LibraryConfig.decode (t : Table) : Option LibraryConfig := do
  knows ["roots"] t
  let roots ← orDefault (decList decPath) [] t "roots"
  pure { roots }

def PolicyConfig.decode (t : Table) : Option PolicyConfig := do
  let d := PolicyConfig.default
  knows policyKeys t
  let autoResume ← orDefault (decVariant autoResumeNames) d.autoResume t "auto_resume"
  let minMatchConfidence ←
    orDefault (decVariant matchConfidenceNames) d.minMatchConfidence t "min_match_confidence"
  let verificationPieces ← orDefault decU64 d.verificationPieces t "verification_pieces"
  let preferReflink ← orDefault Item.asBool d.preferReflink t "prefer_reflink"
  let allowHardlink ← orDefault Item.asBool d.allowHardlink t "allow_hardlink"
  let allowCopy ← orDefault Item.asBool d.allowCopy t "allow_copy"
  let maxAttempts ← orDefault decU32 d.maxAttempts t "max_attempts"
  let retryBaseSeconds ← orDefault decU64 d.retryBaseSeconds t "retry_base_seconds"
  let retryMaxSeconds ← orDefault decU64 d.retryMaxSeconds t "retry_max_seconds"
  let recheckPollSeconds ← orDefault decU64 d.recheckPollSeconds t "recheck_poll_seconds"
  let recheckPollMaxSeconds ← orDefault decU64 d.recheckPollMaxSeconds t "recheck_poll_max_seconds"
  let recheckTimeoutSeconds ← orDefault decU64 d.recheckTimeoutSeconds t "recheck_timeout_seconds"
  let trackerPollSeconds ← orDefault decU64 d.trackerPollSeconds t "tracker_poll_seconds"
  let trackerPollMinSeconds ← orDefault decU64 d.trackerPollMinSeconds t "tracker_poll_min_seconds"
  let maxConsecutiveUnknownTrackerStatus ← orDefault decU32
    d.maxConsecutiveUnknownTrackerStatus t "max_consecutive_unknown_tracker_status"
  pure { autoResume, minMatchConfidence, verificationPieces, preferReflink, allowHardlink,
         allowCopy, maxAttempts, retryBaseSeconds, retryMaxSeconds, recheckPollSeconds,
         recheckPollMaxSeconds, recheckTimeoutSeconds, trackerPollSeconds, trackerPollMinSeconds,
         maxConsecutiveUnknownTrackerStatus }

def WorkerSettings.decode (t : Table) : Option WorkerSettings := do
  let d := WorkerSettings.default
  knows workerKeys t
  let owner ← orDefault Item.asStr d.owner t "owner"
  let leaseSeconds ← orDefault decU64 d.leaseSeconds t "lease_seconds"
  let batchSize ← orDefault Item.asInteger d.batchSize t "batch_size"
  let pollIntervalSeconds ← orDefault decU64 d.pollIntervalSeconds t "poll_interval_seconds"
  let discoveryIntervalSeconds ←
    orDefault decU64 d.discoveryIntervalSeconds t "discovery_interval_seconds"
  pure { owner, leaseSeconds, batchSize, pollIntervalSeconds, discoveryIntervalSeconds }

def TrackerConfig.decode (host : ConfigHost) (t : Table) : Option TrackerConfig := do
  knows trackerKeys t
  let id ← required Item.asStr t "id"
  let kind ← required (decVariant trackerKindNames) t "kind"
  let baseUrl ← orDefault (decUrl host) placeholderUrl t "base_url"
  let apiKey ← orDefault decSecret .default t "api_key"
  let apiKeyFile ← optional decPath t "api_key_file"
  let tokenPlacement ← orDefault (decVariant tokenPlacementNames) .header t "token_placement"
  pure { id, kind, baseUrl, apiKey, apiKeyFile, tokenPlacement }

def DownloadClientConfig.decode (host : ConfigHost) (t : Table) : Option DownloadClientConfig := do
  let d := DownloadClientConfig.default
  knows downloadClientKeys t
  let kind ← orDefault (decVariant downloadClientKindNames) d.kind t "kind"
  let baseUrl ← orDefault (decUrl host) d.baseUrl t "base_url"
  let username ← orDefault Item.asStr d.username t "username"
  let password ← orDefault decSecret d.password t "password"
  let passwordFile ← optional decPath t "password_file"
  let category ← orDefault (fun item => item.asStr.map some) d.category t "category"
  pure { kind, baseUrl, username, password, passwordFile, category }

def PathMappingConfig.decode (t : Table) : Option PathMappingConfig := do
  knows mappingKeys t
  let src ← required decPath t "from"
  let dst ← required decPath t "to"
  pure { src, dst }

def ArrConfig.decode (host : ConfigHost) (t : Table) : Option ArrConfig := do
  knows arrKeys t
  let kind ← required (decVariant arrKindNames) t "kind"
  let name ← required Item.asStr t "name"
  let baseUrl ← required (decUrl host) t "base_url"
  let apiKey ← orDefault decSecret .default t "api_key"
  let apiKeyFile ← optional decPath t "api_key_file"
  let pathMappings ← orDefault (decRows mappingKeys PathMappingConfig.decode) [] t "path_mappings"
  pure { kind, name, baseUrl, apiKey, apiKeyFile, pathMappings }

def MetricsConfig.decode (t : Table) : Option MetricsConfig := do
  knows ["enabled"] t
  let enabled ← orDefault Item.asBool false t "enabled"
  pure { enabled }

def NotificationsConfig.decode (host : ConfigHost) (t : Table) : Option NotificationsConfig := do
  let d := NotificationsConfig.default
  knows notificationsKeys t
  let webhookUrl ← optional (decUrl host) t "webhook_url"
  let trackerUnreachableAfterSeconds ←
    orDefault decU64 d.trackerUnreachableAfterSeconds t "tracker_unreachable_after_seconds"
  pure { webhookUrl, trackerUnreachableAfterSeconds }

namespace Config

/-- The keys of the document. -/
def topKeys : List String :=
  ["server", "database", "staging", "library", "policy", "worker", "trackers", "download_client",
    "arr", "metrics", "notifications"]

/-- The configuration a document says, before its secrets are taken from elsewhere. -/
def decode (host : ConfigHost) (t : Table) : Option Config := do
  knows topKeys t
  let server ← part serverKeys ServerConfig.decode .default t "server"
  let database ← part ["path"] DatabaseConfig.decode .default t "database"
  let staging ← part stagingKeys StagingConfig.decode .default t "staging"
  let library ← part ["roots"] LibraryConfig.decode .default t "library"
  let policy ← part policyKeys PolicyConfig.decode .default t "policy"
  let worker ← part workerKeys WorkerSettings.decode .default t "worker"
  let trackers ← orDefault (decRows trackerKeys (TrackerConfig.decode host)) [] t "trackers"
  let downloadClient ← part downloadClientKeys
    (fun t => (DownloadClientConfig.decode host t).map some) none t "download_client"
  let arr ← orDefault (decRows arrKeys (ArrConfig.decode host)) [] t "arr"
  let metrics ← part ["enabled"] MetricsConfig.decode .default t "metrics"
  let notifications ← part notificationsKeys (NotificationsConfig.decode host) .default t
    "notifications"
  pure { server, database, staging, library, policy, worker, trackers, downloadClient, arr, metrics,
         notifications }

/-- What the secret of a section is read from, and the path of its file. -/
theorem decode_server {t : Table} {c : ServerConfig} (h : ServerConfig.decode t = some c) :
    orDefault decSecret .default t "auth_token" = some c.authToken ∧
      optional decPath t "auth_token_file" = some c.authTokenFile := by
  simp only [ServerConfig.decode, Option.bind_eq_bind, Option.bind_eq_some_iff, Option.pure_def,
    Option.some.injEq] at h
  obtain ⟨_, -, _, -, token, htoken, file, hfile, _, -, rfl⟩ := h
  exact ⟨htoken, hfile⟩

theorem decode_downloadClient {host : ConfigHost} {t : Table} {c : DownloadClientConfig}
    (h : DownloadClientConfig.decode host t = some c) :
    orDefault decSecret .default t "password" = some c.password ∧
      optional decPath t "password_file" = some c.passwordFile := by
  simp only [DownloadClientConfig.decode, Option.bind_eq_bind, Option.bind_eq_some_iff,
    Option.pure_def, Option.some.injEq] at h
  obtain ⟨_, -, _, -, _, -, _, -, password, hpassword, file, hfile, _, -, rfl⟩ := h
  exact ⟨hpassword, hfile⟩

theorem decode_tracker {host : ConfigHost} {t : Table} {c : TrackerConfig}
    (h : TrackerConfig.decode host t = some c) : required Item.asStr t "id" = some c.id ∧
      orDefault decSecret .default t "api_key" = some c.apiKey ∧
      optional decPath t "api_key_file" = some c.apiKeyFile := by
  simp only [TrackerConfig.decode, Option.bind_eq_bind, Option.bind_eq_some_iff,
    Option.pure_def, Option.some.injEq] at h
  obtain ⟨_, -, id, hid, _, -, _, -, key, hkey, file, hfile, _, -, rfl⟩ := h
  exact ⟨hid, hkey, hfile⟩

theorem decode_arr {host : ConfigHost} {t : Table} {c : ArrConfig}
    (h : ArrConfig.decode host t = some c) : required Item.asStr t "name" = some c.name ∧
      orDefault decSecret .default t "api_key" = some c.apiKey ∧
      optional decPath t "api_key_file" = some c.apiKeyFile := by
  simp only [ArrConfig.decode, Option.bind_eq_bind, Option.bind_eq_some_iff,
    Option.pure_def, Option.some.injEq] at h
  obtain ⟨_, -, _, -, name, hname, _, -, key, hkey, file, hfile, _, -, rfl⟩ := h
  exact ⟨hname, hkey, hfile⟩

/-- The parts of a document that a configuration is read from, as far as its secrets go. -/
theorem decode_eq_some {host : ConfigHost} {t : Table} {c : Config} (h : decode host t = some c) :
    knows topKeys t = some () ∧
    part serverKeys ServerConfig.decode .default t "server" = some c.server ∧
    orDefault (decRows trackerKeys (TrackerConfig.decode host)) [] t "trackers" = some c.trackers ∧
    part downloadClientKeys (fun t => (DownloadClientConfig.decode host t).map some) none t
      "download_client" = some c.downloadClient ∧
    orDefault (decRows arrKeys (ArrConfig.decode host)) [] t "arr" = some c.arr := by
  simp only [decode, Option.bind_eq_bind, Option.bind_eq_some_iff, Option.pure_def,
    Option.some.injEq] at h
  obtain ⟨_, hknows, server, hserver, _, -, _, -, _, -, _, -, _, -, trackers, htrackers, client,
    hclient, arr, harr, _, -, _, -, rfl⟩ := h
  exact ⟨hknows, hserver, htrackers, hclient, harr⟩

end Config

/-! ## Loading -/

/-- How the TOML of a file is read and written. -/
structure TomlSyntax where
  /-- The tree of a text, or the error of a text that is no TOML. -/
  parse : String → Except String Table
  /-- A text after its tree was edited. -/
  render : String → Table → String
  /-- The error of a document that is no configuration. -/
  deError : String → String

/-- The error of opening a file that may not be there. -/
inductive ReadError where
  | notFound (text : String)
  | other (text : String)
  deriving DecidableEq

def ReadError.toText : ReadError → String
  | notFound t | other t => t

namespace Config

variable (host : ConfigHost) (syn : TomlSyntax) (path : PathBuf)

/-- A text as a configuration, with its secrets resolved. -/
def ofText (text : String) : Except ConfigError Config :=
  match syn.parse text with
  | .error source => .error (.parse path source)
  | .ok t =>
    match decode host t with
    | none => .error (.parse path (syn.deError text))
    | some config => config.resolveSecrets host

/-- What the file at `path` says; one that is not there is a fresh install. -/
def parseFrom : Except ReadError String → Except ConfigError Config
  | .ok text => ofText host syn path text
  | .error (.notFound _) => Config.default.resolveSecrets host
  | .error (.other source) => .error (.read path source)

/-- What loading the file at `path` gives. -/
def loadFrom (raw : Except ReadError String) : Except ConfigError Config := do
  let config ← parseFrom host syn path raw
  config.validate host
  config.validateRuntime host
  pure config

variable {host syn path}

/-- A configuration that loads has no error among its problems. -/
theorem loadFrom_ok {raw : Except ReadError String} {config : Config}
    (h : loadFrom host syn path raw = .ok config) :
    config.validate host = .ok () ∧ config.validateRuntime host = .ok () := by
  obtain ⟨c, -, h⟩ := bind_eq_ok.1 h
  obtain ⟨_, hvalid, h⟩ := bind_eq_ok.1 h
  obtain ⟨_, hruntime, h⟩ := bind_eq_ok.1 h
  cases h
  exact ⟨hvalid, hruntime⟩

end Config

end SeedMedic
