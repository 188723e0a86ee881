/-
  Wiring one generation (`bootstrap.rs`).
-/
import SeedMedic.Runtime.Domain

namespace SeedMedic

open Lib

/-- The places of the wiring that ask for an HTTP client. -/
inductive HttpUse where
  | trackers
  | client
  | arr
  | webhook
  deriving DecidableEq

/-- What wiring a generation finds in its surroundings. -/
structure BuildEnv where
  host : ConfigHost
  syn : TomlSyntax
  configPath : PathBuf
  createDirAll : PathBuf → Except String Unit
  /-- Where a path really leads, once the staging root is created. -/
  canonicalizeNow : PathBuf → Except String PathBuf
  /-- Whether the HTTP library can set a client up. -/
  http : HttpUse → Except String Unit
  /-- The decoder of real torrents, and of the in-memory tracker's. -/
  bencode : List UInt8 → Except InspectError TorrentMetadata
  fakeInspect : List UInt8 → Except InspectError TorrentMetadata

namespace BuildEnv

variable (env : BuildEnv)

def buildHttpClient (use : HttpUse) : Except String Unit :=
  match env.http use with
  | .ok () => .ok ()
  | .error e => .error ("building shared HTTP client: " ++ e)

/-- The staging root, created where it is missing. -/
def stagingRootNew (path : PathBuf) (libraryRoots : List PathBuf) :
    Except StagingRootError PathBuf :=
  if !isAbsolute path then .error (.notAbsolute path)
  else
    match env.createDirAll path with
    | .error e => .error (.unusable path e)
    | .ok () =>
      match env.canonicalizeNow path with
      | .error e => .error (.unusable path e)
      | .ok staging =>
        let libraries := libraryRoots.filterMap fun l => (env.canonicalizeNow l).toOption
        match libraries.find? (overlap staging) with
        | some library => .error (.overlapsLibrary staging library)
        | none => .ok staging

/-- The staging area of a configuration, nowhere when none is set up. -/
def buildStaging (config : Config) : Except String PathBuf :=
  if isUnset config.staging.root then .ok ⟨[]⟩
  else
    match env.stagingRootNew config.staging.root config.library.roots with
    | .ok root => .ok root
    | .error e => .error ("staging root is not usable: " ++ e.toText)

def buildTrackers (configured : List TrackerConfig) : Except String (List TrackerId) := do
  env.buildHttpClient .trackers
  pure (configured.map fun t => ⟨t.id⟩)

/-- The decoder that goes with the trackers. -/
def buildInspector (configured : List TrackerConfig) :
    List UInt8 → Except InspectError TorrentMetadata :=
  if env.host.fakes && !configured.isEmpty && configured.all fun t => t.kind = .fake then
    env.fakeInspect
  else env.bencode

def buildClient : Option DownloadClientConfig → Except String Unit
  | some _ => env.buildHttpClient .client
  | none => .ok ()

def arrLabel (a : ArrConfig) : String :=
  (match a.kind with
    | .sonarr => "sonarr"
    | .radarr => "radarr") ++ ":" ++ a.name

def buildCandidateSources (config : Config) : Except String (List String) := do
  if config.arr ≠ [] then env.buildHttpClient .arr
  pure (config.arr.map arrLabel ++
    config.library.roots.map fun root => "filesystem:" ++ root.toStringLossy)

/-- What is wired before the diagnostics hear of the trackers. -/
structure Adapters where
  stagingRoot : PathBuf
  trackers : List TrackerId
  candidateSources : List String

/-- The first half of the wiring. -/
def buildAdapters (config : Config) : Except String Adapters := do
  match config.validate env.host with
  | .ok () => pure ()
  | .error e => .error e.toText
  let stagingRoot ← env.buildStaging config
  let trackers ← env.buildTrackers config.trackers
  env.buildClient config.downloadClient
  let candidateSources ← env.buildCandidateSources config
  pure { stagingRoot, trackers, candidateSources }

def buildNotifier (config : Config) : Except String Unit :=
  match config.notifications.webhookUrl with
  | some _ => env.buildHttpClient .webhook
  | none => .ok ()

/-- The trackers of a configuration, as the diagnostics list them. -/
def trackerStubs (config : Config) : List (TrackerId × Bool) :=
  config.trackers.map fun t => (⟨t.id⟩, decide (t.kind = .fake))

def runtimeOf (config : Config) (adapters : Adapters) : Runtime where
  deps :=
    { trackers := adapters.trackers
      inspect := env.buildInspector config.trackers
      candidateSources := adapters.candidateSources
      stagingRoot := adapters.stagingRoot
      policy := config.policy.toPolicy
      category := config.downloadClient.bind (·.category) }
  healthThreshold := .fromSecs config.worker.pollIntervalSeconds * 3 + .fromSecs 30
  authToken := if config.server.authToken.isEmpty then none else some config.server.authToken
  metricsEnabled := config.metrics.enabled
  basePath := normaliseBasePath config.server.basePath
  config := config

/-- Wire one generation; the diagnostics are told of its trackers on the way. -/
def build (config : Config) (diagnostics : Diagnostics) :
    Except String (Runtime × WorkerConfig) × Diagnostics :=
  match env.buildAdapters config with
  | .error e => (.error e, diagnostics)
  | .ok adapters =>
    let diagnostics := diagnostics.reseed (trackerStubs config)
    match env.buildNotifier config with
    | .error e => (.error e, diagnostics)
    | .ok () => (.ok (env.runtimeOf config adapters, config.worker.toWorkerConfig), diagnostics)

variable {env} {config : Config} {d : Diagnostics}

theorem build_of_early {e : String} (h : env.buildAdapters config = .error e) :
    env.build config d = (.error e, d) := by
  simp only [build, h]

theorem build_of_late {adapters : Adapters} {e : String} (h : env.buildAdapters config = .ok adapters)
    (hn : env.buildNotifier config = .error e) :
    env.build config d = (.error e, d.reseed (trackerStubs config)) := by
  simp only [build, h, hn]

theorem build_of_ok {adapters : Adapters} (h : env.buildAdapters config = .ok adapters)
    (hn : env.buildNotifier config = .ok ()) :
    env.build config d = (.ok (env.runtimeOf config adapters, config.worker.toWorkerConfig),
      d.reseed (trackerStubs config)) := by
  simp only [build, h, hn]

/-- How a wiring can end: early, at the webhook, or well. -/
theorem build_cases (env : BuildEnv) (config : Config) (d : Diagnostics) :
    (∃ e, env.buildAdapters config = .error e ∧ env.build config d = (.error e, d)) ∨
    (∃ adapters e, env.buildAdapters config = .ok adapters ∧ env.buildNotifier config = .error e ∧
      env.build config d = (.error e, d.reseed (trackerStubs config))) ∨
    ∃ adapters, env.buildAdapters config = .ok adapters ∧ env.buildNotifier config = .ok () ∧
      env.build config d = (.ok (env.runtimeOf config adapters, config.worker.toWorkerConfig),
        d.reseed (trackerStubs config)) := by
  cases ha : env.buildAdapters config with
  | error e => exact .inl ⟨e, rfl, build_of_early ha⟩
  | ok adapters =>
    cases hn : env.buildNotifier config with
    | error e => exact .inr (.inl ⟨adapters, e, rfl, rfl, build_of_late ha hn⟩)
    | ok u => exact .inr (.inr ⟨adapters, rfl, rfl, build_of_ok ha hn⟩)

end BuildEnv

end SeedMedic
