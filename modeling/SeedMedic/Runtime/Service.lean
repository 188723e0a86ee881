/-
  The service as the code around a generation finds it when nothing else runs.
-/
import SeedMedic.Runtime.Handle
import SeedMedic.Repair.Store

namespace SeedMedic

open Lib Lib.Toml

/-! ## The directory of the configuration file -/

structure DiskFile where
  text : String
  modified : ℕ
  mode : ℕ
  deriving DecidableEq

def DiskFile.stat (f : DiskFile) : FileStat := ⟨f.text.utf8ByteSize, f.modified, f.mode⟩

/-- The configuration file with what a save puts beside it. -/
structure ConfigDir where
  config : Option DiskFile
  bak : Option DiskFile
  temp : Option DiskFile
  /-- The time a file changed now is stamped with. -/
  clock : ℕ
  deriving DecidableEq

/-- Whether the answer to a call says that it has written the file. -/
def FileCall.wrote : (c : FileCall) → c.Ans → Bool
  | rename, .ok () => true
  | truncate _, .ok () => true
  | writeAll _, .ok () => true
  | _, _ => false

namespace ConfigDir

/-- The error of an operation that fails, if it does. -/
abbrev Faults := FileCall → Option String

def readToString (faults : Faults) (d : ConfigDir) : Except ReadError String :=
  match faults .readToString, d.config with
  | some e, _ => .error (.other e)
  | none, none => .error (.notFound "No such file or directory (os error 2)")
  | none, some f => .ok f.text

/-- The answer of an operation that changes the directory, and the directory after it. -/
def acting (faults : Faults) (c : FileCall) (after : Option ConfigDir) (d : ConfigDir) :
    Except String Unit × ConfigDir :=
  match faults c, after with
  | some e, _ => (.error e, d)
  | none, none => (.error "No such file or directory (os error 2)", d)
  | none, some d' => (.ok (), d')

/-- What an operation does. -/
def serve (faults : Faults) : (c : FileCall) → ConfigDir → c.Ans × ConfigDir
  | .readToString, d => (d.readToString faults, d)
  | .metadata, d =>
    (match faults .metadata, d.config with
      | some e, _ => .error e
      | none, none => .error "No such file or directory (os error 2)"
      | none, some f => .ok f.stat, d)
  | .probeWritable, d => ((faults .probeWritable).isNone, d)
  | .copyToBak, d =>
    acting faults .copyToBak (d.config.map fun f =>
      { d with bak := some { f with modified := d.clock } }) d
  | .writeTemp text, d =>
    acting faults (.writeTemp text) (some { d with
      temp := some ⟨text, d.clock, (d.temp.map (·.mode)).getD 0o600⟩ }) d
  | .setPermissions mode, d =>
    acting faults (.setPermissions mode) (d.temp.map fun f => { d with temp := some { f with mode } }) d
  | .rename, d =>
    acting faults .rename (d.temp.map fun f => { d with config := some f, temp := none }) d
  | .truncate mode, d =>
    acting faults (.truncate mode) (some { d with
      config := some ⟨"", d.clock, (d.config.map (·.mode)).getD mode⟩ }) d
  | .writeAll text, d =>
    acting faults (.writeAll text) (d.config.map fun f =>
      { d with config := some { f with text, modified := d.clock } }) d
  | .removeTemp, d => ((), if (faults .removeTemp).isSome then d else { d with temp := none })

/-- An operation that changes the directory fails or does all it does. -/
theorem acting_cases (faults : Faults) (c : FileCall) (after : Option ConfigDir)
    (d : ConfigDir) : (∃ e, acting faults c after d = (.error e, d)) ∨
      ∃ d', after = some d' ∧ acting faults c after d = (.ok (), d') := by
  unfold acting
  cases faults c with
  | some e => exact .inl ⟨e, rfl⟩
  | none =>
    cases after with
    | none => exact .inl ⟨_, rfl⟩
    | some d' => exact .inr ⟨d', rfl, rfl⟩

section
variable {faults : Faults} {c : FileCall} {after : Option ConfigDir} {d : ConfigDir}

theorem acting_kept (h : ∀ u, (acting faults c after d).1 ≠ .ok u) :
    (acting faults c after d).2 = d := by
  obtain ⟨e, he⟩ | ⟨d', -, he⟩ := acting_cases faults c after d
  · rw [he]
  · exact absurd (by rw [he]) (h ())

/-- What an operation keeps where it does all it does. -/
theorem acting_same {β : Type} {part : ConfigDir → β}
    (h : ∀ d', after = some d' → part d' = part d) : part (acting faults c after d).2 = part d := by
  obtain ⟨e, he⟩ | ⟨d', hd', he⟩ := acting_cases faults c after d
  · rw [he]
  · rw [he]
    exact h d' hd'

/-- A call that does not say that it has written the file has left it as it was. -/
theorem serve_config (h : c.wrote (serve faults c d).1 = false) :
    (serve faults c d).2.config = d.config := by
  cases c with
  | readToString => rfl
  | metadata => rfl
  | probeWritable => rfl
  | copyToBak =>
    refine acting_same fun d' hd' => ?_
    obtain ⟨f, -, rfl⟩ := Option.map_eq_some_iff.1 hd'
    rfl
  | writeTemp text =>
    refine acting_same fun d' hd' => ?_
    cases hd'
    rfl
  | setPermissions mode =>
    refine acting_same fun d' hd' => ?_
    obtain ⟨f, -, rfl⟩ := Option.map_eq_some_iff.1 hd'
    rfl
  | rename =>
    refine congrArg config (acting_kept fun u hu => ?_)
    simp [FileCall.wrote, serve, hu] at h
  | truncate mode =>
    refine congrArg config (acting_kept fun u hu => ?_)
    simp [FileCall.wrote, serve, hu] at h
  | writeAll text =>
    refine congrArg config (acting_kept fun u hu => ?_)
    simp [FileCall.wrote, serve, hu] at h
  | removeTemp =>
    simp only [serve]
    split_ifs <;> rfl

end

end ConfigDir

/-! ## The service -/

/-- Everything the handle and what outlives a generation hold. -/
structure Service where
  dir : ConfigDir
  current : Runtime
  generation : ℕ
  sessions : List String
  /-- The worker that runs, with the generation it was started with. -/
  worker : Option (Runtime × WorkerConfig)
  /-- Whether a reload holds the lock. -/
  locked : Bool
  store : SqliteRepairStore
  /-- The time of the worker's last tick. -/
  health : Option Time
  diagnostics : Diagnostics
  bus : EventBus

/-- Whether some lease runs. -/
def SqliteRepairStore.hasActiveLease (s : SqliteRepairStore) (now : Time) : Bool :=
  s.jobs.rows.any fun r => r.leaseExpiresAt.any fun t => timestamp now < t

/-- How the surroundings answer. -/
structure ServiceEnv where
  build : BuildEnv
  faults : ConfigDir.Faults
  now : Time
  /-- The error of a query that fails, if it does. -/
  unfinishedFails : Option StoreError
  leaseFails : Option StoreError
  /-- What the calls of a reconciliation meet with. -/
  workflow : (c : Call) → Service → Option (Ans c × Service)
  /-- The random id drawn next. -/
  nextId : Service → String

namespace Service

variable (env : ServiceEnv)

/-- What loading the file gives now. -/
def loadConfig (w : Service) : Except ConfigError Config :=
  Config.loadFrom env.build.host env.build.syn env.build.configPath
    (w.dir.readToString env.faults)

def unfinished (w : Service) : Except StoreError (List RepairJob) :=
  match env.unfinishedFails with
  | some e => .error e
  | none => .ok w.store.unfinished

def hasActiveLease (w : Service) : Except StoreError Bool :=
  match env.leaseFails with
  | some e => .error e
  | none => .ok (w.store.hasActiveLease env.now)

/-- What a call does; a lock that is held is waited for. -/
def serve : (c : ServiceCall) → Service → Option (c.Ans × Service)
  | .lockWorker, w => if w.locked then none else some ((), { w with locked := true })
  | .unlockWorker, w => some ((), { w with locked := false })
  | .loadConfig, w => some (w.loadConfig env, w)
  | .current, w => some (w.current, w)
  | .unfinished, w => some (w.unfinished env, w)
  | .hasActiveLease, w => some (w.hasActiveLease env, w)
  | .build config, w =>
    let built := env.build.build config w.diagnostics
    some (built.1, { w with diagnostics := built.2 })
  | .takeWorker, w => some (w.worker.isSome, { w with worker := none })
  | .stopWorker, w => some ((), w)
  | .work c, w => env.workflow c w
  | .install runtime, w => some ((), { w with current := runtime })
  | .spawn runtime config, w => some ((), { w with worker := some (runtime, config) })
  | .clearSessions, w => some ((), { w with sessions := [] })
  | .bumpGeneration, w => some ((), { w with generation := w.generation + 1 })
  | .generation, w => some (w.generation, w)
  | .nextSeq, w => some (w.bus.seq + 1, { w with bus := { w.bus with seq := w.bus.seq + 1 } })
  | .send event, w => some ((), { w with bus := { w.bus with sent := w.bus.sent ++ [event] } })
  | .createSession, w => some (env.nextId w, { w with sessions := env.nextId w :: w.sessions })
  | .hasSession id, w => some (decide (id ∈ w.sessions), w)
  | .destroySession id, w => some ((), { w with sessions := w.sessions.filter fun s => s ≠ id })
  | .file c, w => some ((ConfigDir.serve env.faults c w.dir).1,
      { w with dir := (ConfigDir.serve env.faults c w.dir).2 })
  | .subscribe, w => some (w.bus.sent.length, w)
  | .seq, w => some (w.bus.seq, w)
  | .recv next, w => some (w.bus.recv next, w)
  | .respond .., w | .deliver _, w | .finish, w => some ((), w)

end Service

/-! ## Plain surroundings -/

/-- A process without variables, run by root on a disk where everything is in place. -/
def ConfigHost.plain : ConfigHost where
  env := fun _ => none
  readToString := fun _ => .error "No such file or directory (os error 2)"
  readDir := fun _ => .ok ()
  pathExists := fun _ => true
  canonicalize := some
  metadata := fun _ => some ⟨0o755, 0, 0⟩
  euid := 0
  egid := 0
  parseUrl := fun s => .ok ⟨s, "http"⟩
  parseSocketAddr := fun _ => .ok ()
  fakes := true
  metrics := true

/-- A few texts with their trees, as they are read and written. -/
def TomlSyntax.known (texts : List (String × Table)) (render : Table → String) : TomlSyntax where
  parse := fun text =>
    match texts.find? fun t => t.1 = text with
    | some t => .ok t.2
    | none => .error "TOML parse error"
  render := fun _ t => render t
  deError := fun _ => "TOML parse error"

/-- Wiring in which nothing fails. -/
def BuildEnv.plain (syn : TomlSyntax) : BuildEnv where
  host := .plain
  syn := syn
  configPath := .ofString "/etc/seedmedic/config.toml"
  createDirAll := fun _ => .ok ()
  canonicalizeNow := .ok
  http := fun _ => .ok ()
  bencode := fun _ => .error (.malformed "")
  fakeInspect := fun _ => .error (.malformed "")

/-- Surroundings in which nothing fails and no call of a workflow comes back. -/
def ServiceEnv.plain (build : BuildEnv) : ServiceEnv where
  build := build
  faults := fun _ => none
  now := 0
  unfinishedFails := none
  leaseFails := none
  workflow := fun _ _ => none
  nextId := fun w => toString w.sessions.length

/-- The generation of a configuration whose wiring has nowhere to stage. -/
def Runtime.plain (config : Config) (build : BuildEnv) : Runtime :=
  build.runtimeOf config ⟨⟨[]⟩, config.trackers.map fun t => ⟨t.id⟩, []⟩

/-- The service just started from a generation. -/
def Service.started (dir : ConfigDir) (runtime : Runtime) (store : SqliteRepairStore) : Service where
  dir := dir
  current := runtime
  generation := 0
  sessions := []
  worker := some (runtime, runtime.config.worker.toWorkerConfig)
  locked := false
  store := store
  health := none
  diagnostics := Diagnostics.empty.reseed (BuildEnv.trackerStubs runtime.config)
  bus := .new

end SeedMedic
