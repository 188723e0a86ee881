/-
  The live generation and the machinery to replace it (`runtime.rs`).
-/
import SeedMedic.Config.File
import SeedMedic.Repair.Reconcile
import SeedMedic.Runtime.Build
import Mathlib.Data.List.Dedup

namespace SeedMedic

open Lib

/-- What the code around a generation reaches for. -/
inductive ServiceCall where
  /-- Take, or give back, the lock a reload is made under. -/
  | lockWorker
  | unlockWorker
  /-- Load the configuration from its file. -/
  | loadConfig
  | current
  | unfinished
  | hasActiveLease
  | build (config : Config)
  /-- Take the worker out of the handle; tells whether there was one. -/
  | takeWorker
  /-- Tell the worker that was taken to stop, and wait for its end. -/
  | stopWorker
  /-- A call of the workflow. -/
  | work (c : Call)
  | install (runtime : Runtime)
  | spawn (runtime : Runtime) (config : WorkerConfig)
  | clearSessions
  | bumpGeneration
  | generation
  /-- Give out the next sequence number of the feed. -/
  | nextSeq
  | send (event : BusEvent)
  /-- Record a fresh session and tell its id. -/
  | createSession
  | hasSession (id : String)
  | destroySession (id : String)
  | file (c : FileCall)
  | subscribe
  /-- The sequence number given out last. -/
  | seq
  | recv (next : ℕ)
  /-- The response starts, with its first event. -/
  | respond (stream : EventStream) (opening : SseEvent)
  | deliver (event : SseEvent)
  /-- The response ends. -/
  | finish

def ServiceCall.Ans : ServiceCall → Type
  | loadConfig => Except ConfigError Config
  | current => Runtime
  | unfinished => Except StoreError (List RepairJob)
  | hasActiveLease => Except StoreError Bool
  | build _ => Except String (Runtime × WorkerConfig)
  | takeWorker => Bool
  | work c => SeedMedic.Ans c
  | generation | nextSeq | subscribe | seq => ℕ
  | createSession => String
  | hasSession _ => Bool
  | file c => c.Ans
  | recv _ => Received × ℕ
  | lockWorker | unlockWorker | stopWorker | install _ | spawn .. | clearSessions | bumpGeneration
  | send _ | destroySession _ | respond .. | deliver _ | finish => Unit

/-- Code of the service around the workflow. -/
abbrev S := Prog ServiceCall ServiceCall.Ans

namespace S

def ask (c : ServiceCall) : S c.Ans := Prog.ask c

@[simp] theorem ask_bind {α : Type} (c : ServiceCall) (f : c.Ans → S α) :
    (ask c >>= f) = .call c f := rfl

/-- Code of the workflow, run by the service. -/
def work {α : Type} : M α → S α
  | .ret a => .ret a
  | .call c k => .call (.work c) fun r => work (k r)

/-- Code that works on the configuration file, run by the service. -/
def onFile {α : Type} : F α → S α
  | .ret a => .ret a
  | .call c k => .call (.file c) fun r => onFile (k r)

/-- Announce a change. -/
def publish (kind : BusKind) : S Unit := do
  let seq ← ask .nextSeq
  ask (.send ⟨seq, kind⟩)

end S

namespace RuntimeHandle

/-- Ids of the trackers of the old configuration that the new one does not have. -/
def removedTrackers (old new : Config) : List String :=
  (old.trackers.map (·.id)).dedup.filter fun id => id ∉ new.trackers.map (·.id)

/-- How many jobs are filed under a tracker. -/
def filedUnder (unfinished : List RepairJob) (id : String) : ℕ :=
  unfinished.countP fun job => job.tracker.str = id

/-- The refusal of a new staging root. -/
def rootRefusal (old new : Config) (unfinished : List RepairJob) : Option String :=
  if !isUnset old.staging.root && new.staging.root != old.staging.root then
    let staged := unfinished.countP fun job => job.stagingDir.isSome
    if 0 < staged then
      some ("staging.root cannot change while " ++ toString staged ++ " unfinished repair(s) " ++
        "have data staged under the current root; finish or abandon them first")
    else none
  else none

/-- The refusal of the removal of a tracker. -/
def trackerRefusal (old new : Config) (unfinished : List RepairJob) : Option String :=
  ((removedTrackers old new).find? fun id => 0 < filedUnder unfinished id).map fun removed =>
    "tracker `" ++ removed ++ "` cannot be removed or renamed while it has " ++
      toString (filedUnder unfinished removed) ++ " unfinished repair(s)"

/-- The refusal of fewer library roots. -/
def libraryRefusal (old new : Config) (unfinished : List RepairJob) : Option String :=
  if unfinished ≠ [] ∧
      (old.library.roots.any fun root => !new.library.roots.any fun r => r == root) = true then
    some ("library.roots cannot be narrowed while " ++ toString unfinished.length ++
      " unfinished repair(s) exist")
  else none

/-- Refuse a change that cannot be applied safely. -/
def checkRefusals (old new : Config) (unfinished : List RepairJob) :
    S (Except ReloadError Unit) := do
  match rootRefusal old new unfinished with
  | some message => pure (.error (.refused message))
  | none =>
    match trackerRefusal old new unfinished with
    | some message => pure (.error (.refused message))
    | none =>
      match libraryRefusal old new unfinished with
      | some message => pure (.error (.refused message))
      | none =>
        if new.worker.owner ≠ old.worker.owner then
          match ← S.ask .hasActiveLease with
          | .error e => pure (.error (.refused ("could not check active leases: " ++ e.toText)))
          | .ok true =>
            pure (.error (.refused "worker.owner cannot change while a repair is leased"))
          | .ok false => pure (.ok ())
        else pure (.ok ())

/-- Stop the worker there is, if any. -/
def takeDown : S Unit := do
  let running : Bool ← S.ask .takeWorker
  if running then S.ask .stopWorker else pure ()

/-- A changed token ends every session. -/
def endSessions (tokenChanged : Bool) : S Unit :=
  if tokenChanged then S.ask .clearSessions else pure ()

/-- Tell the operator's pages of a reload. -/
def announce (done : Runtime.Applied) : S Unit := do
  S.publish (.configReloaded done.restartNeeded)
  if done.authTokenChanged then S.publish .authTokenChanged else pure ()

/-- Stop the old worker and put a generation in its place. -/
def replaceRuntime (old runtime : Runtime) (newConfig : Config) (workerConfig : WorkerConfig) :
    S Runtime.Applied := do
  takeDown
  -- reality may have moved on since the old adapters last looked
  let _ ← S.work (reconcileOnStartup workerConfig.owner)
  let tokenChanged := Runtime.authTokenChanged old.authToken runtime.authToken
  (S.ask (.install runtime) : S Unit)
  (S.ask (.spawn runtime workerConfig) : S Unit)
  endSessions tokenChanged
  (S.ask .bumpGeneration : S Unit)
  let done := Runtime.Applied.diff old.config newConfig tokenChanged
  announce done
  pure done

/-- A reload, once no other is being made. -/
def reloadLocked : S (Except ReloadError Runtime.Applied) := do
  match ← S.ask .loadConfig with
  | .error e => pure (.error (.config e))
  | .ok newConfig =>
    let old ← S.ask .current
    match ← S.ask .unfinished with
    | .error e => pure (.error (.refused
        ("could not check in-flight repairs before reloading: " ++ e.toText)))
    | .ok unfinished =>
      match ← checkRefusals old.config newConfig unfinished with
      | .error e => pure (.error e)
      | .ok () =>
        match ← S.ask (.build newConfig) with
        | .error e => pure (.error (.build e))
        | .ok (runtime, workerConfig) => do
          let done ← replaceRuntime old runtime newConfig workerConfig
          pure (.ok done)

/-- Replace the generation by one built from the file. -/
def reload : S (Except ReloadError Runtime.Applied) := do
  S.ask .lockWorker
  let result ← reloadLocked
  S.ask .unlockWorker
  pure result

/-! ## What the refusals refuse -/

section
variable {old new : Config} {unfinished : List RepairJob}

/-- A new root is refused where an unfinished job has data under the old one. -/
theorem rootRefusal_eq_none : rootRefusal old new unfinished = none ↔
    isUnset old.staging.root = true ∨ (new.staging.root == old.staging.root) = true ∨
      ∀ job ∈ unfinished, job.stagingDir = none := by
  unfold rootRefusal
  by_cases hset : isUnset old.staging.root = true
  · simp [hset]
  by_cases hsame : (new.staging.root == old.staging.root) = true
  · simp [bne, hsame]
  simp only [hset, hsame, bne, Bool.not_false, Bool.and_self, if_true]
  rw [ite_eq_right_iff]
  simp [List.countP_pos_iff, Option.isSome_iff_ne_none]

/-- The removal of a tracker is refused where an unfinished job is filed under it. -/
theorem trackerRefusal_eq_none : trackerRefusal old new unfinished = none ↔
    ∀ id ∈ removedTrackers old new, ∀ job ∈ unfinished, job.tracker.str ≠ id := by
  unfold trackerRefusal filedUnder
  simp [List.find?_eq_none]

theorem mem_removedTrackers {id : String} : id ∈ removedTrackers old new ↔
    id ∈ old.trackers.map (·.id) ∧ id ∉ new.trackers.map (·.id) := by
  simp [removedTrackers, List.mem_dedup]

end

end RuntimeHandle

end SeedMedic
