/-
  What one configuration produces, what outlives it, and what a reload can answer
  (`bootstrap.rs`, `runtime.rs`, `diagnostics.rs`, `events.rs`).
-/
import SeedMedic.Config.Decode

namespace SeedMedic

open Lib

/-! ## Diagnostics -/

/-- What is known about one tracker. -/
structure TrackerHealth where
  stub : Bool
  lastSuccess : Option Time
  lastError : Option (Time × String)
  notifiedUnreachable : Bool
  deriving DecidableEq

def TrackerHealth.default : TrackerHealth := ⟨false, none, none, false⟩

/-- The trackers' health, by their ids. -/
structure Diagnostics where
  trackers : TrackerId → Option TrackerHealth

namespace Diagnostics

def empty : Diagnostics := ⟨fun _ => none⟩

/-- The entry of a tracker changed, made first where there is none. -/
def modifyEntry (d : Diagnostics) (id : TrackerId) (f : TrackerHealth → TrackerHealth) :
    Diagnostics :=
  ⟨fun id' => if id' = id then some (f ((d.trackers id).getD .default)) else d.trackers id'⟩

def recordTrackerSuccess (d : Diagnostics) (id : TrackerId) (time : Time) : Diagnostics :=
  d.modifyEntry id fun h => { h with lastSuccess := some time, notifiedUnreachable := false }

def recordTrackerError (d : Diagnostics) (id : TrackerId) (time : Time) (message : String) :
    Diagnostics :=
  d.modifyEntry id fun h => { h with lastError := some (time, message) }

/-- The outage in progress has been told of. -/
def markTrackerUnreachableNotified (d : Diagnostics) (id : TrackerId) : Diagnostics :=
  d.modifyEntry id fun h => { h with notifiedUnreachable := true }

def trackerHealth (d : Diagnostics) (id : TrackerId) : TrackerHealth :=
  (d.trackers id).getD .default

/-- What is known about a tracker after its entry was changed. -/
theorem trackerHealth_modifyEntry (d : Diagnostics) (id : TrackerId)
    (f : TrackerHealth → TrackerHealth) (id' : TrackerId) :
    (d.modifyEntry id f).trackerHealth id' =
      if id' = id then f (d.trackerHealth id) else d.trackerHealth id' := by
  simp only [trackerHealth, modifyEntry]
  split_ifs <;> rfl

/-- What a list says of an id; the last entry of an id counts. -/
def configuredStub (configured : List (TrackerId × Bool)) (id : TrackerId) : Option Bool :=
  (configured.reverse.find? fun c => c.1 = id).map (·.2)

/-- Exactly the configured trackers, each with the history it had. -/
def reseed (d : Diagnostics) (configured : List (TrackerId × Bool)) : Diagnostics :=
  ⟨fun id => (configuredStub configured id).map fun stub =>
    { (d.trackers id).getD .default with stub }⟩

/-- A reseeding leaves alone what lists the configured trackers already, each as it is
    configured. -/
theorem reseed_eq_self {d : Diagnostics} {configured : List (TrackerId × Bool)} :
    d.reseed configured = d ↔
      ∀ id, (d.trackers id).map (·.stub) = configuredStub configured id := by
  obtain ⟨trackers⟩ := d
  simp only [reseed, Diagnostics.mk.injEq, funext_iff]
  refine forall_congr' fun id => ?_
  cases hc : configuredStub configured id with
  | none => cases trackers id <;> simp
  | some stub =>
    cases ht : trackers id with
    | none => simp
    | some health =>
      obtain ⟨s, _, _, _⟩ := health
      simp [eq_comm]

end Diagnostics

/-! ## The live feed -/

/-- What changed, as the operator's pages are told. -/
inductive BusKind where
  | work (e : EventKind)
  | jobsChanged (jobs : List JobId)
  | trackersChanged
  | configReloaded (restartNeeded : List String)
  | authTokenChanged
  deriving DecidableEq

structure BusEvent where
  seq : ℕ
  kind : BusKind
  deriving DecidableEq

/-- How many events the channel holds for a subscriber that has fallen behind. -/
def CAPACITY : ℕ := 256

/-- The channel, with all that was ever sent on it. -/
structure EventBus where
  /-- The sequence number given out last. -/
  seq : ℕ
  sent : List BusEvent

/-- What a subscriber takes from the channel. -/
inductive Received where
  | pending
  | event (e : BusEvent)
  /-- The subscriber was too slow for some events. -/
  | lagged (missed : ℕ)
  | closed
  deriving DecidableEq

namespace EventBus

def new : EventBus := ⟨0, []⟩

/-- What a subscriber that has come to the `next`-th event takes, and where it stands then. -/
def recv (bus : EventBus) (next : ℕ) : Received × ℕ :=
  if next + CAPACITY < bus.sent.length then
    (.lagged (bus.sent.length - CAPACITY - next), bus.sent.length - CAPACITY)
  else
    match bus.sent[next]? with
    | some e => (.event e, next + 1)
    | none => (.pending, next)

/-- The channel is open as long as a subscriber has a hold of the service. -/
theorem recv_cases (bus : EventBus) (next : ℕ) :
    (∃ missed, bus.recv next = (.lagged missed, bus.sent.length - CAPACITY)) ∨
    (∃ e, bus.recv next = (.event e, next + 1)) ∨ bus.recv next = (.pending, next) := by
  unfold recv
  split_ifs
  · exact .inl ⟨_, rfl⟩
  · cases bus.sent[next]? with
    | none => exact .inr (.inr rfl)
    | some e => exact .inr (.inl ⟨e, rfl⟩)

def publish (bus : EventBus) (kind : BusKind) : EventBus :=
  ⟨bus.seq + 1, bus.sent ++ [⟨bus.seq + 1, kind⟩]⟩

/-- The channel after a call of the workflow. -/
def heard (bus : EventBus) : Call → EventBus
  | .publish e => bus.publish (.work e)
  | _ => bus

end EventBus

/-- What a browser is sent. -/
structure SseEvent where
  id : Option ℕ
  name : String
  data : Json
  deriving DecidableEq

/-- A response that does not end by itself. -/
structure EventStream where
  /-- Whether a token was configured when it was opened. -/
  requiresSession : Bool
  bearerAuthenticated : Bool
  session : Option String
  generation : ℕ
  /-- How far it has come in the channel. -/
  next : ℕ
  deriving DecidableEq

/-! ## Generations -/

/-- What one configuration produces; replaced as a whole. -/
structure Runtime where
  deps : RepairDeps
  healthThreshold : Duration
  authToken : Option Secret
  metricsEnabled : Bool
  basePath : String
  config : Config

inductive ReloadError where
  | config (e : ConfigError)
  /-- A change that cannot be applied safely. -/
  | refused (message : String)
  | build (message : String)
  deriving DecidableEq

def ReloadError.toText : ReloadError → String
  | config e => e.toText
  | refused m | build m => m

namespace Runtime

/-- What a reload could not apply, and whether it ended every session. -/
structure Applied where
  restartNeeded : List String
  authTokenChanged : Bool
  deriving DecidableEq

def Applied.diff (old new : Config) (authTokenChanged : Bool) : Applied where
  restartNeeded :=
    (if new.database.path != old.database.path then ["database.path"] else []) ++
      if new.server.bindAddress ≠ old.server.bindAddress then ["server.bind_address"] else []
  authTokenChanged := authTokenChanged

/-- Whether two optional tokens differ. -/
def authTokenChanged : Option Secret → Option Secret → Bool
  | none, none => false
  | some old, some new => !old.verify new.value
  | _, _ => true

/-- A token is the same when its value is. -/
theorem authTokenChanged_eq_false {old new : Option Secret} :
    authTokenChanged old new = false ↔ old.map (·.value) = new.map (·.value) := by
  cases old with
  | none => cases new <;> simp [authTokenChanged]
  | some o =>
    cases new with
    | none => simp [authTokenChanged]
    | some n => simp [authTokenChanged, Secret.verify_iff]

end Runtime

end SeedMedic
