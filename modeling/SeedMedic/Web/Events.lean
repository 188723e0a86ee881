/-
  The live feed as a browser gets it (`web/api/events.rs`).
-/
import SeedMedic.Web.Auth

namespace SeedMedic

open Lib

def sseEvent (seq : ℕ) (name : String) (data : Json) : SseEvent :=
  ⟨if 0 < seq then some seq else none, name, data⟩

/-- The name an event is sent under. -/
def nameFor : BusKind → String
  | .work (.jobTransitioned ..) => "job"
  | .jobsChanged _ => "jobs"
  | .work (.jobProgress _) => "progress"
  | .work (.activity _) => "activity"
  | .trackersChanged => "trackers"
  | .configReloaded _ => "settings"
  | .authTokenChanged => "session"

def ActivityKind.name : ActivityKind → String
  | tick => "tick"
  | discovery => "discovery"
  | reconcile => "reconcile"

/-- What is sent of an event: hints, not documents. -/
def payloadFor : BusKind → List (String × Json)
  | .work (.jobTransitioned job src dst reason) =>
    [("id", .num job.val.toInt), ("from", .str src.asStr), ("to", .str dst.asStr),
      ("reason", .str reason)]
  | .jobsChanged jobs => [("changed", .arr (jobs.map fun job => .num job.val.toInt))]
  | .work (.jobProgress job) => [("id", .num job.val.toInt)]
  | .work (.activity activity) =>
    [("kind", .str activity.kind.name), ("at", .ofOption (fun t => .num t) activity.time)]
  | .trackersChanged => []
  | .configReloaded restartNeeded => [("restart_needed", .arr (restartNeeded.map .str))]
  | .authTokenChanged => [("reason", .str "auth_token_changed")]

namespace EventStream

/-- Whether the session is asked for at each event. -/
def guarded (s : EventStream) : Bool := s.requiresSession && !s.bearerAuthenticated

/-- What a stream is opened with: a gap, where it resumes from something it may have missed. -/
def opening (currentSeq : ℕ) (resumedFrom : Option ℕ) : SseEvent :=
  match resumedFrom with
  | some seen =>
    if seen < currentSeq then
      sseEvent currentSeq "gap"
        (.obj [("seq", .ofNat currentSeq), ("missed", .ofNat (currentSeq - seen))])
    else sseEvent currentSeq "hello" (.obj [("seq", .ofNat currentSeq)])
  | none => sseEvent currentSeq "hello" (.obj [("seq", .ofNat currentSeq)])

/-- Open a stream, where the request may have one; the way it is authorised is settled here. -/
def stream (request : WebRequest) (resumedFrom : Option ℕ) : S (Option EventStream) := do
  let next : ℕ ← S.ask .subscribe
  let currentSeq : ℕ ← S.ask .seq
  let runtime : Runtime ← S.ask .current
  let requiresSession := runtime.authToken.isSome
  let bearerAuthenticated :=
    match runtime.authToken, request.authorization.join with
    | some expected, some token => expected.verify token
    | _, _ => false
  if requiresSession && !bearerAuthenticated && request.session.isNone then pure none
  else
    let generation : ℕ ← S.ask .generation
    let s : EventStream :=
      { requiresSession, bearerAuthenticated, session := request.session, generation, next }
    (S.ask (.respond s (opening currentSeq resumedFrom)) : S Unit)
    pure (some s)

/-- Whether the stream may still be sent something. -/
def admitted (s : EventStream) : S Bool :=
  if s.guarded then
    match s.session with
    | some id => S.ask (.hasSession id)
    | none => pure false
  else pure true

/-- Send what was taken from the channel. -/
def send (s : EventStream) : Received → S Unit
  | .event e => do
    let generation : ℕ ← S.ask .generation
    let payload := payloadFor e.kind ++ [("seq", .ofNat e.seq)] ++
      if generation ≠ s.generation then [("generation_changed", .bool true)] else []
    S.ask (.deliver (sseEvent e.seq (nameFor e.kind) (.obj payload)))
  | .lagged missed =>
    S.ask (.deliver (sseEvent 0 "gap"
      (.obj [("missed", .ofNat missed), ("reason", .str "the client fell behind")])))
  | .pending | .closed => pure ()

/-- Send on what was taken from the channel, unless the session is gone; the stream ends with the
    channel only. -/
def pass (s : EventStream) : Received × ℕ → S (Option EventStream)
  | (.closed, _) => do
    (S.ask .finish : S Unit)
    pure none
  | (.pending, _) => pure (some s)
  | (received, next) => do
    let live ← s.admitted
    if live then s.send received else pure ()
    pure (some { s with next })

/-- The next event. -/
def emit (s : EventStream) : S (Option EventStream) := do
  let taken : Received × ℕ ← S.ask (.recv s.next)
  s.pass taken

/-- So many events of a stream. -/
def follow : ℕ → EventStream → S Unit
  | 0, _ => pure ()
  | n + 1, s => do
    match ← s.emit with
    | none => pure ()
    | some s => follow n s

/-- `GET /api/v1/events`, for so many events. -/
def serve (request : WebRequest) (resumedFrom : Option ℕ) (n : ℕ) : S Unit := do
  match ← SeedMedic.guarded request (stream request resumedFrom) with
  | .ok (some s) => follow n s
  | _ => pure ()

end EventStream

end SeedMedic
