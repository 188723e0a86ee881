/-
  Everything that runs on one service at once: requests, reloads and workers, interleaved at
  their calls.
-/
import SeedMedic.Lib.Pool
import SeedMedic.Repair.Serve
import SeedMedic.Web.Events
import SeedMedic.Web.Settings.SaveAndReload

namespace SeedMedic

open Lib

/-- The service with threads on it: who holds the lock, and what is noted of their calls. -/
structure Shared (ι N : Type) where
  service : Service
  holder : Option ι
  notes : N

/-- A call that is neither about the lock nor one of the workflow. -/
def ServiceCall.Plain : ServiceCall → Prop
  | lockWorker | unlockWorker | work _ => False
  | _ => True

namespace Shared

variable {ι N : Type}

/-- How a call of a thread may be answered, with the service and the holder of the lock it
    leaves. -/
inductive Answers (w : Shared ι N) (i : ι) :
    (c : ServiceCall) → c.Ans → Service → Option ι → Prop
  /-- The lock is waited for; a thread that died with it has left it to the next in its place. -/
  | lock (free : w.holder = none ∨ w.holder = some i) :
    Answers w i .lockWorker () w.service (some i)
  | unlock : Answers w i .unlockWorker () w.service none
  | work {now : Time} {c : Call} {r : Ans c} {store : SqliteRepairStore} (health : Option Time)
      (diagnostics : Diagnostics) (replied : w.service.store.Replies now c r store) :
    Answers w i (.work c) r
      { w.service with store, health, diagnostics, bus := w.service.bus.heard c } w.holder
  | plain {env : ServiceEnv} {c : ServiceCall} {r : c.Ans} {service : Service} (plain : c.Plain)
      (served : Service.serve env c w.service = some (r, service)) :
    Answers w i c r service w.holder

end Shared

/-- Run a program for what it does. -/
def runFor {α : Type} (p : S α) : S Unit := do
  let _ ← p
  pure ()

namespace RuntimeHandle

/-- Stop the worker for good. -/
def stopForGood : S Unit := do
  (S.ask .lockWorker : S Unit)
  let running : Bool ← S.ask .takeWorker
  if running then (S.ask .stopWorker : S Unit)
  (S.ask .unlockWorker : S Unit)

/-- The lock of a thread that died is given back. -/
def dropGuard : S Unit := do
  (S.ask .lockWorker : S Unit)
  (S.ask .unlockWorker : S Unit)

end RuntimeHandle

/-- What runs on the service. -/
inductive Serving : S Unit → Prop
  | login (token : String) : Serving (runFor (login.submit token))
  | createSession (token : String) : Serving (runFor (session.create token))
  | logout (request : WebRequest) : Serving (runFor (guarded request (logout request.session)))
  | destroySession (session : Option String) : Serving (logout session)
  | save (request : WebRequest) (syn : TomlSyntax) (doc : ConfigDocument) :
    Serving (runFor (guarded request (saveAndReload syn doc)))
  | reload : Serving (runFor RuntimeHandle.reload)
  | stream (request : WebRequest) (resumedFrom : Option ℕ) (n : ℕ) :
    Serving (EventStream.serve request resumedFrom n)
  /-- Whatever an operator has done to the jobs. -/
  | act (request : WebRequest) (p : M Unit) : Serving (runFor (guarded request (S.work p)))
  /-- Whatever a worker does. -/
  | work (p : M Unit) : Serving (S.work p)
  | stopForGood : Serving RuntimeHandle.stopForGood
  | dropGuard : Serving RuntimeHandle.dropGuard

section
variable (ι : Type) {N : Type}
  (note : ι → (c : ServiceCall) → c.Ans → Shared ι N → N)

/-- Any number of threads on one service, whose file others edit, where new jobs turn up, and whose
    feed carries what else there is to tell. -/
def services : System ι ServiceCall ServiceCall.Ans (Shared ι N) where
  answers i c w r w' := ∃ service holder, w.Answers i c r service holder ∧
    w' = ⟨service, holder, note i c r w⟩
  moves w w' :=
    (∃ dir, w' = { w with service := { w.service with dir } }) ∨
    (∃ now h d store, w.service.store.recordDiscovery now h = .ok (d, store) ∧
      w' = { w with service := { w.service with store } }) ∨
    ∃ kind, kind ≠ .authTokenChanged ∧
      w' = { w with service := { w.service with bus := w.service.bus.publish kind } }
  starts _ p := Serving p

end

/-! ## What a plain call changes -/

namespace Service

variable {env : ServiceEnv} {c : ServiceCall} {r : c.Ans} {w w' : Service}

/-- Only the workflow touches the jobs. -/
theorem serve_store (hc : c.Plain) (h : serve env c w = some (r, w')) : w'.store = w.store := by
  cases c with
  | work c => exact hc.elim
  | lockWorker => exact hc.elim
  | unlockWorker => exact hc.elim
  | _ => cases h; rfl

/-- The generation a call leaves. -/
def installed (w : Service) : ServiceCall → Runtime
  | .install runtime => runtime
  | _ => w.current

/-- Only an installation changes the generation. -/
theorem serve_current (hc : c.Plain) (h : serve env c w = some (r, w')) :
    w'.current = w.installed c := by
  cases c with
  | work c => exact hc.elim
  | lockWorker => exact hc.elim
  | unlockWorker => exact hc.elim
  | _ => cases h; rfl

end Service

/-! ## One thread after another -/

/-- How the workflow's calls are answered when only the store and the clock are there. -/
def SqliteRepairStore.reply (s : SqliteRepairStore) :
    (c : Call) → Option (Ans c × SqliteRepairStore)
  | .store c => some (s.answer 0 c)
  | .now => some (0, s)
  | .shuttingDown => some (false, s)
  | .publish _ | .notify _ | .recordTick _ | .enterStep _ => some ((), s)
  | _ => none

theorem SqliteRepairStore.reply_replies {s : SqliteRepairStore} {c : Call}
    {a : Ans c × SqliteRepairStore} (h : s.reply c = some a) : s.Replies 0 c a.1 a.2 := by
  cases c with
  | store c => cases h; exact .served
  | now => cases h; exact ⟨rfl, rfl⟩
  | client c => cases h
  | tracker c => cases h
  | library c => cases h
  | staging c => cases h
  | panic => cases h
  | _ => cases h; rfl

namespace Shared

variable {ι N : Type}

/-- How a call of a thread is answered where the surroundings answer in one way. -/
def reply (env : ServiceEnv) (note : ι → (c : ServiceCall) → c.Ans → Shared ι N → N) (i : ι) :
    (c : ServiceCall) → Shared ι N → Option (c.Ans × Shared ι N)
  | .lockWorker, w =>
    if w.holder.isNone then some ((), ⟨w.service, some i, note i .lockWorker () w⟩) else none
  | .unlockWorker, w => some ((), ⟨w.service, none, note i .unlockWorker () w⟩)
  | .work c, w => (w.service.store.reply c).map fun a =>
    (a.1, ⟨{ w.service with store := a.2, bus := w.service.bus.heard c }, w.holder,
      note i (.work c) a.1 w⟩)
  | c, w => (Service.serve env c w.service).map fun a => (a.1, ⟨a.2, w.holder, note i c a.1 w⟩)

theorem reply_answers {e : ServiceEnv} {note : ι → (c : ServiceCall) → c.Ans → Shared ι N → N}
    {i : ι} {c : ServiceCall} {w : Shared ι N} {a : c.Ans × Shared ι N}
    (h : reply e note i c w = some a) : (services ι note).answers i c w a.1 a.2 := by
  have hplain : c.Plain → (Service.serve e c w.service).map (fun a =>
      (a.1, (⟨a.2, w.holder, note i c a.1 w⟩ : Shared ι N))) = some a →
        (services ι note).answers i c w a.1 a.2 := by
    intro hc h
    obtain ⟨⟨r, service⟩, hserved, rfl⟩ := Option.map_eq_some_iff.1 h
    exact ⟨service, w.holder, .plain hc hserved, rfl⟩
  cases c with
  | lockWorker =>
    cases hfree : w.holder with
    | none =>
      simp only [reply, hfree, Option.isNone_none, if_true] at h
      cases h
      exact ⟨_, _, .lock (.inl hfree), rfl⟩
    | some j =>
      simp only [reply, hfree] at h
      cases h
  | unlockWorker => cases h; exact ⟨_, _, .unlock, rfl⟩
  | work c =>
    obtain ⟨⟨r, store⟩, hreply, rfl⟩ := Option.map_eq_some_iff.1 h
    exact ⟨_, _, .work w.service.health w.service.diagnostics
      (SqliteRepairStore.reply_replies hreply), rfl⟩
  | _ => exact hplain trivial h

end Shared

end SeedMedic
