/-
  The operator's actions on several jobs at once, over both transports (`web/review.rs`,
  `web/api/actions.rs`).
-/
import SeedMedic.Runtime.Handle
import SeedMedic.Web.Reclaim

namespace SeedMedic

open Lib

/-! ## The pages -/

namespace Review

/-- What became of one job of a bulk action. -/
structure BulkOutcome where
  id : JobId
  result : Except String Unit

/-- What a bulk action plans for a job, or why it cannot. -/
abbrev BulkPlan := RepairJob → Except String (RepairState × TransitionReason × TransitionUpdate)

/-- One job of a bulk action. -/
def bulkOne (plan : BulkPlan) (id : JobId) : M (Except String Unit) := do
  match ← M.store (.job id) with
  | .error e => pure (.error e.toText)
  | .ok none => pure (.error "no such job")
  | .ok (some job) =>
    match plan job with
    | .error e => pure (.error e)
    | .ok (target, reason, update) =>
      match job.planTransition target reason with
      | .error e => pure (.error e.toText)
      | .ok transition =>
        match ← M.store (.apply job.id transition update) with
        | .error e => pure (.error e.toText)
        | .ok _ => pure (.ok ())

/-- Every job on its own: the failure of one does not stop the rest. -/
def bulk (plan : BulkPlan) : List JobId → M (List BulkOutcome)
  | [] => pure []
  | id :: ids => do
    let result ← bulkOne plan id
    let outcomes ← bulk plan ids
    pure (⟨id, result⟩ :: outcomes)

def bulkRetry : List JobId → M (List BulkOutcome) :=
  bulk fun job =>
    match job.reviewFromState with
    | none => .error "does not record which step it stopped at, so it cannot be retried"
    | some resumeTo => .ok (resumeTo, .operatorRetry,
        .withDetail (operatorJson "bulk_retry" [("resumed_at", .str resumeTo.asStr)]))

def bulkAbandon : List JobId → M (List BulkOutcome) :=
  bulk fun _ => .ok (.failed, .operatorAbandon,
    (TransitionUpdate.withDetail (operatorJson "bulk_abandon" [])).failedBecause
      "abandoned by operator")

end Review

/-! ## The interface -/

/-- The errors of the pages map straight across. -/
def ApiError.ofWeb : WebError → ApiError
  | .notFound => .notFound "No such repair job."
  | .refused message => .conflict message
  | .store error => .ofStore error

def ApiError.message : ApiError → String
  | notFound message | conflict message | internal message => message

namespace Api

/-- The most jobs one request may change. -/
def MAX_BULK : ℕ := 200

structure BulkResult where
  id : JobId
  ok : Bool
  message : Option String

structure BulkResponse where
  action : String
  applied : ℕ
  total : ℕ
  results : List BulkResult

def bulkResult (id : JobId) : Except WebError Unit → BulkResult
  | .ok () => ⟨id, true, none⟩
  | .error e => ⟨id, false, some (ApiError.ofWeb e).message⟩

/-- Every job on its own. -/
def bulkResults (run : JobId → M (Except WebError Unit)) : List JobId → M (List BulkResult)
  | [] => pure []
  | id :: ids => do
    let result ← run id
    let results ← bulkResults run ids
    pure (bulkResult id result :: results)

/-- The jobs an action changed. -/
def changed (results : List BulkResult) : List JobId := (results.filter (·.ok)).map (·.id)

/-- One event for the batch, where something changed. -/
def tellChanged (jobs : List JobId) : S Unit :=
  if jobs = [] then pure () else S.publish (.jobsChanged jobs)

def bulk (action : String) (ids : List JobId) (run : JobId → M (Except WebError Unit)) :
    S (Except ApiError BulkResponse) :=
  if MAX_BULK < ids.length then
    pure (.error (.conflict ("That is " ++ toString ids.length ++ " repairs; " ++
      toString MAX_BULK ++ " is the most one request may change at once.")))
  else do
    let results ← S.work (bulkResults run ids)
    tellChanged (changed results)
    pure (.ok ⟨action, (changed results).length, ids.length, results⟩)

def bulkRetry (ids : List JobId) : S (Except ApiError BulkResponse) := bulk "retry" ids retryAction

def bulkAbandon (ids : List JobId) : S (Except ApiError BulkResponse) :=
  bulk "abandon" ids abandonAction

end Api

end SeedMedic
