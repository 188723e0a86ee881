/-
  Which errors of the ports a step parks its job for, and which it would have tried again.
-/
import SeedMedic.Repair.Calls
import SeedMedic.Repair.ResumeSafety

namespace SeedMedic

open Lib Prog

/-- An error of the tracker, the client or the staging area. -/
inductive Refusal where
  | tracker (e : TrackerError)
  | client (e : ClientError)
  | staging (e : StagingError)

namespace Refusal

def isTransient : Refusal → Bool
  | tracker e => e.isTransient
  | client e => e.isTransient
  | staging e => e.isTransient

/-- An adapter that is not built yet, or a staging area that has no way to do what it is asked. -/
def IsForeseen : Refusal → Prop
  | tracker (.notImplemented _) | client (.notImplemented _) | staging _ => True
  | _ => False

end Refusal

/-- The error a call was answered with. -/
def refusal : (c : Call) → Ans c → Option Refusal
  | .tracker (.fetchTorrentFile ..), .error e => some (.tracker e)
  | .tracker (.hitAndRunStatus ..), .error e => some (.tracker e)
  | .client (.addPaused _), .error e => some (.client e)
  | .client (.status _), .error e => some (.client e)
  | .client (.recheck _), .error e => some (.client e)
  | .client (.resume _), .error e => some (.client e)
  | .client (.remove ..), .error e => some (.client e)
  | .staging (.materialize ..), .error e => some (.staging e)
  | .staging (.inspect _), .error e => some (.staging e)
  | .staging (.discard _), .error e => some (.staging e)
  | _, _ => none

/-- Everything is permitted, and the last error remembered. -/
def refusing : Rules Call Ans (Option Refusal) where
  may _ _ := True
  next c r last last' := last' = (refusal c r).or last

/-- A park for review, or a way back. -/
def StepOutcome.Parks : StepOutcome → Prop
  | .review .. | .rewind .. => True
  | _ => False

/-- An error that is here to stay parks the job exactly when it is foreseen. -/
def ParksForeseen (outcome : StepOutcome) (last : Option Refusal) : Prop :=
  ∀ e, last = some e → e.isTransient = false → (outcome.Parks ↔ e.IsForeseen)

variable {deps : RepairDeps} {job : RepairJob} {last : Option Refusal}

theorem parksForeseen_none {outcome : StepOutcome} : ParksForeseen outcome none := nofun

theorem parksForeseen_some {outcome : StepOutcome} {e : Refusal}
    (h : e.isTransient = false → (outcome.Parks ↔ e.IsForeseen)) :
    ParksForeseen outcome (some e) := by
  intro e' he ht
  cases he
  exact h ht

theorem clientRefused_parks (e : ClientError) : ParksForeseen (clientRefused e) (some (.client e)) := by
  refine parksForeseen_some fun ht => ?_
  cases e with
  | notImplemented d => exact Iff.rfl
  | transport detail => cases ht
  | protocol detail => cases ht
  | unauthorized => exact Iff.rfl
  | rejected detail => exact Iff.rfl

theorem stagingRefused_parks (preference : List MaterializationStrategy) (e : StagingError) :
    ParksForeseen (stagingRefused preference e) (some (.staging e)) := by
  refine parksForeseen_some fun ht => ?_
  cases e with
  | io detail => cases ht
  | _ => exact Iff.rfl

theorem tracker_retried_parks {e : TrackerError} (h : ∀ d, e ≠ .notImplemented d) :
    ParksForeseen (.retry e.toText) (some (.tracker e)) := by
  refine parksForeseen_some fun ht => ?_
  cases e with
  | notImplemented d => exact absurd rfl (h d)
  | transport detail => cases ht
  | protocol detail => cases ht
  | rateLimited seconds => cases ht
  | unauthorized => exact Iff.rfl
  | notFound torrent => exact Iff.rfl

/-- A call that no port is asked by. -/
def Unrefused (c : Call) : Prop := ∀ r, refusal c r = none

/-- What no port is asked by leaves no error. -/
theorem obeys_of_unrefused {p : M StepOutcome} (h : p.Only Unrefused) :
    p.Obeys refusing none ParksForeseen := by
  have hnone : p.Obeys refusing none fun _ last => last = none :=
    h.obeys rfl fun c last hc hlast => ⟨trivial, fun r last' hn => by
      rw [show last' = (refusal c r).or last from hn, hc r, hlast]
      rfl⟩
  refine hnone.mono fun outcome last hlast => ?_
  rw [hlast]
  exact parksForeseen_none

/-! ## The steps -/

theorem fetchTorrent_parks : (fetchTorrent deps job).Obeys refusing none ParksForeseen := by
  unfold fetchTorrent
  split_ifs
  · refine M.obeys_tracker trivial fun r last hn => ?_
    cases hn
    cases r with
    | ok bytes => exact parksForeseen_none
    | error e =>
      cases e with
      | notImplemented d => exact parksForeseen_some fun _ => Iff.rfl
      | _ => exact tracker_retried_parks nofun
  · exact parksForeseen_none

/-- The library is not one of the ports. -/
theorem matchMedia_unrefused : (matchMedia deps job).Only Unrefused :=
  matchMedia_only (fun _ _ => rfl) (fun _ => rfl) (fun _ => rfl) fun _ => rfl

theorem stageFiles_parks : (stageFiles deps job).Obeys refusing none ParksForeseen := by
  refine M.obeys_store trivial fun r last hn => ?_
  cases hn
  split
  · exact parksForeseen_none
  · split
    · exact parksForeseen_none
    · simp only
      split_ifs
      · exact parksForeseen_none
      · refine M.obeys_staging trivial fun r last hn => ?_
        cases hn
        cases r with
        | error e => exact stagingRefused_parks _ e
        | ok layout => exact parksForeseen_none

theorem inject_parks : (inject deps job).Obeys refusing none ParksForeseen := by
  unfold inject
  split
  · refine M.obeys_store trivial fun r last hn => ?_
    cases hn
    split
    · exact parksForeseen_none
    · exact parksForeseen_none
    · refine M.obeys_client trivial fun r last hn => ?_
      cases hn
      cases r with
      | error e => exact clientRefused_parks e
      | ok _ =>
        refine obeys_of_unrefused ((M.only_expect _ fun _ => rfl).bind fun path => ?_)
        trivial
  · exact parksForeseen_none

theorem startRecheck_parks : (startRecheck job).Obeys refusing none ParksForeseen := by
  unfold startRecheck
  split
  · exact parksForeseen_none
  · refine M.obeys_client trivial fun r last hn => ?_
    cases hn
    rcases r with e | ⟨⟩ | status
    · exact clientRefused_parks e
    · exact parksForeseen_none
    · refine M.obeys_client trivial fun r last hn => ?_
      cases hn
      cases r with
      | error e => exact clientRefused_parks e
      | ok _ => exact obeys_of_unrefused (M.only_now (fun _ => rfl) fun _ =>
          M.only_now (fun _ => rfl) fun _ => trivial)

/-- Where the client's view is not to be had, the outcome in its place parks what is foreseen; where
    it is, no port has refused. -/
def StatusForeseen {α : Type} (r : Except StepOutcome α) (last : Option Refusal) : Prop :=
  match r with
  | .error outcome => ParksForeseen outcome last
  | .ok _ => last = none

theorem currentStatus_parks : (currentStatus deps job).Obeys refusing none StatusForeseen := by
  unfold currentStatus
  split
  · exact parksForeseen_none
  · refine M.obeys_client trivial fun r last hn => ?_
    cases hn
    rcases r with e | ⟨⟩ | status
    · exact clientRefused_parks e
    · exact parksForeseen_none
    · simp only
      split
      · refine M.obeys_now trivial fun now last hn => ?_
        cases hn
        exact parksForeseen_none
      · exact parksForeseen_none
      · rfl

theorem verify_parks : (verify deps job).Obeys refusing none ParksForeseen := by
  refine currentStatus_parks.bind fun r last hr => ?_
  cases r with
  | error outcome => exact hr
  | ok status =>
    cases hr
    exact parksForeseen_none

theorem resume_parks : (resume deps job).Obeys refusing none ParksForeseen := by
  refine currentStatus_parks.bind fun r last hr => ?_
  cases r with
  | error outcome => exact hr
  | ok status =>
    cases hr
    simp only
    split
    · exact parksForeseen_none
    · cases job.infoHash with
      | none => exact ⟨trivial, fun e => nomatch e⟩
      | some infoHash =>
        refine M.obeys_client trivial fun r last hn => ?_
        cases hn
        cases r with
        | error e => exact clientRefused_parks e
        | ok _ => exact parksForeseen_none

theorem checkClient_parks {infoHash : InfoHash} :
    (checkClient deps job infoHash).Obeys refusing none StatusForeseen := by
  refine M.obeys_client trivial fun r last hn => ?_
  cases hn
  rcases r with e | ⟨⟩ | status
  · exact clientRefused_parks e
  · exact parksForeseen_none
  · simp only
    split
    · rfl
    · rfl
    · split
      · exact parksForeseen_none
      · refine M.obeys_client trivial fun r last hn => ?_
        cases hn
        cases r with
        | error e => exact clientRefused_parks e
        | ok _ => rfl
    · exact parksForeseen_none
    · exact parksForeseen_none

theorem confirmWithTracker_parks :
    (confirmWithTracker deps job).Obeys refusing none ParksForeseen := by
  unfold confirmWithTracker
  split_ifs
  · refine M.obeys_tracker trivial fun r last hn => ?_
    cases hn
    cases r with
    | error e =>
      cases e with
      | notImplemented d => exact parksForeseen_some fun _ => Iff.rfl
      | _ => exact tracker_retried_parks nofun
    | ok status =>
      split
      · exact parksForeseen_none
      · split
        · exact parksForeseen_none
        · refine checkClient_parks.bind fun r last hr => ?_
          cases r with
          | error outcome => exact hr
          | ok status =>
            cases hr
            refine M.obeys_now trivial fun now last hn => ?_
            cases hn
            exact parksForeseen_none
  · exact parksForeseen_none

/-- In every state and under every policy, an error that is here to stay parks the job exactly when
    its adapter is not built or it comes from the staging area. -/
theorem step_parks_iff (deps : RepairDeps) (job : RepairJob) :
    (step deps job).Obeys refusing none fun outcome last =>
      ∀ e, last = some e → e.isTransient = false → (outcome.Parks ↔ e.IsForeseen) := by
  unfold step
  split
  · exact fetchTorrent_parks
  · exact obeys_of_unrefused matchMedia_unrefused
  · exact stageFiles_parks
  · exact inject_parks
  · exact startRecheck_parks
  · exact verify_parks
  · exact resume_parks
  · exact confirmWithTracker_parks
  · exact parksForeseen_none
  · exact parksForeseen_none
  · exact parksForeseen_none

/-- A client that rejects the credentials is asked again. -/
theorem unauthorized_retried : ¬∀ (deps : RepairDeps) (job : RepairJob),
    (step deps job).Obeys refusing none fun outcome last =>
      ∀ e, last = some e → e.isTransient = false → outcome.Parks := by
  intro h
  obtain ⟨-, hstep⟩ := h anyDeps verifiedJob
  exact hstep (.error .unauthorized) _ rfl (.client .unauthorized) rfl rfl

end SeedMedic
