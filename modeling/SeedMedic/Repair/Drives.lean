/-
  One drive of a job (`repair/worker.rs`): its rounds, what each of them writes, and how the job is
  left.
-/
import SeedMedic.Repair.Calls
import SeedMedic.Repair.ReconcileSpec
import SeedMedic.Repair.ResumeSafety

namespace SeedMedic

open Lib Prog

/-! ## Calls told apart -/

def Call.isApply : Call → Bool
  | .store (.apply ..) => true
  | _ => false

def Call.isRenewal : Call → Bool
  | .store (.renewLease ..) => true
  | _ => false

def Call.isRelease : Call → Bool
  | .store (.release ..) => true
  | _ => false

/-- A renewal that says that the lease is lost. -/
def LostLease (e : Σ c, Ans c) : Prop :=
  ∃ id owner lease, e = ⟨.store (.renewLease id owner lease), .ok false⟩

/-- A call that neither moves the job nor has to do with its lease. -/
def Aside : Call → Prop
  | .store (.apply ..) | .store (.renewLease ..) | .store (.release ..) => False
  | _ => True

/-- How many transitions are written. -/
def appliedIn (log : Answered) : ℕ := log.countP fun e => e.1.isApply

section
variable {log first second : Answered} {e : Σ c, Ans c}

theorem LostLease.not_aside (h : LostLease e) : ¬Aside e.1 := by
  obtain ⟨_, _, _, rfl⟩ := h
  exact not_false

theorem not_lostLease (h : e.1.isRenewal = false) : ¬LostLease e := by
  rintro ⟨_, _, _, rfl⟩
  cases h

@[simp] theorem appliedIn_append :
    appliedIn (first ++ second) = appliedIn first + appliedIn second := List.countP_append

theorem Call.not_aside_of_isApply {c : Call} (h : c.isApply = true) : ¬Aside c := by
  unfold isApply at h
  split at h
  · exact not_false
  · cases h

theorem Call.not_aside_of_isRelease {c : Call} (h : c.isRelease = true) : ¬Aside c := by
  unfold isRelease at h
  split at h
  · exact not_false
  · cases h

theorem stepCall_aside {c : Call} (h : StepCall c) : Aside c := by
  cases c with
  | store c => cases c <;> trivial
  | _ => trivial

theorem appliedIn_of_aside (h : ∀ e ∈ log, Aside e.1) : appliedIn log = 0 :=
  List.countP_eq_zero.2 fun e he happly => Call.not_aside_of_isApply happly (h e he)

theorem kept_of_aside (h : ∀ e ∈ log, Aside e.1) : ∀ e ∈ log, ¬LostLease e :=
  fun e he hlost => hlost.not_aside (h e he)

end

/-! ## What follows a step -/

/-- The attempt is counted when the job is left so. -/
def Control.counts : Control → Bool
  | .leave (some stop) => stop.countAttempt
  | _ => false

/-- The lease is kept to the end, or lost by the last call. -/
def KeepsUnless (lost : Prop) (log : Answered) : Prop :=
  (¬lost ∧ ∀ e ∈ log, ¬LostLease e) ∨
    (lost ∧ ∃ before e, log = before ++ [e] ∧ LostLease e ∧ ∀ e' ∈ before, ¬LostLease e')

theorem KeepsUnless.of_aside {lost : Prop} {log : Answered} (hlost : ¬lost)
    (h : ∀ e ∈ log, Aside e.1) : KeepsUnless lost log := .inl ⟨hlost, kept_of_aside h⟩

theorem KeepsUnless.append {lost : Prop} {first second : Answered}
    (h : KeepsUnless lost second) (hfirst : ∀ e ∈ first, ¬LostLease e) :
    KeepsUnless lost (first ++ second) := by
  obtain ⟨hlost, hsecond⟩ | ⟨hlost, before, e, rfl, he, hbefore⟩ := h
  · exact .inl ⟨hlost, List.forall_mem_append.2 ⟨hfirst, hsecond⟩⟩
  · exact .inr ⟨hlost, first ++ before, e, (List.append_assoc _ _ _).symm, he,
      List.forall_mem_append.2 ⟨hfirst, hbefore⟩⟩

theorem KeepsUnless.cons {lost : Prop} {e : Σ c, Ans c} {rest : Answered}
    (h : KeepsUnless lost rest) (he : ¬LostLease e) : KeepsUnless lost (e :: rest) :=
  h.append (List.forall_mem_singleton.2 he)

section
variable {deps : RepairDeps} {config : WorkerConfig} {job : RepairJob} {log : Answered}
  {control : Control}

theorem recordAdvance_aside {t : Transition} : (recordAdvance job t).Only Aside :=
  recordAdvance_only (fun _ => trivial) fun _ => trivial

theorem reload_aside {id : JobId} : (reload id).Only Aside := by
  refine M.only_store trivial fun r => ?_
  split <;> trivial

/-- A job that is left to be retried is counted. -/
theorem stopForRetry_completes {attempts : ℕ} {stop : Stop}
    (h : (stopForRetry deps job attempts).Completes log stop) :
    stop.countAttempt = true ∧ ∀ e ∈ log, Aside e.1 := by
  refine ⟨?_, (stopForRetry_only trivial).completes h⟩
  obtain ⟨-, -, -, -, -, -, -, rfl⟩ := h
  rfl

/-- A renewal that fails to be made does not lose the lease. -/
theorem renewLease_completes {id : JobId} {held : Bool}
    (h : (renewLease config id).Completes log held) :
    appliedIn log = 0 ∧ KeepsUnless (held = false) log := by
  obtain ⟨r, rest, rfl, h⟩ := h
  cases r with
  | error e =>
    obtain ⟨rfl, rfl⟩ := h
    refine ⟨rfl, .inl ⟨by simp, List.forall_mem_singleton.2 ?_⟩⟩
    rintro ⟨_, _, _, he⟩
    cases he
  | ok b =>
    obtain ⟨rfl, rfl⟩ := h
    cases held with
    | true =>
      refine ⟨rfl, .inl ⟨by simp, List.forall_mem_singleton.2 ?_⟩⟩
      rintro ⟨_, _, _, he⟩
      cases he
    | false => exact ⟨rfl, .inr ⟨rfl, [], _, rfl, ⟨_, _, _, rfl⟩, by simp⟩⟩

theorem proceed_completes {id : JobId} (h : (proceed config id).Completes log control) :
    appliedIn log = 0 ∧ KeepsUnless (control = .leave none) log ∧ control.counts = false := by
  obtain ⟨held, first, second, rfl, hrenew, h⟩ := completes_bind.1 h
  obtain ⟨hnone, hkeeps⟩ := renewLease_completes hrenew
  cases held with
  | false =>
    obtain ⟨rfl, rfl⟩ := h
    rw [List.append_nil]
    exact ⟨hnone, by simpa using hkeeps, rfl⟩
  | true =>
    obtain ⟨next, reloaded, rest, rfl, hreload, h⟩ := completes_bind.1 h
    have haside := reload_aside.completes hreload
    have hcontrol : rest = [] ∧ control ≠ .leave none ∧ control.counts = false := by
      cases next with
      | none =>
        obtain ⟨hrest, rfl⟩ := h
        exact ⟨hrest, by simp, rfl⟩
      | some next =>
        obtain ⟨hrest, rfl⟩ := h
        split_ifs <;> exact ⟨hrest, by simp, rfl⟩
    obtain ⟨rfl, hcontrol, hcounts⟩ := hcontrol
    rw [List.append_nil]
    refine ⟨by rw [appliedIn_append, hnone, appliedIn_of_aside haside], ?_, hcounts⟩
    refine (KeepsUnless.of_aside hcontrol haside).append ?_
    obtain ⟨-, hkept⟩ | ⟨hlost, -⟩ := hkeeps
    · exact hkept
    · cases hlost

/-- Parking writes one transition at most. -/
theorem park_completes {reason : ReviewReason} {detail : Option Json} {patch : JobPatch}
    (h : (park job reason detail patch).Completes log ()) :
    appliedIn log ≤ 1 ∧ ∀ e ∈ log, ¬LostLease e := by
  unfold park at h
  split at h
  · obtain ⟨rfl, -⟩ := h
    exact ⟨Nat.zero_le _, by simp⟩
  · obtain ⟨r, rest, rfl, h⟩ := h
    have haside : ∀ e ∈ rest, Aside e.1 := by
      cases r with
      | error e =>
        obtain ⟨rfl, -⟩ := h
        simp
      | ok a =>
        refine Only.completes (P := Aside) ?_ h
        exact ⟨trivial, fun _ => ⟨trivial, fun _ => trivial⟩⟩
    have hrest := appliedIn_of_aside haside
    refine ⟨?_, List.forall_mem_cons.2 ⟨not_lostLease rfl, kept_of_aside haside⟩⟩
    rw [appliedIn, List.countP_cons_of_pos rfl]
    exact (congrArg Nat.succ hrest).le

end

/-! ## Rounds -/

/-- A transition could not be written, for another reason than that the job has moved. -/
def FailedApply (log : Answered) : Prop :=
  ∃ id t u error, ⟨.store (.apply id t u), .error error⟩ ∈ log ∧
    ∀ id expected actual, error ≠ .conflict id expected actual

/-- One round of a drive: the job, what its step called and concluded, what carrying that out
    called, and where it led. -/
structure DriveRound where
  job : RepairJob
  outcome : StepOutcome
  stepped : Answered
  settled : Answered
  control : Control

namespace DriveRound

/-- The calls of a round, from the look for a shutdown on. -/
def calls (r : DriveRound) : Answered :=
  ⟨.shuttingDown, false⟩ :: ⟨.enterStep r.job, ()⟩ :: (r.stepped ++ r.settled)

/-- The step concludes so after these calls, and so does what carries it out. -/
structure Made (deps : RepairDeps) (config : WorkerConfig) (r : DriveRound) : Prop where
  stepped : (step deps r.job).Completes r.stepped r.outcome
  settled : ∃ summary summary',
    (settle deps config r.job summary r.outcome).Completes r.settled (summary', r.control)

/-- A step to be retried within the budget, or one that advanced without that being written. -/
def Counts (deps : RepairDeps) (r : DriveRound) : Prop :=
  (∃ error, r.outcome = .retry error ∧ succAttempts r.job.attempts < deps.policy.maxAttempts) ∨
    (∃ detail patch, r.outcome = .advance detail patch) ∧ FailedApply r.settled

end DriveRound

/-- What carrying out a conclusion does about the job and its lease. -/
structure Settlement (counts : Prop) (log : Answered) (control : Control) : Prop where
  once : appliedIn log ≤ 1
  keeps : KeepsUnless (control = .leave none) log
  counts : control.counts = true ↔ counts

section
variable {deps : RepairDeps} {config : WorkerConfig} {job : RepairJob} {log rest : Answered}
  {summary summary' : TickSummary} {control : Control}

theorem failedApply_cons {id : JobId} {t : Transition} {u : TransitionUpdate}
    {a : Except StoreError Applied} (hrest : appliedIn rest = 0) :
    FailedApply (⟨.store (.apply id t u), a⟩ :: rest) ↔
      ∃ error, a = .error error ∧ ∀ id expected actual, error ≠ .conflict id expected actual := by
  constructor
  · rintro ⟨id', t', u', error, hmem, hne⟩
    obtain heq | hmem := List.mem_cons.1 hmem
    · cases heq
      exact ⟨error, rfl, hne⟩
    · exact absurd rfl (List.countP_eq_zero.1 hrest _ hmem)
  · rintro ⟨error, rfl, hne⟩
    exact ⟨id, t, u, error, List.mem_cons_self, hne⟩

/-- A transition is written, and nothing follows that writes another one. -/
theorem Settlement.of_apply {counts : Prop} {id : JobId} {t : Transition} {u : TransitionUpdate}
    {a : Except StoreError Applied} (hrest : appliedIn rest = 0)
    (hkeeps : KeepsUnless (control = .leave none) rest)
    (hcounts : control.counts = true ↔ counts) :
    Settlement counts (⟨.store (.apply id t u), a⟩ :: rest) control where
  once := by
    rw [appliedIn, List.countP_cons_of_pos rfl]
    exact (congrArg Nat.succ hrest).le
  keeps := hkeeps.cons (not_lostLease rfl)
  counts := hcounts

theorem settleAdvance_settlement {detail : Option Json} {patch : JobPatch}
    (h : (settleAdvance deps config job summary detail patch).Completes log (summary', control)) :
    Settlement (FailedApply log) log control := by
  unfold settleAdvance at h
  split at h
  · obtain ⟨rfl, h⟩ := h
    cases h
    refine ⟨Nat.zero_le _, .inl ⟨by simp, by simp⟩, ?_⟩
    simp [Control.counts, Stop.idle, FailedApply]
  · rw [M.store_bind] at h
    obtain ⟨a, rest, rfl, h⟩ := h
    cases a with
    | ok a =>
      have hrest : appliedIn rest = 0 ∧ KeepsUnless (control = .leave none) rest ∧
          control.counts = false := by
        cases a with
        | applied =>
          obtain ⟨_, told, _, rfl, htold, hon⟩ := completes_bind.1 h
          obtain ⟨_, went, _, rfl, hproceed, hend⟩ := completes_bind.1 hon
          obtain ⟨rfl, hend⟩ := hend
          cases hend
          have haside := recordAdvance_aside.completes htold
          obtain ⟨hnone, hkeeps, hcounts⟩ := proceed_completes hproceed
          rw [List.append_nil]
          refine ⟨?_, hkeeps.append (kept_of_aside haside), hcounts⟩
          rw [appliedIn_append, appliedIn_of_aside haside, hnone]
        | alreadyInTargetState =>
          obtain ⟨_, went, _, rfl, hproceed, hend⟩ := completes_bind.1 h
          obtain ⟨rfl, hend⟩ := hend
          cases hend
          rw [List.append_nil]
          exact proceed_completes hproceed
      refine .of_apply hrest.1 hrest.2.1 ?_
      rw [failedApply_cons hrest.1, hrest.2.2]
      simp
    | error e =>
      cases e with
      | conflict id expected actual =>
        obtain ⟨rfl, h⟩ := h
        cases h
        refine .of_apply rfl (.inl ⟨by simp, by simp⟩) ?_
        rw [failedApply_cons rfl]
        simp [Control.counts, Stop.idle]
      | _ =>
        obtain ⟨stop, delayed, _, rfl, hstop, hend⟩ := completes_bind.1 h
        obtain ⟨rfl, hend⟩ := hend
        cases hend
        obtain ⟨hcount, haside⟩ := stopForRetry_completes hstop
        rw [List.append_nil]
        have hnone := appliedIn_of_aside haside
        refine .of_apply hnone (.of_aside (by simp) haside) ?_
        rw [failedApply_cons hnone]
        simp [Control.counts, hcount]

/-- A rewind is never counted, also where it cannot be written. -/
theorem settleRewind_settlement {target : RepairState} {note : String}
    (h : (settleRewind job target note).Completes log control) : Settlement False log control := by
  unfold settleRewind at h
  split at h
  · obtain ⟨rfl, rfl⟩ := h
    exact ⟨Nat.zero_le _, .inl ⟨by simp, by simp⟩, by simp [Control.counts, Stop.idle]⟩
  · rw [M.store_bind] at h
    obtain ⟨a, rest, rfl, h⟩ := h
    have hrest : (∀ e ∈ rest, Aside e.1) ∧ control ≠ .leave none ∧ control.counts = false := by
      cases a with
      | error e =>
        obtain ⟨rfl, rfl⟩ := h
        exact ⟨by simp, by simp, rfl⟩
      | ok a =>
        dsimp only at h
        rw [M.publish_bind] at h
        obtain ⟨_, told, rfl, h⟩ := h
        obtain ⟨next, reloaded, _, rfl, hreload, hend⟩ := completes_bind.1 h
        have haside := reload_aside.completes hreload
        cases next with
        | none =>
          obtain ⟨rfl, rfl⟩ := hend
          rw [List.append_nil]
          exact ⟨List.forall_mem_cons.2 ⟨trivial, haside⟩, by simp, rfl⟩
        | some next =>
          obtain ⟨rfl, rfl⟩ := hend
          rw [List.append_nil]
          exact ⟨List.forall_mem_cons.2 ⟨trivial, haside⟩, by simp, rfl⟩
    obtain ⟨haside, hcontrol, hcounts⟩ := hrest
    exact .of_apply (appliedIn_of_aside haside) (.of_aside hcontrol haside) (by simp [hcounts])

theorem settleRetry_settlement {error : String}
    (h : (settleRetry deps job summary error).Completes log (summary', control)) :
    Settlement (succAttempts job.attempts < deps.policy.maxAttempts) log control := by
  unfold settleRetry at h
  dsimp only at h
  split_ifs at h with hspent
  · obtain ⟨_, parked, _, rfl, hpark, hend⟩ := completes_bind.1 h
    obtain ⟨rfl, hend⟩ := hend
    cases hend
    obtain ⟨honce, hkept⟩ := park_completes hpark
    rw [List.append_nil]
    exact ⟨honce, .inl ⟨by simp, hkept⟩, by simp [Control.counts, Stop.idle, hspent]⟩
  · obtain ⟨stop, delayed, _, rfl, hstop, hend⟩ := completes_bind.1 h
    obtain ⟨rfl, hend⟩ := hend
    cases hend
    obtain ⟨hcount, haside⟩ := stopForRetry_completes hstop
    rw [List.append_nil]
    refine ⟨(appliedIn_of_aside haside).le.trans (Nat.zero_le _), .of_aside (by simp) haside, ?_⟩
    simpa [Control.counts, hcount] using not_le.1 hspent

theorem settleWait_completes {after : Duration} {patch : JobPatch} {stop : Stop}
    (h : (settleWait job after patch).Completes log stop) :
    stop.countAttempt = false ∧ ∀ e ∈ log, Aside e.1 := by
  refine ⟨?_, (settleWait_only trivial trivial fun _ => trivial).completes h⟩
  have hreturns : (settleWait job after patch).Returns fun stop => stop.countAttempt = false := by
    unfold settleWait
    split_ifs
    · refine M.returns_store fun r => ?_
      split
      · exact M.returns_now fun _ => rfl
      · exact fun _ => M.returns_now fun _ => rfl
    · exact M.returns_now fun _ => rfl
  exact hreturns.completes h

/-- Carrying out a conclusion moves the job once at most, loses the lease only with its last call,
    and counts the attempt as it should. -/
theorem DriveRound.Made.settlement {r : DriveRound} (h : r.Made deps config) :
    Settlement (r.Counts deps) r.settled r.control := by
  obtain ⟨job, outcome, stepped, settled, control⟩ := r
  obtain ⟨summary, summary', hsettle⟩ := h.settled
  unfold Counts
  cases outcome with
  | advance detail patch => simpa using settleAdvance_settlement hsettle
  | retry error => simpa using settleRetry_settlement hsettle
  | rewind target note =>
    obtain ⟨_, went, _, hlog, hrewind, hend⟩ := completes_bind.1 hsettle
    obtain ⟨rfl, hend⟩ := hend
    cases hend
    dsimp only at hlog
    subst hlog
    simpa using settleRewind_settlement hrewind
  | review reason detail patch =>
    obtain ⟨_, parked, _, hlog, hpark, hend⟩ := completes_bind.1 hsettle
    obtain ⟨rfl, hend⟩ := hend
    cases hend
    dsimp only at hlog
    subst hlog
    obtain ⟨honce, hkept⟩ := park_completes hpark
    rw [List.append_nil]
    exact ⟨honce, .inl ⟨by simp, hkept⟩, by simp [Control.counts, Stop.idle]⟩
  | wait after note patch =>
    obtain ⟨stop, waited, _, hlog, hwait, hend⟩ := completes_bind.1 hsettle
    obtain ⟨rfl, hend⟩ := hend
    cases hend
    dsimp only at hlog
    subst hlog
    obtain ⟨hcount, haside⟩ := settleWait_completes hwait
    rw [List.append_nil]
    refine ⟨(appliedIn_of_aside haside).le.trans (Nat.zero_le _), .of_aside (by simp) haside, ?_⟩
    simp [Control.counts, hcount]

/-- A step and what carries it out leave the job's lease to the drive. -/
theorem DriveRound.Made.unreleased {r : DriveRound} (h : r.Made deps config) :
    ∀ e ∈ r.calls, e.1.isRelease = false := by
  obtain ⟨summary, summary', hsettle⟩ := h.settled
  refine List.forall_mem_cons.2 ⟨rfl, List.forall_mem_cons.2 ⟨rfl, ?_⟩⟩
  refine List.forall_mem_append.2 ⟨fun e he => ?_, ?_⟩
  · have hcall := step_stepCalls.completes h.stepped e he
    cases hrelease : e.1.isRelease with
    | false => rfl
    | true => exact absurd (stepCall_aside hcall) (Call.not_aside_of_isRelease hrelease)
  · exact (settle_only (P := fun c => c.isRelease = false) (fun _ _ _ _ _ => rfl) rfl rfl rfl rfl
      (fun _ => rfl) fun _ => rfl).completes hsettle

/-- The calls of a round are beside the point but for those that carry it out. -/
theorem DriveRound.Made.stepped_aside {r : DriveRound} (h : r.Made deps config) :
    ∀ e ∈ r.stepped, Aside e.1 :=
  fun e he => stepCall_aside (step_stepCalls.completes h.stepped e he)

theorem DriveRound.Made.once {r : DriveRound} (h : r.Made deps config) : appliedIn r.calls ≤ 1 := by
  have hcalls : appliedIn r.calls = appliedIn (r.stepped ++ r.settled) := by
    rw [DriveRound.calls, appliedIn, List.countP_cons_of_neg (by simp [Call.isApply]),
      List.countP_cons_of_neg (by simp [Call.isApply])]
    rfl
  rw [hcalls, appliedIn_append, appliedIn_of_aside h.stepped_aside, Nat.zero_add]
  exact h.settlement.once

theorem DriveRound.Made.keeps {r : DriveRound} (h : r.Made deps config) :
    KeepsUnless (r.control = .leave none) r.calls := by
  have hsettled := h.settlement.keeps.append (kept_of_aside h.stepped_aside)
  exact (hsettled.cons (not_lostLease rfl)).cons (not_lostLease rfl)

end

/-! ## Drives -/

/-- The rounds that a drive makes, `bound` at most, whether it then sees a shutdown, and how it
    leaves the job. -/
inductive Drives (deps : RepairDeps) (config : WorkerConfig) :
    ℕ → RepairJob → List DriveRound → Answered → Option Stop → Prop
  | spent {job : RepairJob} : Drives deps config 0 job [] [] (some .idle)
  | told {bound : ℕ} {job : RepairJob} :
    Drives deps config (bound + 1) job [] [⟨.shuttingDown, true⟩] (some .idle)
  | left {bound : ℕ} {r : DriveRound} {stop : Option Stop} (made : r.Made deps config)
      (leaves : r.control = .leave stop) : Drives deps config (bound + 1) r.job [r] [] stop
  | on {bound : ℕ} {r : DriveRound} {next : RepairJob} {rounds : List DriveRound}
      {looked : Answered} {stop : Option Stop} (made : r.Made deps config)
      (goes : r.control = .next next) (rest : Drives deps config bound next rounds looked stop) :
    Drives deps config (bound + 1) r.job (r :: rounds) looked stop

section
variable {deps : RepairDeps} {config : WorkerConfig} {job : RepairJob} {log looked : Answered}
  {summary summary' : TickSummary} {rounds : List DriveRound} {stop : Option Stop} {bound : ℕ}

theorem driveLoop_drives
    (h : (driveLoop deps config bound job summary).Completes log (summary', stop)) :
    ∃ rounds looked, log = rounds.flatMap DriveRound.calls ++ looked ∧
      Drives deps config bound job rounds looked stop := by
  induction bound generalizing job summary log with
  | zero =>
    obtain ⟨rfl, h⟩ := h
    cases h
    exact ⟨[], [], rfl, .spent⟩
  | succ bound ih =>
    unfold driveLoop at h
    rw [M.shuttingDown_bind] at h
    obtain ⟨told, rest, rfl, h⟩ := h
    cases told with
    | true =>
      obtain ⟨rfl, h⟩ := h
      cases h
      exact ⟨[], _, rfl, .told⟩
    | false =>
      obtain ⟨⟨summary₁, control⟩, first, second, rfl, hround, hon⟩ := completes_bind.1 h
      unfold driveRound at hround
      rw [M.enterStep_bind] at hround
      obtain ⟨_, calls, rfl, hround⟩ := hround
      obtain ⟨outcome, stepped, settled, rfl, hstep, hsettle⟩ := completes_bind.1 hround
      let r : DriveRound := ⟨job, outcome, stepped, settled, control⟩
      have hmade : r.Made deps config := ⟨hstep, summary, summary₁, hsettle⟩
      cases control with
      | leave stop =>
        obtain ⟨rfl, hend⟩ := hon
        cases hend
        exact ⟨[r], [], by simp [r, DriveRound.calls], .left hmade rfl⟩
      | next next =>
        obtain ⟨rounds, looked, rfl, hdrives⟩ := ih hon
        exact ⟨r :: rounds, looked, by simp [r, DriveRound.calls], .on hmade rfl hdrives⟩

namespace Drives

theorem length_le (h : Drives deps config bound job rounds looked stop) :
    rounds.length ≤ bound := by
  induction h with
  | spent => exact le_rfl
  | told => exact Nat.zero_le _
  | left => exact Nat.succ_le_succ (Nat.zero_le _)
  | on _ _ _ ih => exact Nat.succ_le_succ ih

theorem made (h : Drives deps config bound job rounds looked stop) :
    ∀ r ∈ rounds, r.Made deps config := by
  induction h with
  | spent => simp
  | told => simp
  | left hmade => exact List.forall_mem_singleton.2 hmade
  | on hmade _ _ ih => exact List.forall_mem_cons.2 ⟨hmade, ih⟩

/-- A shutdown that is seen is the last thing a drive looks at. -/
theorem looked_eq (h : Drives deps config bound job rounds looked stop) :
    looked = [] ∨ looked = [⟨.shuttingDown, true⟩] ∧ stop ≠ none := by
  induction h with
  | spent => exact .inl rfl
  | told => exact .inr ⟨rfl, by simp⟩
  | left => exact .inl rfl
  | on _ _ _ ih => exact ih

theorem keeps (h : Drives deps config bound job rounds looked stop) :
    KeepsUnless (stop = none) (rounds.flatMap DriveRound.calls ++ looked) := by
  induction h with
  | spent => exact .inl ⟨by simp, by simp⟩
  | told => exact .inl ⟨by simp, List.forall_mem_singleton.2 (not_lostLease rfl)⟩
  | left hmade hleaves =>
    have hkeeps := hmade.keeps
    rw [hleaves] at hkeeps
    simpa using hkeeps
  | on hmade hgoes _ ih =>
    rw [List.flatMap_cons, List.append_assoc]
    refine ih.append ?_
    obtain ⟨-, hkept⟩ | ⟨hlost, -⟩ := hmade.keeps
    · exact hkept
    · rw [hgoes] at hlost
      cases hlost

/-- The attempt is counted for what the last round concluded. -/
theorem counts_iff (h : Drives deps config bound job rounds looked stop) :
    (∃ s, stop = some s ∧ s.countAttempt = true) ↔ ∃ r ∈ rounds.getLast?, r.Counts deps := by
  induction h with
  | spent => simp [Stop.idle]
  | told => simp [Stop.idle]
  | left hmade hleaves =>
    have hcounts := hmade.settlement.counts
    rw [hleaves] at hcounts
    simp only [List.getLast?_singleton, Option.mem_some_iff, exists_eq_left', ← hcounts]
    cases ‹Option Stop› <;> simp [Control.counts]
  | on hmade hgoes hrest ih =>
    have hcounts := hmade.settlement.counts
    rw [hgoes] at hcounts
    cases hrest with
    | spent => simp [Stop.idle, ← hcounts, Control.counts]
    | told => simp [Stop.idle, ← hcounts, Control.counts]
    | left => simpa using ih
    | on => simpa using ih

end Drives

/-- A drive makes at most twice as many rounds as a repair has states on its way, each with one
    step and one transition at most. It ends with the renewal that shows the lease lost, or gives
    the job back once, with the attempt counted for what the last round concluded. -/
theorem drive_leaves (h : (drive deps config job summary).Completes log summary') :
    ∃ (rounds : List DriveRound) (looked left : Answered),
      log = rounds.flatMap DriveRound.calls ++ looked ++ left ∧
      (looked = [] ∨ looked = [⟨.shuttingDown, true⟩]) ∧
      rounds.length ≤ RepairState.PROGRESSION.length * 2 ∧
      (∀ r ∈ rounds, r.Made deps config ∧ appliedIn r.calls ≤ 1 ∧
        ∀ e ∈ r.calls, e.1.isRelease = false) ∧
      ((left = [] ∧ ∃ before e, log = before ++ [e] ∧ LostLease e ∧
          ∀ e' ∈ before, ¬LostLease e') ∨
        ((∀ e ∈ log, ¬LostLease e) ∧ ∃ retryAt count answer,
          left = [⟨.store (.release job.id retryAt count), answer⟩] ∧
            (count = true ↔ ∃ r ∈ rounds.getLast?, r.Counts deps))) := by
  obtain ⟨⟨summary₁, stop⟩, looped, left, rfl, hloop, hend⟩ := completes_bind.1 h
  obtain ⟨rounds, looked, rfl, hdrives⟩ := driveLoop_drives hloop
  have hrounds : ∀ r ∈ rounds, r.Made deps config ∧ appliedIn r.calls ≤ 1 ∧
      ∀ e ∈ r.calls, e.1.isRelease = false :=
    fun r hr => ⟨hdrives.made r hr, (hdrives.made r hr).once, (hdrives.made r hr).unreleased⟩
  refine ⟨rounds, looked, left, rfl, hdrives.looked_eq.imp id And.left, hdrives.length_le,
    hrounds, ?_⟩
  cases stop with
  | none =>
    obtain ⟨rfl, -⟩ := hend
    rw [List.append_nil]
    obtain ⟨hstop, -⟩ | ⟨-, hlost⟩ := hdrives.keeps
    · exact absurd rfl hstop
    · exact .inl ⟨rfl, hlost⟩
  | some stop =>
    dsimp only [release] at hend
    rw [M.store_bind] at hend
    obtain ⟨answer, rest, rfl, hrest⟩ := hend
    obtain ⟨rfl, -⟩ := hrest
    obtain ⟨-, hkept⟩ | ⟨hstop, -⟩ := hdrives.keeps
    · refine .inr ⟨List.forall_mem_append.2 ⟨hkept, ?_⟩, ?_⟩
      · exact List.forall_mem_singleton.2 (not_lostLease rfl)
      · exact ⟨stop.retryAt, stop.countAttempt, answer, rfl, by simpa using hdrives.counts_iff⟩
    · cases hstop

end

/-! ## A job that has moved -/

/-- A torrent is in the client, to be checked. -/
def injectedJob : RepairJob := { verifiedJob with state := .injected }

/-- Answers to a drive that checks the torrent, with what becomes of the transition. -/
def answerRecheck (applied : Except StoreError Applied) : (c : Call) → Option (Ans c)
  | .client (.status _) => some (.ok (some completeTorrent))
  | .client (.recheck _) => some (.ok ())
  | .store (.apply ..) => some applied
  | .store (.renewLease ..) => some (.ok false)
  | .store (.release ..) => some (.ok ())
  | .now => some 5
  | .shuttingDown => some false
  | .publish _ | .enterStep _ => some ()
  | _ => none

def recheckTransition : Transition := ⟨.injected, .rechecking, .progress, none, by decide⟩

def recheckUpdate : TransitionUpdate where
  detail := some (.obj [("started_at", .ofNat 5)])
  failureReason := none
  patch := { JobPatch.default with recheckingStartedAt := some 5 }

/-- The write of the step, and its answer. -/
def recheckApplied (applied : Except StoreError Applied) : Σ c, Ans c :=
  ⟨.store (.apply injectedJob.id recheckTransition recheckUpdate), applied⟩

/-- The round in which the torrent is checked. -/
def recheckRound (settled : Answered) (control : Control) : DriveRound where
  job := injectedJob
  outcome := .advance recheckUpdate.detail recheckUpdate.patch
  stepped := [⟨.client (.status sevens), .ok (some completeTorrent)⟩,
    ⟨.client (.recheck sevens), .ok ()⟩, ⟨.now, (5 : ℕ)⟩, ⟨.now, (5 : ℕ)⟩]
  settled := settled
  control := control

def recheckConfig : WorkerConfig := ⟨"a", .fromSecs 60, 4⟩

/-- A drive that loses its lease after its first round. -/
def lostRound : DriveRound := recheckRound
  [recheckApplied (.ok .applied),
    ⟨.publish (.jobTransitioned injectedJob.id .injected .rechecking "progress"), ()⟩,
    ⟨.store (.renewLease injectedJob.id "a" (.fromSecs 60)), .ok false⟩] (.leave none)

/-- The drive ends with the renewal, and gives nothing back. -/
theorem lost_drive_leaves : ∃ (rounds : List DriveRound) (looked left : Answered),
    lostRound.calls = rounds.flatMap DriveRound.calls ++ looked ++ left ∧ left = [] := by
  have hrun : (drive anyDeps recheckConfig injectedJob .default).replay (Recorder.whole Call Ans)
      (answerRecheck (.ok .applied)) =
        some ({ TickSummary.default with advanced := 1 }, lostRound.calls) := by
    rfl
  obtain ⟨rounds, looked, left, hlog, -, -, -, hend⟩ := drive_leaves (completes_of_replay hrun)
  refine ⟨rounds, looked, left, hlog, ?_⟩
  obtain ⟨hleft, -⟩ | ⟨hkept, -⟩ := hend
  · exact hleft
  · exact absurd ⟨_, _, _, rfl⟩ (hkept ⟨.store (.renewLease injectedJob.id "a" (.fromSecs 60)),
      .ok false⟩ (by simp [lostRound, recheckRound, DriveRound.calls]))

/-- A round whose transition finds the job in its next state already. -/
def movedRound : DriveRound :=
  recheckRound [recheckApplied (.error (.conflict injectedJob.id .injected .rechecking))]
    (.leave (some .idle))

/-- An advance that is not written, as the job has moved, is given back uncounted. -/
theorem moved_drive_uncounted : ¬∀ (deps : RepairDeps) (config : WorkerConfig) (job : RepairJob)
    (summary summary' : TickSummary) (log : Answered) (rounds : List DriveRound)
    (retryAt : Option Time) (count : Bool) (answer : Except StoreError Unit),
    (drive deps config job summary).Completes log summary' → (∀ r ∈ rounds, r.Made deps config) →
    log = rounds.flatMap DriveRound.calls ++
      [⟨.store (.release job.id retryAt count), answer⟩] →
    (count = true ↔ ∃ r ∈ rounds.getLast?,
      (∃ error, r.outcome = .retry error ∧ succAttempts r.job.attempts < deps.policy.maxAttempts) ∨
        ∃ id t u error, ⟨.store (.apply id t u), .error error⟩ ∈ r.settled) := by
  intro h
  have hrun : (drive anyDeps recheckConfig injectedJob .default).replay (Recorder.whole Call Ans)
      (answerRecheck (.error (.conflict injectedJob.id .injected .rechecking))) =
        some (.default, [movedRound].flatMap DriveRound.calls ++
          [⟨.store (.release injectedJob.id none false), .ok ()⟩]) := by
    rfl
  have hstep : (step anyDeps injectedJob).replay (Recorder.whole Call Ans)
      (answerRecheck (.error (.conflict injectedJob.id .injected .rechecking))) =
        some (movedRound.outcome, movedRound.stepped) := by
    rfl
  have hsettle : (settle anyDeps recheckConfig injectedJob .default movedRound.outcome).replay
      (Recorder.whole Call Ans)
      (answerRecheck (.error (.conflict injectedJob.id .injected .rechecking))) =
        some ((.default, movedRound.control), movedRound.settled) := by
    rfl
  have hmade : movedRound.Made anyDeps recheckConfig :=
    ⟨completes_of_replay hstep, _, _, completes_of_replay hsettle⟩
  have hcounted := (h _ _ _ _ _ _ _ _ _ _ (completes_of_replay hrun)
    (List.forall_mem_singleton.2 hmade) rfl).2
      ⟨movedRound, rfl, .inr ⟨_, _, _, _, List.mem_cons_self⟩⟩
  cases hcounted

end SeedMedic
