/-
  The notices an operator is sent about jobs: each parking and each completion once, right
  after it is written (`repair/worker.rs`, `notify/domain.rs`).
-/
import SeedMedic.Repair.Ledger
import SeedMedic.Repair.Logbook

namespace SeedMedic

open Lib Prog SqliteRepairStore

/-! ## What is due -/

/-- A notice, without the names it shows. -/
inductive Due where
  | completed (job : JobId)
  | parked (job : JobId) (reason : String)
  deriving DecidableEq

def NotificationEvent.due : NotificationEvent → Due
  | .parkedForReview job _ _ reason => .parked job reason
  | .completed job _ _ => .completed job

/-- The notice that the answer to a write makes due. -/
def dueFrom : (c : Call) → Ans c → Option Due
  | .store (.apply id t _), .ok outcome =>
    match t.reason with
    | .review reason => some (.parked id reason.asStr)
    | .progress => if outcome = .applied ∧ t.toState = .completed then some (.completed id) else none
    | _ => none
  | _, _ => none

/-- The store lists only jobs the worker acts on as unfinished. -/
def ListsUnfinished : (c : Call) → Ans c → Prop
  | .store .unfinished, .ok jobs => ∀ job ∈ jobs, job.state.isActionable = true
  | _, _ => True

/-- The rules of whoever notifies: what is due is told before anything else is done but publishing;
    and nothing takes a completed job back. -/
def telling : Rules Call Ans (Option Due) where
  may
    | .notify e, d => d = some e.due
    | .publish _, _ => True
    | .store (.apply _ t _), d => d = none ∧ t.fromState ≠ .completed
    | _, d => d = none
  next c r d d' := ListsUnfinished c r ∧
    d' = match c with
      | .publish _ => d
      | c => dueFrom c r

/-! ## The worker keeps the rules -/

/-- A call that makes nothing due. -/
def Quiet : Call → Prop
  | .notify _ => False
  | .store (.apply _ t _) =>
    (∀ reason, t.reason ≠ .review reason) ∧ t.reason ≠ .progress ∧ t.fromState ≠ .completed
  | _ => True

theorem Quiet.none_due {c : Call} (h : Quiet c) (r : Ans c) : dueFrom c r = none := by
  cases c with
  | store c =>
    cases c with
    | apply id t u =>
      cases r with
      | error e => rfl
      | ok outcome =>
        obtain ⟨hreview, hprogress, -⟩ := h
        simp only [dueFrom]
    | _ => rfl
  | _ => rfl

theorem Quiet.permitted {c : Call} (h : Quiet c) : telling.may c none ∧
    ∀ r d, telling.next c r none d → d = none := by
  refine ⟨?_, fun r d hn => ?_⟩
  · cases c with
    | store c =>
      cases c with
      | apply id t u => exact ⟨rfl, h.2.2⟩
      | _ => rfl
    | notify e => cases h
    | publish e => trivial
    | _ => rfl
  · obtain ⟨-, rfl⟩ := hn
    split
    · rfl
    · exact h.none_due r

section
variable {α : Type} {deps : RepairDeps} {config : WorkerConfig} {job : RepairJob}
  {summary : TickSummary}

/-- A program keeps the rules, and owes no notice at its end. -/
def Notifies (p : M α) : Prop := p.Obeys telling none fun _ d => d = none

theorem notifies_of_quiet {p : M α} (h : p.Only Quiet) : Notifies p :=
  h.obeys rfl fun c d hc hd => by
    subst hd
    exact hc.permitted

theorem Notifies.bind {β : Type} {p : M α} {f : α → M β} (h : Notifies p)
    (hf : ∀ a, Notifies (f a)) : Notifies (p >>= f) :=
  Obeys.bind h fun a d hd => by
    subst hd
    exact hf a

/-- A quiet call before the rest. -/
theorem Notifies.call {c : Call} {k : Ans c → M α} (hc : Quiet c) (hk : ∀ r, Notifies (k r)) :
    Notifies (.call c k) := by
  refine ⟨hc.permitted.1, fun r d hn => ?_⟩
  rw [hc.permitted.2 r d hn]
  exact hk r

theorem Notifies.shuttingDown {f : Bool → M α} (hf : ∀ b, Notifies (f b)) :
    Notifies (M.shuttingDown >>= f) := Notifies.call (c := .shuttingDown) trivial hf

theorem Notifies.now {f : Time → M α} (hf : ∀ t, Notifies (f t)) : Notifies (M.now >>= f) :=
  Notifies.call (c := .now) trivial hf

theorem Notifies.store {c : StoreCall} {f : c.Ans → M α} (hc : Quiet (.store c))
    (hf : ∀ r, Notifies (f r)) : Notifies (M.store c >>= f) := Notifies.call hc hf

theorem Notifies.publish {e : EventKind} {f : Unit → M α} (hf : Notifies (f ())) :
    Notifies (M.publish e >>= f) := Notifies.call (c := .publish e) trivial fun _ => hf

/-- A write before what it makes due. -/
theorem notifies_apply {id : JobId} {t : Transition} {u : TransitionUpdate}
    {f : Except StoreError Applied → M α} (ht : t.fromState ≠ .completed)
    (hf : ∀ r, (f r).Obeys telling (dueFrom (.store (.apply id t u)) r) fun _ d => d = none) :
    Notifies (M.store (.apply id t u) >>= f) :=
  M.obeys_store ⟨rfl, ht⟩ fun r d hn => by
    rw [hn.2]
    exact hf r

theorem step_quiet : (step deps job).Only Quiet := by
  refine step_stepCalls.mono fun c hc => ?_
  cases c with
  | store c =>
    cases c with
    | apply id t u => cases hc
    | _ => trivial
  | notify e => cases hc
  | _ => trivial

theorem proceed_notifies {id : JobId} : Notifies (proceed config id) :=
  notifies_of_quiet (proceed_only trivial trivial)

theorem stopForRetry_notifies {attempts : ℕ} : Notifies (stopForRetry deps job attempts) :=
  notifies_of_quiet (stopForRetry_only trivial)

/-- A parking that is written is told of with its reason. -/
theorem park_notifies {reason : ReviewReason} {detail : Option Json} {patch : JobPatch} :
    Notifies (park job reason detail patch) := by
  unfold park
  split
  · exact rfl
  · rename_i t ht
    have hreason : t.reason = .review reason := (validateTransition_ok ht).2.2.1
    refine notifies_apply (fun h => ?_) fun r => ?_
    · cases hreason.symm.trans (reconciles_completed h)
    split
    · exact rfl
    · rename_i outcome
      have hdue : dueFrom (.store (.apply job.id t ⟨detail, none, patch⟩)) (.ok outcome) =
          some (.parked job.id reason.asStr) := by simp only [dueFrom, hreason]
      rw [hdue]
      refine M.obeys_publish trivial fun d hn => ?_
      rw [hn.2]
      exact ⟨rfl, fun _ d hn => hn.2⟩

/-- A completion that is written is told of. -/
theorem recordAdvance_notifies {t : Transition} :
    (recordAdvance job t).Obeys telling
      (if t.toState = .completed then some (.completed job.id) else none) fun _ d => d = none := by
  unfold recordAdvance
  split_ifs
  · refine ⟨rfl, fun _ d hn => ?_⟩
    rw [hn.2]
    exact ⟨trivial, fun _ d hn => hn.2⟩
  · exact ⟨trivial, fun _ d hn => hn.2⟩

theorem settleAdvance_notifies {detail : Option Json} {patch : JobPatch} :
    Notifies (settleAdvance deps config job summary detail patch) := by
  unfold settleAdvance
  split
  · exact rfl
  · rename_i t ht
    have hreason : t.reason = .progress := (RepairJob.advance_ok ht).2.2
    refine notifies_apply (fun h => ?_) fun r => ?_
    · cases hreason.symm.trans (reconciles_completed h)
    split
    · have hdue : dueFrom (.store (.apply job.id t ⟨detail, none, patch⟩)) (.ok .applied) =
          if t.toState = .completed then some (.completed job.id) else none := by
        simp only [dueFrom, hreason, true_and]
      rw [hdue]
      refine recordAdvance_notifies.bind fun _ d hd => ?_
      subst hd
      exact proceed_notifies.bind fun _ => rfl
    · have hdue : dueFrom (.store (.apply job.id t ⟨detail, none, patch⟩))
          (.ok .alreadyInTargetState) = none := by
        simp only [dueFrom, hreason]
        exact if_neg fun h => nomatch h.1
      rw [hdue]
      exact proceed_notifies.bind fun _ => rfl
    · exact rfl
    · exact stopForRetry_notifies.bind fun _ => rfl

theorem settleRewind_notifies {target : RepairState} {note : String} (hstate : job.state ≠ .completed) :
    Notifies (settleRewind job target note) := by
  unfold settleRewind
  split
  · exact rfl
  · rename_i t ht
    obtain ⟨hfrom, -, hreason, -⟩ := validateTransition_ok ht
    have hreload : (reload job.id).Only Quiet := M.only_store trivial fun r => by split <;> trivial
    refine notifies_apply (fun h => hstate (hfrom.symm.trans h)) fun r => ?_
    split
    · exact rfl
    · rename_i outcome
      have hdue : dueFrom (.store (.apply job.id t (.withDetail
          (.obj [("note", .str note), ("from", .str job.state.asStr)])))) (.ok outcome) = none := by
        simp only [dueFrom, hreason]
      rw [hdue]
      refine Notifies.publish ((notifies_of_quiet hreload).bind fun next => ?_)
      split <;> exact rfl

/-- What a step concluded is carried out; a completed job is not taken back. -/
theorem settle_notifies {outcome : StepOutcome}
    (houtcome : job.state = .completed → ∀ target note, outcome ≠ .rewind target note) :
    Notifies (settle deps config job summary outcome) := by
  cases outcome with
  | advance detail patch => exact settleAdvance_notifies
  | rewind target note =>
    exact (settleRewind_notifies fun h => houtcome h target note rfl).bind fun _ => rfl
  | review reason detail patch => exact park_notifies.bind fun _ => rfl
  | wait after note patch =>
    exact (notifies_of_quiet (settleWait_only trivial trivial fun _ => trivial)).bind fun _ => rfl
  | retry error =>
    show Notifies (settleRetry deps job summary error)
    unfold settleRetry
    simp only
    split_ifs
    · exact park_notifies.bind fun _ => rfl
    · exact stopForRetry_notifies.bind fun _ => rfl

theorem driveRound_notifies : Notifies (driveRound deps config job summary) := by
  have hstep : Notifies (step deps job >>= settle deps config job summary) := by
    by_cases hstate : job.state = .completed
    · have hwait : step deps job = pure (.wait (.fromSecs 3600)
          (job.state.asStr ++ " is not a state the worker acts on") .default) := by
        unfold step
        rw [hstate]
      have hsettle : ∀ note, Notifies (settle deps config job summary
          (.wait (.fromSecs 3600) note .default)) := fun note =>
        settle_notifies fun _ _ _ h => by cases h
      rw [hwait]
      exact hsettle (job.state.asStr ++ " is not a state the worker acts on")
    · exact (notifies_of_quiet step_quiet).bind fun _ => settle_notifies fun h => absurd h hstate
  exact .call (c := .enterStep job) trivial fun _ => hstep

theorem driveLoop_notifies : ∀ (bound : ℕ) (job : RepairJob) (summary : TickSummary),
    Notifies (driveLoop deps config bound job summary)
  | 0, _, _ => rfl
  | bound + 1, job, summary => by
    refine .shuttingDown fun stopping => ?_
    split_ifs
    · exact rfl
    · refine driveRound_notifies.bind fun r => ?_
      split
      · exact driveLoop_notifies bound _ _
      · exact rfl

theorem drive_notifies : Notifies (drive deps config job summary) := by
  refine (driveLoop_notifies _ _ _).bind fun r => ?_
  obtain ⟨summary', stop⟩ := r
  cases stop with
  | none => exact rfl
  | some stop => exact .store trivial fun _ => rfl

theorem driveAll_notifies : ∀ (jobs : List RepairJob) (summary : TickSummary),
    Notifies (driveAll deps config jobs summary)
  | [], _ => rfl
  | job :: jobs, summary => by
    refine .shuttingDown fun stopping => ?_
    split_ifs
    · exact rfl
    · exact drive_notifies.bind fun _ => driveAll_notifies jobs _

/-- A tick tells of all it makes due, each before it goes on. -/
theorem tick_notifies : Notifies (tick deps config) := by
  refine .now fun now => .call (c := .recordTick now) trivial fun _ => .store trivial fun r => ?_
  split
  · exact rfl
  · exact (driveAll_notifies _ _).bind fun summary => .now fun _ => .publish rfl

end

/-! ## Everybody else makes nothing due -/

theorem allows_quiet : AllowsOperators Quiet where
  job _ := trivial
  history _ := trivial
  plannedFiles _ := trivial
  recordProgress _ _ := trivial
  apply _ t u hr hu := by
    refine ⟨?_, ?_, fun h => ?_⟩
    · rcases hr with hr | hr | hr <;> simp [hr]
    · rcases hr with hr | hr | hr <;> simp [hr]
    · rw [reconciles_completed h] at hr
      simp at hr
  remove _ := trivial
  discard _ := trivial
  publish _ := trivial
  panic := trivial

theorem OperatorProgram.quiet {id : JobId} {p : M Unit} (h : OperatorProgram id p) : p.Only Quiet :=
  h.only allows_quiet fun id t u hreason _ => by
    refine ⟨by simp [hreason], by simp [hreason], fun hfrom => ?_⟩
    cases hreason.symm.trans (reconciles_completed hfrom)

/-- A call of the reconciliation, but for the jobs it takes back. -/
theorem Quiet.of_asks {c : Call} (h : Asks c) : Quiet c := by
  cases c with
  | store c => cases c <;> trivial
  | notify e => exact h.elim
  | _ => trivial

theorem reconcileActionableJob_quiet {job : RepairJob} (hjob : job.state ≠ .completed) :
    (reconcileActionableJob job).Only Quiet := by
  refine (realityBackedTarget_asks.mono fun _ => Quiet.of_asks).bind fun target => ?_
  split_ifs
  · trivial
  · split
    · trivial
    · rename_i t ht
      obtain ⟨hfrom, -, hreason, -⟩ := validateTransition_ok ht
      refine M.only_store ⟨by simp [hreason], by simp [hreason], fun h => hjob (hfrom.symm.trans h)⟩
        fun r => ?_
      split <;> trivial

theorem reconcileParkedJob_quiet {job : RepairJob} : (reconcileParkedJob job).Only Quiet := by
  unfold reconcileParkedJob
  split
  · trivial
  · refine (realityBackedTarget_asks.mono fun _ => Quiet.of_asks).bind fun target => ?_
    split_ifs
    · trivial
    · refine M.only_store trivial fun r => ?_
      split <;> trivial

theorem reconcileAfter_notifies {cleared : ℕ} : Notifies (reconcileAfter cleared) := by
  refine M.obeys_store rfl fun r d hn => ?_
  obtain ⟨hlists, rfl⟩ := hn
  split
  · exact rfl
  · rename_i jobs
    have hmoved : ∀ jobs : List RepairJob, (∀ job ∈ jobs, job.state.isActionable = true) →
        (countMoved reconcileActionableJob jobs).Only Quiet := by
      intro jobs
      induction jobs with
      | nil => exact fun _ => trivial
      | cons job jobs ih =>
        intro hjobs
        obtain ⟨hjob, hjobs⟩ := List.forall_mem_cons.1 hjobs
        refine (reconcileActionableJob_quiet fun h => ?_).bind fun _ => (ih hjobs).bind fun _ => trivial
        rw [h] at hjob
        cases hjob
    have hparked : listParked.Only Quiet := M.only_store trivial fun r => by split <;> trivial
    refine (notifies_of_quiet (hmoved jobs hlists)).bind fun rewound => ?_
    refine (notifies_of_quiet hparked).bind fun parked => ?_
    refine (notifies_of_quiet (countMoved_only (fun _ => reconcileParkedJob_quiet) _)).bind fun _ => ?_
    exact .now fun _ => .publish rfl

theorem reconcileOnStartup_notifies {owner : String} : Notifies (reconcileOnStartup owner) := by
  refine .store trivial fun r => ?_
  split <;> exact reconcileAfter_notifies

/-- Whoever acts on jobs keeps the rules. -/
theorem AnyProgram.notifies {p : M Unit} (h : AnyProgram p) : Notifies p := by
  cases h with
  | tick deps config => exact tick_notifies.bind fun _ => rfl
  | reconcile owner => exact reconcileOnStartup_notifies.bind fun _ => rfl
  | operator h => exact notifies_of_quiet h.quiet

/-! ## A run to its end -/

/-- What the calls of a run made due, in their order. -/
def dues (log : List (Σ c, Ans c)) : List Due := log.filterMap fun e => dueFrom e.1 e.2

/-- What the operator was told of, in order. -/
def notices (log : List (Σ c, Ans c)) : List Due := log.filterMap fun e =>
  match e.1 with
  | .notify n => some n.due
  | _ => none

theorem dues_cons (c : Call) (r : Ans c) (log : List (Σ c, Ans c)) :
    dues (⟨c, r⟩ :: log) = (dueFrom c r).toList ++ dues log := by
  unfold dues
  rw [List.filterMap_cons]
  cases dueFrom c r <;> rfl

/-- A run by the rules tells of what it owes at its start and what it makes due, but for what it
    owes at its end. -/
theorem telling_settles {α : Type} {p : M α} {d : Option Due} {Q : α → Option Due → Prop}
    (h : p.Obeys telling d Q) {log : List (Σ c, Ans c)} {a : α} (hp : p.Completes log a)
    (hlog : ∀ e ∈ log, ListsUnfinished e.1 e.2) :
    ∃ d', Q a d' ∧ d.toList ++ dues log = notices log ++ d'.toList := by
  induction p generalizing d log with
  | ret b =>
    obtain ⟨rfl, rfl⟩ := hp
    exact ⟨d, h, by simp [dues, notices]⟩
  | call c k ih =>
    obtain ⟨r, rest, rfl, hrest⟩ := hp
    obtain ⟨hlists, hlog⟩ := List.forall_mem_cons.1 hlog
    obtain ⟨hmay, hk⟩ := h
    obtain ⟨d', hd', hrest⟩ := ih r (hk r _ ⟨hlists, rfl⟩) hrest hlog
    refine ⟨d', hd', ?_⟩
    rw [dues_cons]
    cases c with
    | notify e =>
      obtain rfl : d = some e.due := hmay
      exact congrArg (e.due :: ·) hrest
    | publish e => exact hrest
    | store c =>
      cases c with
      | apply id t u =>
        obtain rfl : d = none := hmay.1
        exact hrest
      | _ =>
        obtain rfl : d = none := hmay
        exact hrest
    | _ =>
      obtain rfl : d = none := hmay
      exact hrest

/-! ## Everybody side by side -/

/-- How often a job was completed. -/
def completions (s : SqliteRepairStore) (id : JobId) : ℕ :=
  s.transitions.countP fun row => row.jobId = id ∧ row.toState = .completed ∧ row.reason = "progress"

/-- How often a job was parked. -/
def parkings (s : SqliteRepairStore) (id : JobId) : ℕ :=
  s.transitions.countP fun row => row.jobId = id ∧ row.reason = "review"

def Due.completes (id : JobId) (d : Due) : Bool := d = .completed id

def Due.parks (id : JobId) : Due → Bool
  | .parked job _ => job = id
  | .completed _ => false

/-- What a call adds to the trail, as far as its answer makes it due. -/
structure Adds (c : Call) (r : Ans c) (s s' : SqliteRepairStore) : Prop where
  completed : ∀ id, completions s' id = completions s id + (dueFrom c r).toList.countP (Due.completes id)
  parked : ∀ id, parkings s' id ≤ parkings s id + (dueFrom c r).toList.countP (Due.parks id)

section
variable {s s' : SqliteRepairStore} {now : Time}

theorem Adds.nothing {c : Call} {r : Ans c} (h : dueFrom c r = none)
    (hs : s'.transitions = s.transitions) : Adds c r s s' := by
  constructor
  · intro id
    simp [completions, hs, h]
  · intro id
    simp [parkings, hs, h]

theorem Adds.row {c : Call} {r : Ans c} {row : TransitionRow} (h : dueFrom c r = none)
    (hs : s'.transitions = s.transitions ++ [row]) (hprogress : row.reason ≠ "progress")
    (hreview : row.reason ≠ "review") : Adds c r s s' := by
  constructor
  · intro id
    simp [completions, hs, h, hprogress, List.countP_append]
  · intro id
    simp [parkings, hs, h, hreview, List.countP_append]

theorem apply_adds {id : JobId} {t : Transition} {u : TransitionUpdate}
    (h : s.apply now id t u = .ok (.applied, s')) :
    Adds (.store (.apply id t u)) (.ok .applied) s s' := by
  have htrail := apply_applied_transitions h
  cases hreason : t.reason with
  | progress =>
    have hdue : dueFrom (.store (.apply id t u)) (.ok .applied) =
        if t.toState = .completed then some (.completed id) else none := by
      simp only [dueFrom, hreason, true_and]
    rw [hreason] at htrail
    constructor
    · intro k
      rw [completions, htrail, hdue, List.countP_append]
      by_cases hto : t.toState = .completed
      · by_cases hid : id = k <;> simp [completions, hto, hid, Due.completes, TransitionReason.asStr]
      · simp [completions, hto]
    · intro k
      rw [parkings, htrail, List.countP_append]
      simp [parkings, TransitionReason.asStr]
  | review reason =>
    have hdue : dueFrom (.store (.apply id t u)) (.ok .applied) =
        some (.parked id reason.asStr) := by simp only [dueFrom, hreason]
    rw [hreason] at htrail
    constructor
    · intro k
      rw [completions, htrail, hdue, List.countP_append]
      simp [completions, TransitionReason.asStr, Due.completes]
    · intro k
      rw [parkings, htrail, hdue, List.countP_append]
      by_cases hid : id = k <;> simp [parkings, hid, Due.parks, TransitionReason.asStr]
  | _ =>
    refine .row ?_ htrail ?_ ?_
    · simp only [dueFrom, hreason]
    · simp [hreason, TransitionReason.asStr]
    · simp [hreason, TransitionReason.asStr]

/-- A write that finds its job moved already. -/
theorem already_adds {id : JobId} {t : Transition} {u : TransitionUpdate} :
    Adds (.store (.apply id t u)) (.ok .alreadyInTargetState) s s := by
  cases hreason : t.reason with
  | review reason =>
    have hdue : dueFrom (.store (.apply id t u)) (.ok .alreadyInTargetState) =
        some (.parked id reason.asStr) := by simp only [dueFrom, hreason]
    refine ⟨fun k => ?_, fun k => ?_⟩
    · rw [hdue]
      rfl
    · exact Nat.le_add_right _ _
  | _ =>
    refine .nothing ?_ rfl
    simp [dueFrom, hreason]

/-- Everything the store answers adds to the trail what is due for it. -/
theorem SqliteRepairStore.Replies.adds {c : Call} {r : Ans c} (h : s.Replies now c r s') :
    Adds c r s s' := by
  cases c with
  | store c =>
    cases c with
    | apply id t u =>
      cases h with
      | failed detail => exact .nothing rfl rfl
      | served =>
        simp only [answer]
        cases ha : s.apply now id t u with
        | error e => exact .nothing rfl rfl
        | ok a =>
          obtain ⟨outcome, s₁⟩ := a
          obtain ⟨-, -, ⟨rfl, -⟩ | ⟨rfl, -, -, rfl⟩⟩ := apply_ok ha
          · exact apply_adds ha
          · exact already_adds
    | setReviewResumePoint id state =>
      cases h with
      | failed detail => exact .nothing rfl rfl
      | served =>
        simp only [answer]
        cases ha : s.setReviewResumePoint now id state with
        | error e => exact .nothing rfl rfl
        | ok s₁ =>
          rcases setReviewResumePoint_cases ha with rfl | ⟨_, _, _, -, -, -, rfl⟩
          · exact .nothing rfl rfl
          · exact .row rfl rfl (by simp) (by simp)
    | _ =>
      cases h with
      | failed detail => exact .nothing rfl rfl
      | served => exact .nothing rfl rfl
  | now => exact .nothing rfl (congrArg _ h.2)
  | _ => exact .nothing rfl (congrArg SqliteRepairStore.transitions h)

/-- A job was completed once at most, and then is. -/
structure Closed (s : SqliteRepairStore) (id : JobId) : Prop where
  once : completions s id ≤ 1
  still : 0 < completions s id → ∃ row, s.jobs.get? id = some row ∧ row.state = .completed

/-- A completed job stays completed, unless it is taken back. -/
theorem completed_stays {c : Call} {r : Ans c} {id : JobId} {row : JobRow}
    (h : s.Replies now c r s') (hc : ∀ id t u, c = .store (.apply id t u) → t.fromState ≠ .completed)
    (hrow : s.jobs.get? id = some row) (hstate : row.state = .completed) :
    ∃ row, s'.jobs.get? id = some row ∧ row.state = .completed := by
  obtain ⟨row', hrow'⟩ : ∃ row', s'.jobs.get? id = some row' := by
    cases c with
    | store c =>
      cases h with
      | served => exact answer_found hrow
      | failed detail => exact ⟨row, hrow⟩
    | now => exact ⟨row, h.2 ▸ hrow⟩
    | _ => exact ⟨row, (show s' = s from h) ▸ hrow⟩
  refine ⟨row', hrow', ?_⟩
  obtain ⟨row₀, hrow₀, hchanged⟩ := h.changed hrow'
  obtain rfl := Option.some.inj (hrow.symm.trans hrow₀)
  rcases hchanged with rfl | ⟨c', rfl, hchanged⟩
  · exact hstate
  cases hchanged with
  | @moved t u call left => exact absurd (left.symm.trans hstate) (hc _ t u (congrArg _ call))
  | patched call => exact hstate
  | repointed call parked recorded => exact hstate
  | rescheduled h =>
    obtain ⟨_, _, _, _, _, rfl⟩ := h
    exact hstate

/-- A completion is due where it was written. -/
theorem completed_due {c : Call} {r : Ans c} {id : JobId} (h : s.Replies now c r s')
    (hdue : dueFrom c r = some (.completed id)) : ∃ t u, c = .store (.apply id t u) ∧
      t.toState = .completed ∧ s.apply now id t u = .ok (.applied, s') := by
  cases c with
  | store c =>
    cases c with
    | apply id' t u =>
      cases h with
      | failed detail => cases hdue
      | served =>
        simp only [answer] at hdue ⊢
        cases ha : s.apply now id' t u with
        | error e =>
          rw [ha] at hdue
          cases hdue
        | ok a =>
          obtain ⟨outcome, s₁⟩ := a
          rw [ha] at hdue
          simp only [dueFrom, orKeep] at hdue
          split at hdue
          · cases hdue
          · split_ifs at hdue with hto
            obtain ⟨rfl, hto⟩ := hto
            cases hdue
            exact ⟨t, u, rfl, hto, ha⟩
          · cases hdue
    | _ => cases hdue
  | _ => cases hdue

/-- A completion is the only one. -/
theorem SqliteRepairStore.Replies.closed {c : Call} {r : Ans c} {id : JobId}
    (h : s.Replies now c r s') (hc : ∀ id t u, c = .store (.apply id t u) → t.fromState ≠ .completed)
    (hs : Closed s id) : Closed s' id := by
  have hadds := h.adds.completed id
  by_cases hdue : dueFrom c r = some (.completed id)
  · obtain ⟨t, u, rfl, hto, happly⟩ := completed_due h hdue
    obtain ⟨row, hrow, ⟨-, hfrom, -⟩ | ⟨hno, -⟩⟩ := apply_ok happly
    · have hnone : completions s id = 0 := by
        refine Nat.eq_zero_of_not_pos fun hpos => ?_
        obtain ⟨row', hrow', hstate⟩ := hs.still hpos
        obtain rfl := Option.some.inj (hrow.symm.trans hrow')
        exact hc id t u rfl (hfrom.symm.trans hstate)
      refine ⟨?_, fun _ => ⟨_, (apply_applied_get happly id).trans (congrArg _ hrow), ?_⟩⟩
      · rw [hadds, hnone, hdue]
        simp [Due.completes]
      · rw [movedRow, if_pos (Table.get?_some hrow).2]
        exact hto
    · cases hno
  · have hsame : completions s' id = completions s id := by
      rw [hadds, Nat.add_eq_left, List.countP_eq_zero]
      intro d hd hcompletes
      rw [Option.mem_toList] at hd
      exact hdue (hd.trans (congrArg some (of_decide_eq_true hcompletes)))
    refine ⟨hsame.trans_le hs.once, fun hpos => ?_⟩
    obtain ⟨row, hrow, hstate⟩ := hs.still (hsame ▸ hpos)
    exact completed_stays h hc hrow hstate

end

/-- The store, what the operator was told of, and what threads have made due and not told of, as
    they still have to, or died before. -/
structure Noticed (ι : Type) where
  store : SqliteRepairStore
  now : Time
  told : List Due
  owed : List (ι × Due)

namespace Noticed

variable {ι : Type} (w : Noticed ι)

def opening (s : SqliteRepairStore) (now : Time) : Noticed ι := ⟨s, now, [], []⟩

/-- How many notices of a kind the operator was told of or is owed. -/
def noted (p : Due → Bool) : ℕ := w.told.countP p + w.owed.countP fun o => p o.2

variable [DecidableEq ι]

/-- The world after a call of a thread was answered. -/
def after (i : ι) (c : Call) (r : Ans c) (s : SqliteRepairStore) : Noticed ι :=
  match c with
  | .notify e => { w with store := s, told := e.due :: w.told, owed := w.owed.erase (i, e.due) }
  | c => { w with store := s, owed := (dueFrom c r).toList.map (Prod.mk i) ++ w.owed }

end Noticed

/-- Workers, reconciliations and operators side by side, on one store that may fail. -/
def noticed (ι : Type) [DecidableEq ι] : System ι Call Ans (Noticed ι) where
  answers i c w r w' := ∃ s, w.store.Replies w.now c r s ∧ w' = w.after i c r s
  moves w w' := ∃ now s, w.now ≤ now ∧
    (s = w.store ∨ ∃ h d, w.store.recordDiscovery w.now h = .ok (d, s)) ∧
      w' = { w with store := s, now }
  starts _ := AnyProgram

section
variable {ι : Type} {s₀ : SqliteRepairStore}

/-- What was written since a store `s₀` was told of or is owed. -/
structure Noticed.Balanced (s₀ : SqliteRepairStore) (w : Noticed ι) : Prop where
  completed : ∀ id, w.noted (Due.completes id) + completions s₀ id = completions w.store id
  parked : ∀ id, parkings w.store id ≤ w.noted (Due.parks id) + parkings s₀ id
  closed : ∀ id, Closed w.store id

/-- What a thread owes is on record. -/
def Owes (i : ι) (d : Option Due) (w : Noticed ι) : Prop := ∀ x, d = some x → (i, x) ∈ w.owed

theorem noted_told [DecidableEq ι] {w : Noticed ι} {i : ι} {e : NotificationEvent} {r : Ans (.notify e)}
    {s : SqliteRepairStore} (h : (i, e.due) ∈ w.owed) (p : Due → Bool) :
    (w.after i (.notify e) r s).noted p = w.noted p := by
  have hperm := List.perm_cons_erase h
  have hcount : w.owed.countP (fun o => p o.2) =
      (w.owed.erase (i, e.due)).countP (fun o => p o.2) + if p e.due then 1 else 0 := by
    rw [hperm.countP_eq, List.countP_cons]
  simp only [Noticed.noted, Noticed.after, List.countP_cons, hcount]
  omega

theorem after_of_ne [DecidableEq ι] {w : Noticed ι} {i : ι} {c : Call} {r : Ans c} {s : SqliteRepairStore}
    (hc : ∀ e, c ≠ .notify e) : w.after i c r s =
      { w with store := s, owed := (dueFrom c r).toList.map (Prod.mk i) ++ w.owed } := by
  cases c with
  | notify e => exact absurd rfl (hc e)
  | _ => rfl

theorem noted_after [DecidableEq ι] {w : Noticed ι} {i : ι} {c : Call} {r : Ans c} {s : SqliteRepairStore}
    (hc : ∀ e, c ≠ .notify e) (p : Due → Bool) :
    (w.after i c r s).noted p = w.noted p + (dueFrom c r).toList.countP p := by
  rw [after_of_ne hc]
  simp only [Noticed.noted, List.countP_append, List.countP_map]
  rw [Nat.add_left_comm, Nat.add_comm]
  rfl

/-- The store's list of unfinished jobs is right. -/
theorem SqliteRepairStore.Replies.lists {s s' : SqliteRepairStore} {now : Time} {c : Call}
    {r : Ans c} (h : s.Replies now c r s') : ListsUnfinished c r := by
  cases c with
  | store c =>
    cases c with
    | unfinished =>
      cases h with
      | failed detail => trivial
      | served => exact fun job hjob => (mem_unfinished.1 hjob).2
    | _ => trivial
  | _ => trivial

/-- A discovered job was never completed or parked. -/
theorem discovery_balanced {w : Noticed ι} {h : HitAndRun} {d : Discovered} {now : Time}
    {s : SqliteRepairStore} (hinv : w.Balanced s₀)
    (hok : w.store.recordDiscovery w.now h = .ok (d, s)) :
    Noticed.Balanced s₀ { w with store := s, now } := by
  rcases recordDiscovery_cases hok with rfl | ⟨id, row, hfree, htrail, ⟨detail, rfl⟩, hjobs⟩
  · exact ⟨hinv.completed, hinv.parked, hinv.closed⟩
  have hcompletions : ∀ k, completions s k = completions w.store k := by
    intro k
    simp [completions, htrail]
  have hparkings : ∀ k, parkings s k = parkings w.store k := by
    intro k
    simp [parkings, htrail]
  refine ⟨fun k => (hinv.completed k).trans (hcompletions k).symm,
    fun k => (hparkings k).trans_le (hinv.parked k), fun k => ⟨?_, fun hpos => ?_⟩⟩
  · exact (hcompletions k).trans_le (hinv.closed k).once
  · obtain ⟨row, hrow, hstate⟩ := (hinv.closed k).still ((hcompletions k) ▸ hpos)
    refine ⟨row, ?_, hstate⟩
    rw [hjobs, if_neg, hrow]
    rintro rfl
    rw [hfree] at hrow
    cases hrow

theorem noticed_sound [DecidableEq ι] (s₀ : SqliteRepairStore) : (noticed ι).Sound (fun _ => telling)
    (Noticed.Balanced s₀) Owes where
  start i p w _ hp :=
    ⟨none, fun x (hx : none = some x) => (by cases hx), hp.notifies.mono fun _ _ _ => trivial⟩
  call := by
    rintro i c w r w' d hinv howes hmay ⟨s, hs, rfl⟩
    by_cases hnotify : ∃ e, c = .notify e
    · obtain ⟨e, rfl⟩ := hnotify
      obtain rfl : d = some e.due := hmay
      obtain rfl : s = w.store := hs
      have howed := howes e.due rfl
      refine ⟨⟨fun id => ?_, fun id => ?_, hinv.closed⟩, ⟨none, ⟨trivial, rfl⟩, fun x hx => by cases hx⟩,
        fun j hj m hm x hx => ?_⟩
      · rw [noted_told howed]
        exact hinv.completed id
      · rw [noted_told howed]
        exact hinv.parked id
      · refine (List.mem_erase_of_ne fun h => hj ?_).2 (hm x hx)
        exact congrArg Prod.fst h
    · have hc : ∀ e, c ≠ .notify e := fun e he => hnotify ⟨e, he⟩
      have hfrom : ∀ id t u, c = .store (.apply id t u) → t.fromState ≠ .completed := by
        rintro id t u rfl
        exact hmay.2
      refine ⟨⟨fun id => ?_, fun id => ?_, fun id => ?_⟩, ?_, fun j hj m hm x hx => ?_⟩
      · rw [noted_after hc, after_of_ne hc]
        change _ = completions s id
        rw [hs.adds.completed id, ← hinv.completed id]
        omega
      · rw [noted_after hc, after_of_ne hc]
        change parkings s id ≤ _
        have hparked := hs.adds.parked id
        have hold := hinv.parked id
        omega
      · rw [after_of_ne hc]
        exact hs.closed hfrom (hinv.closed id)
      · rw [after_of_ne hc]
        refine ⟨_, ⟨hs.lists, rfl⟩, ?_⟩
        split
        · exact fun x hx => List.mem_append_right _ (howes x hx)
        · intro x hx
          simp [hx]
      · rw [after_of_ne hc]
        exact List.mem_append_right _ (hm x hx)
  move := by
    rintro w w' hinv ⟨now, s, -, hs, rfl⟩
    refine ⟨?_, fun j m hm => hm⟩
    rcases hs with rfl | ⟨h, d, hok⟩
    · exact ⟨hinv.completed, hinv.parked, hinv.closed⟩
    · exact discovery_balanced hinv hok

/-- In every run, each completion since a store and each parking is told of or owed, no job is
    completed twice, and no program that comes to its end owes a notice: it has told of what it
    wrote, in its order and once. -/
theorem jobs_told_once [DecidableEq ι] {now : Time} {s : Lib.Config ι Call Ans (Noticed ι)}
    (h₀ : ∀ id, Closed s₀ id) (hreach : (noticed ι).Reach (.opening s₀ now) s) (id : JobId) :
    s.world.noted (Due.completes id) + completions s₀ id = completions s.world.store id ∧
      completions s.world.store id ≤ 1 ∧
      parkings s.world.store id ≤ s.world.noted (Due.parks id) + parkings s₀ id ∧
      ∀ p, AnyProgram p → ∀ log, p.Completes log () →
        (∀ e ∈ log, ListsUnfinished e.1 e.2) → notices log = dues log := by
  have hopening : (Noticed.opening s₀ now : Noticed ι).Balanced s₀ :=
    ⟨fun id => Nat.zero_add _, fun id => (Nat.zero_add _).ge, h₀⟩
  have hinv := ((noticed_sound s₀).reach hopening hreach).inv
  refine ⟨hinv.completed id, (hinv.closed id).once, hinv.parked id, fun p hp log hlog hlists => ?_⟩
  obtain ⟨d, hd, hsettled⟩ := telling_settles hp.notifies hlog hlists
  subst hd
  exact ((List.append_nil _).symm.trans hsettled.symm)

end

/-- A tracker that clears a warning, and a client that seeds the torrent. -/
def clearing (time : Time) : Circumstance :=
  ⟨time, .ok (some { completeTorrent with state := .seeding }), .cleared, false⟩

/-- A call of a worker that is on its own, while time stands still. -/
def Noticed.serve (x : Circumstance) (c : Call) (w : Noticed Unit) : Option (Ans c × Noticed Unit) :=
  if w.now = x.time then (x.reply w.store c).map fun a => (a.1, w.after () c a.1 a.2) else none

theorem Noticed.serve_answers {x : Circumstance} (c : Call) (w : Noticed Unit)
    (r : Ans c × Noticed Unit) (h : serve x c w = some r) : ∃ w',
      Relation.ReflTransGen (noticed Unit).moves w w' ∧ (noticed Unit).answers () c w' r.1 r.2 := by
  unfold serve at h
  split_ifs at h with hnow
  obtain ⟨a, ha, rfl⟩ := Option.map_eq_some_iff.1 h
  exact ⟨w, .refl, a.2, hnow ▸ Circumstance.reply_replies ha, rfl⟩

/-- The operator is told of a completion. -/
theorem completion_told : ∃ s, (noticed Unit).Reach (.opening (storeAt .seeding) (hour 1)) s ∧
    s.world.told = [.completed ⟨1⟩] ∧ completions s.world.store ⟨1⟩ ≤ 1 := by
  obtain ⟨s, hs, -, hworld⟩ := System.reach_alone (noticed Unit)
    (.opening (storeAt .seeding) (hour 1)) () (.tick twoTries Logbook.turnsConfig)
    (Noticed.serve_answers (x := clearing (hour 1))) 100
  have htold : s.world.told = [.completed ⟨1⟩] := by
    rw [hworld]
    decide +kernel
  exact ⟨s, hs, htold, (jobs_told_once (fun id => ⟨Nat.zero_le _, fun h => absurd h (lt_irrefl 0)⟩) hs ⟨1⟩).2.1⟩

end SeedMedic
