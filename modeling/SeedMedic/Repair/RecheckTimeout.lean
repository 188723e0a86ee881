/-
  How long the hash check had been running that a job was given up on.
-/
import SeedMedic.Repair.Approval
import SeedMedic.Repair.Recheck

namespace SeedMedic

open Lib Prog SqliteRepairStore

/-! ## What a step knows of a check -/

/-- A poll of a job's check: the job of the step, the torrent the client last reported to check in
    it, the clock as it was read then, and when the client was last seen not to check. -/
structure Poll where
  job : Option RepairJob
  torrent : Option InfoHash
  read : Option Time
  since : Option Time

namespace Poll

def bare : Poll := ⟨none, none, none, none⟩

/-- A job that waits for its check. -/
def awaits (job : RepairJob) : Bool := job.state = .rechecking || job.state = .verified

/-- The torrent the client reports to check, where the job of the step waits for that. -/
def checking (poll : Poll) (h : InfoHash) : Except ClientError (Option TorrentStatus) → Option InfoHash
  | .ok (some status) => if poll.job.any awaits ∧ status.state = .checking then some h else none
  | _ => none

/-- What a thread knows after a call, where `quiet` says when the client was last seen not to check
    a torrent; the clock that counts is the first one read after the client's report. -/
def record (poll : Poll) (quiet : InfoHash → Option Time) : (c : Call) → Ans c → Poll
  | .enterStep job, _ => { bare with job := some job }
  | .client (.status h), r => { bare with job := poll.job, torrent := poll.checking h r }
  | .now, t =>
    if poll.read.isSome then poll else { poll with read := some t, since := poll.torrent.bind quiet }
  | _, _ => poll

/-- The step gives the check up: its torrent is reported to be checked, and by the clock the job
    has been at it for as long as is allowed. -/
def TimedOut (poll : Poll) (timeout : Duration) (id : JobId) : Prop :=
  ∃ job h t, poll.job = some job ∧ job.id = id ∧ job.infoHash = some h ∧ poll.torrent = some h ∧
    poll.read = some t ∧ timeout ≤ recheckElapsed job.recheckingStartedAt t

/-- The client was last seen not to check the torrent as long ago. -/
def RanLong (poll : Poll) (timeout : Duration) : Prop :=
  ∀ t ∈ poll.read, ∀ q ∈ poll.since, q + timeout ≤ t

/-- The recorded start is that of another check: it is long enough ago, but since then, and not as
    long ago, the client was seen not to check. -/
def Stale (poll : Poll) (timeout : Duration) : Prop :=
  ∃ job start t q, poll.job = some job ∧ job.recheckingStartedAt = some start ∧ poll.read = some t ∧
    poll.since = some q ∧ start + timeout ≤ t ∧ start < q ∧ t < q + timeout

variable {poll : Poll} {timeout : Duration} {id : JobId}

/-- A check that is given up has run for as long unless it is another than the recorded one. -/
theorem TimedOut.ranLong_iff (h : poll.TimedOut timeout id) (hpos : 0 < timeout) :
    poll.RanLong timeout ↔ ¬poll.Stale timeout := by
  obtain ⟨job, hash, t, hjob, -, -, -, hread, helapsed⟩ := h
  constructor
  · rintro hlong ⟨-, start, t', q, -, -, hread', hsince, -, -, hshort⟩
    have hq : q + timeout ≤ t' := hlong t' hread' q hsince
    exact absurd (hshort.trans_le hq) (lt_irrefl _)
  · intro hstale t' ht q hq
    cases hread.symm.trans ht
    cases hstart : job.recheckingStartedAt with
    | none =>
      rw [hstart] at helapsed
      exact absurd (hpos.trans_le helapsed) (lt_irrefl _)
    | some start =>
      rw [hstart] at helapsed
      have hago : start + timeout ≤ t := by
        have helapsed : timeout ≤ t - start := helapsed
        have hlt : start < t := Nat.lt_of_sub_pos (hpos.trans_le helapsed)
        calc start + timeout ≤ start + (t - start) := Nat.add_le_add_left helapsed start
          _ = t := Nat.add_sub_of_le hlt.le
      by_contra hshort
      have hlate : start < q := by
        by_contra hearly
        exact hshort ((Nat.add_le_add_right (not_lt.1 hearly) timeout).trans hago)
      exact hstale ⟨job, start, t, q, hjob, hstart, hread, hq, hago, hlate, not_le.1 hshort⟩

/-- Only a reading of the clock shows that a recorded start is that of another check. -/
theorem Stale.of_record {quiet : InfoHash → Option Time} {c : Call} {r : Ans c}
    (h : (poll.record quiet c r).Stale timeout) : c = .now ∨ poll.Stale timeout := by
  cases c with
  | now => exact .inl rfl
  | enterStep job =>
    obtain ⟨_, _, _, _, -, -, hread, -⟩ := h
    cases hread
  | client c =>
    cases c with
    | status hash =>
      obtain ⟨_, _, _, _, -, -, hread, -⟩ := h
      cases hread
    | _ => exact .inr h
  | _ => exact .inr h

end Poll

/-! ## The rules of giving up -/

/-- A job is parked for a check that timed out only by a step that found it so. -/
def judging (timeout : Duration) : Rules Call Ans Poll where
  may
    | .store (.apply id t _), poll => t.reason = .review .recheckTimedOut → poll.TimedOut timeout id
    | _, _ => True
  next c r poll poll' := ∃ quiet, poll' = poll.record quiet c r

/-- A conclusion to give a check up. -/
def StepOutcome.timedOut : StepOutcome → Bool
  | .review .recheckTimedOut _ _ => true
  | _ => false

/-- Calls that park nothing for a check that timed out. -/
def Patient : Call → Prop
  | .store (.apply _ t _) => t.reason ≠ .review .recheckTimedOut
  | _ => True

section
variable {deps : RepairDeps} {config : WorkerConfig} {job : RepairJob} {timeout : Duration}
  {poll : Poll}

theorem obeys_of_patient {α : Type} {p : M α} (h : p.Only Patient) :
    p.Obeys (judging timeout) poll fun _ _ => True := by
  refine h.obeys trivial fun c poll hc _ => ⟨?_, fun _ _ _ => trivial⟩
  cases c with
  | store c =>
    cases c with
    | apply id t u => exact fun ht => absurd ht hc
    | _ => trivial
  | _ => trivial

theorem patient_of_stepCall {c : Call} (h : StepCall c) : Patient c := by
  cases c with
  | store c =>
    cases c with
    | apply id t u => cases h
    | _ => trivial
  | _ => trivial

/-! ## The steps -/

theorem not_timedOut_decideMatch {plan : MatchPlan} {policy : SafetyPolicy} {reason : ReviewReason}
    {detail : Option Json} {patch : JobPatch} (h : decideMatch plan policy = .holdForReview reason) :
    (StepOutcome.review reason detail patch).timedOut = false := by
  unfold decideMatch at h
  split at h
  · cases h
    rfl
  · cases h
    rfl
  · split at h
    · cases h
      rfl
    · split_ifs at h
      cases h
      rfl

theorem not_timedOut_assessData {c : DataCompleteness} {m : Option MaterializationStrategy}
    {reason : ReviewReason} {detail : Option Json} {patch : JobPatch}
    (h : assessData c m = .holdForReview reason) :
    (StepOutcome.review reason detail patch).timedOut = false := by
  unfold assessData at h
  split_ifs at h
  · cases h
    rfl
  · cases h
    rfl

theorem not_timedOut_decideResume {c : DataCompleteness} {m : Option MaterializationStrategy}
    {policy : SafetyPolicy} {approved : Bool} {reason : ReviewReason} {detail : Option Json}
    {patch : JobPatch} (h : decideResume c m policy approved = .holdForReview reason) :
    (StepOutcome.review reason detail patch).timedOut = false := by
  unfold decideResume at h
  split at h
  · rename_i hdata
    cases h
    exact not_timedOut_assessData hdata
  · split at h
    · split_ifs at h
      cases h
      rfl
    · cases h

theorem fetchTorrent_untimed : (fetchTorrent deps job).Returns fun o => o.timedOut = false := by
  have hacquired : ∀ bytes, (acquired deps job bytes).timedOut = false := by
    intro bytes
    unfold acquired
    split
    · rfl
    · rfl
    · rfl
    · split_ifs <;> rfl
  unfold fetchTorrent
  split_ifs
  · refine M.returns_tracker fun r => ?_
    split
    · exact hacquired _
    · rfl
    · rfl
  · rfl

theorem matchMedia_untimed : (matchMedia deps job).Returns fun o => o.timedOut = false := by
  refine M.returns_store fun r => ?_
  split
  · rfl
  · rfl
  · refine (Returns.all _).bind fun found _ => ?_
    split_ifs
    · rfl
    · rfl
    · refine (Returns.all _).bind fun plan _ => (Returns.all _).bind fun detail _ => ?_
      split
      · rename_i hdecide
        exact not_timedOut_decideMatch hdecide
      · rfl

theorem stageFiles_untimed : (stageFiles deps job).Returns fun o => o.timedOut = false := by
  refine M.returns_store fun r => ?_
  split
  · rfl
  · split
    · rfl
    · simp only
      split_ifs
      · rfl
      · refine M.returns_staging fun r => ?_
        split
        · rename_i e
          cases e <;> rfl
        · rfl

theorem clientRefused_untimed (e : ClientError) : (clientRefused e).timedOut = false := by
  cases e <;> rfl

theorem inject_untimed : (inject deps job).Returns fun o => o.timedOut = false := by
  unfold inject
  split
  · refine M.returns_store fun r => ?_
    split
    · rfl
    · rfl
    · refine M.returns_client fun r => ?_
      split
      · exact clientRefused_untimed _
      · exact (Returns.all _).bind fun path _ => rfl
  · rfl

theorem startRecheck_untimed : (startRecheck job).Returns fun o => o.timedOut = false := by
  unfold startRecheck
  split
  · rfl
  · refine M.returns_client fun r => ?_
    split
    · rfl
    · exact clientRefused_untimed _
    · refine M.returns_client fun r => ?_
      split
      · exact clientRefused_untimed _
      · exact M.returns_now fun _ => M.returns_now fun _ => rfl

theorem checkClient_untimed {h : InfoHash} : (checkClient deps job h).Returns fun r =>
    ∀ outcome, r = .error outcome → outcome.timedOut = false := by
  refine M.returns_client fun r => ?_
  split
  · rintro _ ⟨⟩
    exact clientRefused_untimed _
  · rintro _ ⟨⟩
    rfl
  · split
    · rintro _ ⟨⟩
    · rintro _ ⟨⟩
    · split
      · rename_i hdecide
        rintro _ ⟨⟩
        exact not_timedOut_decideResume hdecide
      · refine M.returns_client fun r => ?_
        split
        · rintro _ ⟨⟩
        · rintro _ ⟨⟩
          exact clientRefused_untimed _
    · rintro _ ⟨⟩
      rfl
    · rintro _ ⟨⟩
      rfl

theorem confirmWithTracker_untimed :
    (confirmWithTracker deps job).Returns fun o => o.timedOut = false := by
  have hnote : ∀ r outcome, trackerNote deps job r = .error outcome → outcome.timedOut = false := by
    intro r outcome h
    unfold trackerNote at h
    split at h
    · cases h
      rfl
    · cases h
    · simp only at h
      split_ifs at h
      rw [← Except.error.inj h]
      rfl
    · cases h
      rfl
    · cases h
      rfl
  unfold confirmWithTracker
  split_ifs
  · refine M.returns_tracker fun r => ?_
    split
    · rename_i hr
      exact hnote _ _ hr
    · split
      · rfl
      · refine checkClient_untimed.bind fun r hr => ?_
        split
        · exact hr _ rfl
        · refine M.returns_now fun now => ?_
          show (seedingPoll deps job _ _ _ now).timedOut = false
          unfold seedingPoll
          split_ifs <;> rfl
  · rfl

/-- What a step may conclude from what it knows of its check. -/
def Judged (timeout : Duration) (job : RepairJob) (outcome : StepOutcome) (poll : Poll) : Prop :=
  outcome.timedOut = true → poll.TimedOut timeout job.id

theorem judged_of_untimed {outcome : StepOutcome} (h : outcome.timedOut = false) :
    Judged timeout job outcome poll := by
  intro ht
  rw [h] at ht
  cases ht

/-- A step that gives up no check. -/
theorem judged_of_returns {p : M StepOutcome} (hcalls : p.Only StepCall)
    (h : p.Returns fun o => o.timedOut = false) :
    p.Obeys (judging timeout) poll (Judged timeout job) :=
  ((obeys_of_patient (hcalls.mono fun _ => patient_of_stepCall)).and h).mono fun _ _ ho =>
    judged_of_untimed ho.2

/-- A running check is given up by the clock that was read once the client reported it. -/
theorem currentStatus_judged (hjob : poll.job = some job) (hawaits : Poll.awaits job = true) :
    (currentStatus deps job).Obeys (judging deps.policy.recheckTimeout) poll fun r poll' =>
      ∀ outcome, r = .error outcome → Judged deps.policy.recheckTimeout job outcome poll' := by
  unfold currentStatus
  split
  · rintro _ ⟨⟩
    exact judged_of_untimed rfl
  · rename_i h hh
    refine M.obeys_client trivial fun r poll₁ hn => ?_
    obtain ⟨-, rfl⟩ := hn
    have hany : poll.job.any Poll.awaits = true := by
      rw [hjob]
      exact hawaits
    split
    · rintro _ ⟨⟩
      exact judged_of_untimed (clientRefused_untimed _)
    · rintro _ ⟨⟩
      exact judged_of_untimed rfl
    · split
      · rename_i status hchecking
        refine M.obeys_now trivial fun now poll₂ hn => ?_
        obtain ⟨quiet, rfl⟩ := hn
        intro outcome ho
        rw [← Except.error.inj ho]
        unfold stillChecking
        simp only
        split_ifs with htimeout
        · exact fun _ => ⟨job, h, now, hjob, rfl, hh, if_pos ⟨hany, hchecking⟩, rfl, htimeout⟩
        · exact judged_of_untimed rfl
        · exact judged_of_untimed rfl
      · rintro _ ⟨⟩
        exact judged_of_untimed rfl
      · rintro _ ⟨⟩

theorem verify_judged (hjob : poll.job = some job) (hawaits : Poll.awaits job = true) :
    (verify deps job).Obeys (judging deps.policy.recheckTimeout) poll
      (Judged deps.policy.recheckTimeout job) := by
  refine (currentStatus_judged hjob hawaits).bind fun r poll' hr => ?_
  cases r with
  | error outcome => exact hr _ rfl
  | ok status =>
    show Judged _ job (verdict job status) poll'
    unfold verdict
    split
    · exact judged_of_untimed rfl
    · rename_i hdata
      exact judged_of_untimed (not_timedOut_assessData hdata)

theorem resume_judged (hjob : poll.job = some job) (hawaits : Poll.awaits job = true) :
    (resume deps job).Obeys (judging deps.policy.recheckTimeout) poll
      (Judged deps.policy.recheckTimeout job) := by
  refine (currentStatus_judged hjob hawaits).bind fun r poll' hr => ?_
  cases r with
  | error outcome => exact hr _ rfl
  | ok status =>
    simp only
    split
    · rename_i hdecide
      exact judged_of_untimed (not_timedOut_decideResume hdecide)
    · cases job.infoHash with
      | none => exact ⟨trivial, fun e => nomatch e⟩
      | some infoHash =>
        refine M.obeys_client trivial fun r poll'' hn => ?_
        split
        · exact judged_of_untimed rfl
        · exact judged_of_untimed (clientRefused_untimed _)

/-- A step gives up no check but its job's, and not before its time. -/
theorem step_judged (hjob : poll.job = some job) :
    (step deps job).Obeys (judging deps.policy.recheckTimeout) poll
      (Judged deps.policy.recheckTimeout job) := by
  have hawaits : job.state = .rechecking ∨ job.state = .verified → Poll.awaits job = true := by
    intro hstate
    unfold Poll.awaits
    rcases hstate with hstate | hstate <;> rw [hstate] <;> rfl
  unfold step
  cases hstate : job.state with
  | discovered =>
    exact judged_of_returns (fetchTorrent_reads.mono fun _ => .of_reads) fetchTorrent_untimed
  | torrentFetched =>
    exact judged_of_returns (matchMedia_reads.mono fun _ => .of_reads) matchMedia_untimed
  | matched =>
    exact judged_of_returns (stageFiles_gathers.mono fun _ => .of_gathers) stageFiles_untimed
  | staged =>
    exact judged_of_returns (inject_only (fun _ => .of_reads) fun _ _ _ _ _ => trivial) inject_untimed
  | injected =>
    exact judged_of_returns (startRecheck_only trivial (fun _ _ => trivial) fun _ _ => trivial)
      startRecheck_untimed
  | rechecking => exact verify_judged hjob (hawaits (.inl hstate))
  | verified => exact resume_judged hjob (hawaits (.inr hstate))
  | seeding =>
    exact judged_of_returns (confirmWithTracker_only (fun _ => .of_reads) (fun _ _ => trivial)
      fun _ _ _ _ => trivial) confirmWithTracker_untimed
  | completed => exact judged_of_untimed rfl
  | awaitingReview => exact judged_of_untimed rfl
  | failed => exact judged_of_untimed rfl

/-! ## The programs -/

/-- What was concluded is all that is written. -/
theorem settle_judged {summary : TickSummary} {outcome : StepOutcome}
    (h : Judged timeout job outcome poll) :
    (settle deps config job summary outcome).Obeys (judging timeout) poll fun _ _ => True := by
  have hrules : SettleRules (judging timeout) config job.id (fun _ => True) fun _ _ => True :=
    { tells := fun c l hc _ => by
        refine ⟨?_, fun _ _ _ => trivial⟩
        cases c with
        | store c =>
          cases hc
          trivial
        | _ => trivial
      load := fun _ _ => ⟨trivial, fun _ _ _ => ⟨trivial, fun _ _ => trivial⟩⟩ }
  refine (hrules.settle trivial fun c hc => ⟨?_, fun _ _ _ => trivial⟩).mono fun _ _ _ => trivial
  cases hc with
  | advance ht =>
    intro hreason
    rw [(RepairJob.advance_ok ht).2.2] at hreason
    cases hreason
  | rewind ht =>
    intro hreason
    rw [(validateTransition_ok ht).2.2.1] at hreason
    cases hreason
  | @review reason detail patch t ht =>
    intro hreason
    rw [(validateTransition_ok ht).2.2.1] at hreason
    cases hreason
    exact h rfl
  | exhausted ht =>
    intro hreason
    rw [(validateTransition_ok ht).2.2.1] at hreason
    cases hreason
  | progress => trivial

theorem workerRules_judging (h : deps.policy.recheckTimeout = timeout) :
    WorkerRules (judging timeout) deps config (fun _ _ => True) fun _ _ => True where
  idle c poll hc := by
    refine ⟨?_, fun _ _ _ _ _ => trivial⟩
    cases c with
    | store c => cases hc
    | _ => trivial
  claim poll := ⟨trivial, fun jobs l _ => ⟨List.pairwise_of_forall fun _ _ => trivial,
    fun _ _ => trivial⟩⟩
  release poll job stop count := ⟨trivial, fun _ _ _ _ _ _ => trivial⟩
  round poll job summary _ := by
    subst h
    refine M.obeys_enterStep trivial fun poll' hn => ?_
    obtain ⟨quiet, rfl⟩ := hn
    refine (step_judged rfl).bind fun outcome poll'' ho => ?_
    exact (settle_judged ho).mono fun r l _ =>
      ⟨fun _ _ _ => trivial, fun next _ => ⟨trivial, fun _ _ => trivial⟩⟩

end

/-- Everything that runs against the client, where the workers wait for a check as long as
    `timeout` allows. -/
inductive WaitingProgram (timeout : Duration) : M Unit → Prop
  | tick (deps : RepairDeps) (config : WorkerConfig) (h : deps.policy.recheckTimeout = timeout) :
    WaitingProgram timeout (tick deps config >>= fun _ => pure ())
  | reconcile (owner : String) :
    WaitingProgram timeout (reconcileOnStartup owner >>= fun _ => pure ())
  | operator {id : JobId} {p : M Unit} (h : OperatorProgram id p) : WaitingProgram timeout p

theorem allows_patient : AllowsOperators Patient where
  job _ := trivial
  history _ := trivial
  plannedFiles _ := trivial
  recordProgress _ _ := trivial
  apply id t u hr _ hreason := by
    rw [hreason] at hr
    rcases hr with hr | hr | hr <;> cases hr
  remove _ := trivial
  discard _ := trivial
  publish _ := trivial
  panic := trivial

theorem WaitingProgram.judged {timeout : Duration} {p : M Unit} (h : WaitingProgram timeout p)
    (poll : Poll) : p.Obeys (judging timeout) poll fun _ _ => True := by
  cases h with
  | tick deps config h => exact ((workerRules_judging h).tick poll).bind fun _ _ _ => trivial
  | reconcile owner =>
    have hcalls : ∀ c, ReconcileCall c → Patient c := by
      intro c hc
      cases c with
      | store c =>
        cases c with
        | apply id t u =>
          intro hreason
          rw [hc.1] at hreason
          cases hreason
        | _ => trivial
      | _ => trivial
    refine (M.obeys_store trivial fun r l _ => ?_ :
      (reconcileOnStartup owner).Obeys (judging timeout) poll fun _ _ => True).bind fun _ _ _ => trivial
    split
    · exact obeys_of_patient (reconcileAfter_only hcalls)
    · exact obeys_of_patient (reconcileAfter_only hcalls)
  | operator h =>
    refine obeys_of_patient (h.only allows_patient fun id t u hr _ hreason => ?_)
    rw [hreason] at hr
    cases hr

/-! ## Every run -/

/-- The store, the clock, and what is known of the checks of the client. -/
structure Vigil (ι : Type) where
  store : SqliteRepairStore
  now : Time
  /-- When the client was last seen not to check a torrent, or last accepted a recheck of it. -/
  quiet : InfoHash → Option Time
  polls : ι → Poll

namespace Vigil

variable {ι : Type} (w : Vigil ι)

/-- Nobody has looked at the client yet. -/
def opening (s : SqliteRepairStore) (now : Time) : Vigil ι where
  store := s
  now := now
  quiet _ := none
  polls _ := .bare

/-- What a call shows of the checks: a status other than that of a check, or a check's start. -/
def quietAfter : (c : Call) → Ans c → InfoHash → Option Time
  | .client (.status h), .ok status =>
    if status.any fun s => s.state = .checking then w.quiet
    else Function.update w.quiet h (some w.now)
  | .client (.recheck h), .ok () => Function.update w.quiet h (some w.now)
  | _, _ => w.quiet

/-- The condition on a poll: the recorded start of the job is not that of another check. -/
def Fresh (timeout : ι → Duration) (i : ι) (c : Call) (r : Ans c) (w : Vigil ι) : Prop :=
  c = .now → ¬((w.polls i).record w.quiet c r).Stale (timeout i)

/-- The world after a call of a thread. -/
def after [DecidableEq ι] (i : ι) (c : Call) (r : Ans c) (s : SqliteRepairStore) : Vigil ι where
  store := s
  now := w.now
  quiet := w.quietAfter c r
  polls := Function.update w.polls i ((w.polls i).record w.quiet c r)

end Vigil

section
variable {ι : Type} [DecidableEq ι]

/-- Any number of programs side by side on one store, a clock that is set in any way, and a client
    that answers in any way. -/
def vigils (timeout : ι → Duration) : System ι Call Ans (Vigil ι) where
  answers i c w r w' := ∃ s, w.store.Replies w.now c r s ∧ w' = w.after i c r s
  moves w w' := (∃ now, w' = { w with now }) ∨
    ∃ h d s, w.store.recordDiscovery w.now h = .ok (d, s) ∧ w' = { w with store := s }
  starts i := WaitingProgram (timeout i)

variable {timeout : ι → Duration}

theorem vigils_sound :
    (vigils timeout).Sound (fun i => judging (timeout i)) (fun _ => True) fun i poll w =>
      poll = w.polls i where
  start i p w _ hp := ⟨w.polls i, rfl, hp.judged _⟩
  call := by
    rintro i c w r w' poll - rfl hmay ⟨s, -, rfl⟩
    refine ⟨trivial, ⟨_, ⟨w.quiet, rfl⟩, ?_⟩, fun j hj m hm => ?_⟩
    · exact (Function.update_self i _ w.polls).symm
    · rw [hm]
      exact (Function.update_of_ne hj _ w.polls).symm
  move := by
    rintro w w' - (⟨now, rfl⟩ | ⟨h, d, s, -, rfl⟩)
    · exact ⟨trivial, fun _ _ hm => hm⟩
    · exact ⟨trivial, fun _ _ hm => hm⟩

/-- No thread goes on with a poll of another check. -/
theorem fresh_sound : ((vigils timeout).within (Vigil.Fresh timeout)).Sound
    (fun i => judging (timeout i)) (fun w => ∀ i, ¬(w.polls i).Stale (timeout i)) fun i poll w =>
      poll = w.polls i where
  start i p w _ hp := ⟨w.polls i, rfl, hp.judged _⟩
  call := by
    rintro i c w r w' poll hw rfl hmay ⟨hfresh, s, -, rfl⟩
    refine ⟨fun j => ?_, ⟨_, ⟨w.quiet, rfl⟩, ?_⟩, fun j hj m hm => ?_⟩
    · show ¬(Function.update w.polls i _ j).Stale (timeout j)
      by_cases hj : j = i
      · subst hj
        rw [Function.update_self]
        intro hstale
        rcases hstale.of_record with hc | hc
        · exact hfresh hc hstale
        · exact hw j hc
      · rw [Function.update_of_ne hj]
        exact hw j
    · exact (Function.update_self i _ w.polls).symm
    · rw [hm]
      exact (Function.update_of_ne hj _ w.polls).symm
  move := by
    rintro w w' hw (⟨now, rfl⟩ | ⟨h, d, s, -, rfl⟩)
    · exact ⟨hw, fun _ _ hm => hm⟩
    · exact ⟨hw, fun _ _ hm => hm⟩

/-- A thread is about to park a job for a check that timed out. -/
def GivesUp (s : Lib.Config ι Call Ans (Vigil ι)) (i : ι) (id : JobId) : Prop :=
  ∃ t u k, s.threads i = some (.call (.store (.apply id t u)) k) ∧ t.reason = .review .recheckTimedOut

/-- In every run in which no poll is of another check than the recorded one, a job is only given up
    once the reported check has run for as long as is allowed; and in every run at all, a job that
    is given up is given up on such a check if and only if its poll was not of another one. -/
theorem gaveUp_ranLong (hpos : ∀ i, 0 < timeout i) (opened : SqliteRepairStore) (start : Time) :
    (∀ s i id, ((vigils timeout).within (Vigil.Fresh timeout)).Reach (.opening opened start) s →
      GivesUp s i id → (s.world.polls i).TimedOut (timeout i) id ∧
        (s.world.polls i).RanLong (timeout i)) ∧
    ∀ s i id, (vigils timeout).Reach (.opening opened start) s → GivesUp s i id →
      ((s.world.polls i).RanLong (timeout i) ↔ ¬(s.world.polls i).Stale (timeout i)) := by
  constructor
  · rintro s i id hreach ⟨t, u, k, happly, hreason⟩
    have hopen : ∀ i, ¬((Vigil.opening opened start : Vigil ι).polls i).Stale (timeout i) := by
      rintro i ⟨job, -, -, -, hjob, -⟩
      cases hjob
    obtain ⟨hfresh, poll, rfl, hmay⟩ := fresh_sound.permitted hopen hreach happly
    have htimed := hmay hreason
    exact ⟨htimed, (htimed.ranLong_iff (hpos i)).2 (hfresh i)⟩
  · rintro s i id hreach ⟨t, u, k, happly, hreason⟩
    obtain ⟨-, poll, rfl, hmay⟩ := vigils_sound.permitted trivial hreach happly
    exact (hmay hreason).ranLong_iff (hpos i)

end

/-! ## A job that is approved, and checked once more -/

/-- A job whose data was verified by the check it asked for at the very start. -/
def verifiedStore : SqliteRepairStore where
  jobs := ⟨[{ discoveredRow ⟨1⟩ 0 ⟨⟨"tracker"⟩, ⟨"7"⟩, "show", none, 10, none⟩ with
    state := .verified, infoHash := some sevens, recheckingStartedAt := some 0 }], by decide⟩
  files := .empty
  transitions := []
  jobSeq := 1

/-- When the client begins another check, of its own accord. -/
def checkedAgain : Time := Duration.fromSecs 20010

/-- What a client answers that begins another check. -/
def vigilReply (w : Vigil Unit) : (c : Call) → Option (Ans c × SqliteRepairStore)
  | .store c => some (w.store.answer w.now c)
  | .now => some (w.now, w.store)
  | .client (.status _) => some (.ok (some { completeTorrent with
      state := if w.now < checkedAgain then .paused else .checking }), w.store)
  | .shuttingDown => some (false, w.store)
  | .publish _ | .notify _ | .recordTick _ | .enterStep _ => some ((), w.store)
  | _ => none

theorem vigilReply_replies {w : Vigil Unit} {c : Call} {r : Ans c × SqliteRepairStore}
    (h : vigilReply w c = some r) : w.store.Replies w.now c r.1 r.2 := by
  cases c with
  | store c => cases h; exact .served
  | now => cases h; exact ⟨rfl, rfl⟩
  | client c =>
    cases c with
    | status hash => cases h; rfl
    | _ => cases h
  | tracker c => cases h
  | library c => cases h
  | staging c => cases h
  | panic => cases h
  | _ => cases h; rfl

/-- The answers to a thread, with the world they leave. -/
def vigilServe (c : Call) (w : Vigil Unit) : Option (Ans c × Vigil Unit) :=
  (vigilReply w c).map fun r => (r.1, w.after () c r.1 r.2)

theorem vigilServe_answers {c : Call} {w : Vigil Unit} {r : Ans c × Vigil Unit}
    (h : vigilServe c w = some r) : ∃ w', Relation.ReflTransGen
      (vigils fun _ : Unit => anyDeps.policy.recheckTimeout).moves w w' ∧
        (vigils fun _ : Unit => anyDeps.policy.recheckTimeout).answers () c w' r.1 r.2 := by
  obtain ⟨a, ha, rfl⟩ := Option.map_eq_some_iff.1 h
  exact ⟨w, .refl, _, vigilReply_replies ha, rfl⟩

def approveProgram : M Unit := approveResumeAction ⟨1⟩ >>= fun _ => pure ()

/-- The world once the job was found complete at `start` and its resume approved, when the client
    begins another check. -/
def approvedAt (start : Time) : Vigil Unit :=
  { (System.drive vigilServe 9 approveProgram
      (System.drive vigilServe 17 checkTick (.opening verifiedStore start)).2).2 with now := checkedAgain }

/-- The job is taken up once more. -/
theorem approved_reach (start : Time) : ∃ s,
    (vigils fun _ : Unit => anyDeps.policy.recheckTimeout).Reach (.opening verifiedStore start) s ∧
      s.threads () = some (System.drive vigilServe 8 checkTick (approvedAt start)).1 ∧
        s.world = (System.drive vigilServe 8 checkTick (approvedAt start)).2 := by
  have htick : WaitingProgram anyDeps.policy.recheckTimeout checkTick := .tick _ _ rfl
  have hoperator : OperatorProgram ⟨1⟩ approveProgram := .approveResume
  obtain ⟨s₁, hs₁, -, hw₁⟩ := System.reach_alone
    (vigils fun _ : Unit => anyDeps.policy.recheckTimeout) (.opening verifiedStore start) ()
    (h := vigilServe) htick (fun _ _ _ => vigilServe_answers) 17
  obtain ⟨s₂, hs₂, -, hw₂⟩ := System.reach_again (i := ()) (p := approveProgram) (h := vigilServe) hs₁
    (.operator hoperator) (fun _ _ _ => vigilServe_answers) 9
  have hlater := hs₂.tail (.move (.inl ⟨checkedAgain, rfl⟩))
  obtain ⟨s₃, hs₃, hthread, hw₃⟩ := System.reach_again (i := ()) (p := checkTick) (h := vigilServe) hlater
    htick (fun _ _ _ => vigilServe_answers) 8
  rw [hw₂, hw₁] at hthread hw₃
  exact ⟨s₃, hs₃, hthread, hw₃⟩

theorem givesUp_of_writes {ι : Type} {s : Lib.Config ι Call Ans (Vigil ι)} {i : ι} {p : M Unit}
    {id : JobId} {src dst : RepairState} (h : s.threads i = some p)
    (hp : writes p = some (id, src, dst, .review .recheckTimedOut)) : GivesUp s i id := by
  obtain ⟨t, u, k, rfl, -, -, hreason⟩ := writes_some hp
  exact ⟨t, u, k, h, hreason⟩

/-- The job was found complete ten seconds before the client began another check, and is given up
    on that check at once. -/
theorem approved_job_given_up : ¬∀ (s : Lib.Config Unit Call Ans (Vigil Unit)) (id : JobId),
    (vigils fun _ => anyDeps.policy.recheckTimeout).Reach
      (.opening verifiedStore (Duration.fromSecs 20000)) s → GivesUp s () id →
        (s.world.polls ()).RanLong anyDeps.policy.recheckTimeout := by
  intro h
  obtain ⟨s, hs, hthread, hworld⟩ := approved_reach (Duration.fromSecs 20000)
  have hlong := h s ⟨1⟩ hs (givesUp_of_writes hthread (by decide +kernel : writes
    (System.drive vigilServe 8 checkTick (approvedAt (Duration.fromSecs 20000))).1 =
      some (⟨1⟩, .verified, .awaitingReview, .review .recheckTimedOut)))
  rw [hworld] at hlong
  have hread : ((System.drive vigilServe 8 checkTick (approvedAt (Duration.fromSecs 20000))).2.polls
    ()).read = some (Duration.fromSecs 20010) := by decide +kernel
  have hsince : ((System.drive vigilServe 8 checkTick (approvedAt (Duration.fromSecs 20000))).2.polls
    ()).since = some (Duration.fromSecs 20000) := by decide +kernel
  exact absurd (hlong _ hread _ hsince) (by decide)

/-- A job that was last found complete hours ago is given up on a check that ran for hours. -/
theorem old_check_given_up : ∃ s : Lib.Config Unit Call Ans (Vigil Unit),
    (vigils fun _ => anyDeps.policy.recheckTimeout).Reach (.opening verifiedStore 0) s ∧
      GivesUp s () ⟨1⟩ ∧ (s.world.polls ()).RanLong anyDeps.policy.recheckTimeout := by
  obtain ⟨s, hs, hthread, hworld⟩ := approved_reach 0
  have hgives := givesUp_of_writes hthread (by decide +kernel : writes
    (System.drive vigilServe 8 checkTick (approvedAt 0)).1 =
      some (⟨1⟩, .verified, .awaitingReview, .review .recheckTimedOut))
  refine ⟨s, hs, hgives, ((gaveUp_ranLong (fun _ => by decide) verifiedStore 0).2 s () ⟨1⟩ hs hgives).2 ?_⟩
  rintro ⟨job, start, t, q, -, -, hread, hsince, -, -, hshort⟩
  rw [hworld] at hread hsince
  have ht : ((System.drive vigilServe 8 checkTick (approvedAt 0)).2.polls ()).read =
    some (Duration.fromSecs 20010) := by decide +kernel
  have hq : ((System.drive vigilServe 8 checkTick (approvedAt 0)).2.polls ()).since = some 0 := by
    decide +kernel
  cases ht.symm.trans hread
  cases hq.symm.trans hsince
  exact absurd hshort (by decide)

end SeedMedic
