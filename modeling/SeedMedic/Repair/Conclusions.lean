/-
  What a step may conclude: what it writes to its job, and which of the worker's two
  counters it speaks for.
-/
import SeedMedic.Repair.Calls

namespace SeedMedic

open Lib Prog

/-- A review a counter led to: the retry budget is the worker's, and unknown answers are counted
    by the confirmation. -/
def StepOutcome.Counts : StepOutcome → Prop
  | .review .retryBudgetExhausted _ _ => True
  | .review .trackerStatusUnclear detail _ =>
    ∃ n, detail = some (.obj [("consecutive_unknown_answers", n)])
  | _ => False

/-- A conclusion that neither approves nor counts. -/
structure Ordinary (outcome : StepOutcome) : Prop where
  unapproving : outcome.patch.resumeApproved = none
  uncounted : outcome.patch.consecutiveUnknownTrackerStatus = none
  uncounting : ¬outcome.Counts

/-- No step approves. -/
def Unapproving (outcome : StepOutcome) : Prop := outcome.patch.resumeApproved = none

section
variable {deps : RepairDeps} {job : RepairJob}

/-! ## Reasons that count nothing -/

theorem not_counts_decideMatch {plan : MatchPlan} {policy : SafetyPolicy} {reason : ReviewReason}
    {detail : Option Json} {patch : JobPatch} (h : decideMatch plan policy = .holdForReview reason) :
    ¬(StepOutcome.review reason detail patch).Counts := by
  unfold decideMatch at h
  split at h
  · cases h
    exact id
  · cases h
    exact id
  · split at h
    · cases h
      exact id
    · split_ifs at h
      cases h
      exact id

theorem not_counts_assessData {c : DataCompleteness} {m : Option MaterializationStrategy}
    {reason : ReviewReason} {detail : Option Json} {patch : JobPatch}
    (h : assessData c m = .holdForReview reason) :
    ¬(StepOutcome.review reason detail patch).Counts := by
  unfold assessData at h
  split_ifs at h
  · cases h
    exact id
  · cases h
    exact id

theorem not_counts_decideResume {c : DataCompleteness} {m : Option MaterializationStrategy}
    {policy : SafetyPolicy} {approved : Bool} {reason : ReviewReason} {detail : Option Json}
    {patch : JobPatch} (h : decideResume c m policy approved = .holdForReview reason) :
    ¬(StepOutcome.review reason detail patch).Counts := by
  unfold decideResume at h
  split at h
  · rename_i hdata
    cases h
    exact not_counts_assessData hdata
  · split at h
    · split_ifs at h
      cases h
      exact id
    · cases h

/-! ## The steps before the confirmation -/

theorem trackerMissing_ordinary : Ordinary (trackerMissing job) := by
  refine ⟨rfl, rfl, ?_⟩
  rintro ⟨n, h⟩
  simp [errorJson] at h

theorem fetchTorrent_ordinary : (fetchTorrent deps job).Returns Ordinary := by
  have hacquired : ∀ bytes, Ordinary (acquired deps job bytes) := by
    intro bytes
    unfold acquired
    split
    · exact ⟨rfl, rfl, id⟩
    · exact ⟨rfl, rfl, id⟩
    · exact ⟨rfl, rfl, id⟩
    · split_ifs
      · exact ⟨rfl, rfl, id⟩
      · exact ⟨rfl, rfl, id⟩
  unfold fetchTorrent
  split_ifs
  · refine M.returns_tracker fun r => ?_
    split
    · exact hacquired _
    · exact ⟨rfl, rfl, id⟩
    · exact ⟨rfl, rfl, id⟩
  · exact trackerMissing_ordinary

theorem matchMedia_ordinary : (matchMedia deps job).Returns Ordinary := by
  have houtcome : ∀ found plan report, (matchOutcome deps job found plan report).Returns Ordinary := by
    intro found plan report
    refine (Returns.all _).bind fun detail _ => ?_
    split
    · rename_i hdecide
      exact ⟨rfl, rfl, not_counts_decideMatch hdecide⟩
    · exact ⟨rfl, rfl, id⟩
  refine M.returns_store fun r => ?_
  split
  · exact ⟨rfl, rfl, id⟩
  · exact ⟨rfl, rfl, id⟩
  · refine (Returns.all _).bind fun found _ => ?_
    split_ifs
    · exact ⟨rfl, rfl, id⟩
    · exact ⟨rfl, rfl, id⟩
    · exact (Returns.all _).bind fun _ _ => houtcome _ _ _

theorem stagingRefused_ordinary (preference : List MaterializationStrategy) (e : StagingError) :
    Ordinary (stagingRefused preference e) := by
  cases e <;> exact ⟨rfl, rfl, id⟩

theorem stageFiles_ordinary : (stageFiles deps job).Returns Ordinary := by
  refine M.returns_store fun r => ?_
  split
  · exact ⟨rfl, rfl, id⟩
  · split
    · exact ⟨rfl, rfl, id⟩
    · simp only
      split_ifs
      · exact ⟨rfl, rfl, id⟩
      · refine M.returns_staging fun r => ?_
        split
        · exact stagingRefused_ordinary _ _
        · exact ⟨rfl, rfl, id⟩

theorem clientRefused_ordinary (e : ClientError) : Ordinary (clientRefused e) := by
  cases e <;> exact ⟨rfl, rfl, id⟩

theorem inject_ordinary : (inject deps job).Returns Ordinary := by
  unfold inject
  split
  · refine M.returns_store fun r => ?_
    split
    · exact ⟨rfl, rfl, id⟩
    · exact ⟨rfl, rfl, id⟩
    · refine M.returns_client fun r => ?_
      split
      · exact clientRefused_ordinary _
      · exact M.returns_expect.bind fun path _ => ⟨rfl, rfl, id⟩
  · exact ⟨rfl, rfl, id⟩

theorem startRecheck_ordinary : (startRecheck job).Returns Ordinary := by
  unfold startRecheck
  split
  · exact ⟨rfl, rfl, id⟩
  · refine M.returns_client fun r => ?_
    split
    · exact ⟨rfl, rfl, id⟩
    · exact clientRefused_ordinary _
    · refine M.returns_client fun r => ?_
      split
      · exact clientRefused_ordinary _
      · exact M.returns_now fun _ => M.returns_now fun _ => ⟨rfl, rfl, id⟩

/-- An outcome in place of a status is an ordinary one. -/
theorem currentStatus_ordinary : (currentStatus deps job).Returns fun r =>
    ∀ outcome, r = .error outcome → Ordinary outcome := by
  have hchecking : ∀ status now, Ordinary (stillChecking deps job status now) := by
    intro status now
    unfold stillChecking
    simp only
    split_ifs
    · exact ⟨rfl, rfl, id⟩
    · exact ⟨rfl, rfl, id⟩
    · exact ⟨rfl, rfl, id⟩
  unfold currentStatus
  split
  · intro outcome h
    cases h
    exact ⟨rfl, rfl, id⟩
  · refine M.returns_client fun r => ?_
    split
    · intro outcome h
      cases h
      exact clientRefused_ordinary _
    · intro outcome h
      cases h
      exact ⟨rfl, rfl, id⟩
    · split
      · refine M.returns_now fun now => ?_
        intro outcome h
        cases h
        exact hchecking _ _
      · intro outcome h
        cases h
        exact ⟨rfl, rfl, id⟩
      · intro outcome h
        cases h

theorem verify_ordinary : (verify deps job).Returns Ordinary := by
  refine currentStatus_ordinary.bind fun r hr => ?_
  split
  · exact hr _ rfl
  · show Ordinary (verdict _ _)
    unfold verdict
    split
    · exact ⟨rfl, rfl, id⟩
    · rename_i hdata
      exact ⟨rfl, rfl, not_counts_assessData hdata⟩

theorem resume_ordinary : (resume deps job).Returns Ordinary := by
  refine currentStatus_ordinary.bind fun r hr => ?_
  split
  · exact hr _ rfl
  · split
    · rename_i hdecide
      exact ⟨rfl, rfl, not_counts_decideResume hdecide⟩
    · refine M.returns_expect.bind fun h _ => M.returns_client fun r => ?_
      split
      · exact ⟨rfl, rfl, id⟩
      · exact clientRefused_ordinary _

/-! ## The confirmation -/

theorem checkClient_ordinary {h : InfoHash} : (checkClient deps job h).Returns fun r =>
    ∀ outcome, r = .error outcome → Ordinary outcome := by
  refine M.returns_client fun r => ?_
  split
  · intro outcome h
    cases h
    exact clientRefused_ordinary _
  · intro outcome h
    cases h
    exact ⟨rfl, rfl, id⟩
  · split
    · intro outcome h
      cases h
    · intro outcome h
      cases h
    · split
      · rename_i hdecide
        intro outcome h
        cases h
        exact ⟨rfl, rfl, not_counts_decideResume hdecide⟩
      · refine M.returns_client fun r => ?_
        split
        · intro outcome h
          cases h
        · intro outcome h
          cases h
          exact clientRefused_ordinary _
    · intro outcome h
      cases h
      exact ⟨rfl, rfl, id⟩
    · intro outcome h
      cases h
      exact ⟨rfl, rfl, id⟩

/-- The unknown answers in a row, counted with one more. -/
def nextUnknown (job : RepairJob) : ℕ := (job.consecutiveUnknownTrackerStatus + 1) % 2 ^ 32

/-- What a conclusion owes to what the tracker answered in its step. -/
structure StepFacts (deps : RepairDeps) (job : RepairJob) (answer : Option HitAndRunStatus)
    (outcome : StepOutcome) : Prop where
  unapproving : Unapproving outcome
  /-- Only an unknown answer raises the streak that is recorded. -/
  streak : ∀ n, outcome.patch.consecutiveUnknownTrackerStatus = some n →
    (∃ after note patch, outcome = .wait after note patch) ∧
      (n = 0 ∨ answer = some .unknown ∧ n = nextUnknown job)
  budget : ∀ detail patch, outcome ≠ .review .retryBudgetExhausted detail patch
  /-- The job is parked for unknown answers by the last one the streak allows. -/
  unclear : ∀ n patch,
    outcome = .review .trackerStatusUnclear (some (.obj [("consecutive_unknown_answers", n)])) patch →
      answer = some .unknown ∧ deps.policy.maxConsecutiveUnknownTrackerStatus ≤ nextUnknown job
  /-- Only a job the worker acts on is retried. -/
  actionable : ∀ error, outcome = .retry error → job.state.isActionable = true

/-- Only a wait records a streak of unknown answers. -/
theorem StepFacts.uncounted {answer : Option HitAndRunStatus} {outcome : StepOutcome}
    (h : StepFacts deps job answer outcome) (hw : ∀ after note patch, outcome ≠ .wait after note patch) :
    outcome.patch.consecutiveUnknownTrackerStatus = none := by
  cases hn : outcome.patch.consecutiveUnknownTrackerStatus with
  | none => rfl
  | some n =>
    obtain ⟨⟨after, note, patch, he⟩, -⟩ := h.streak n hn
    exact absurd he (hw after note patch)

theorem Ordinary.facts {outcome : StepOutcome} (h : Ordinary outcome) (answer : Option HitAndRunStatus)
    (hjob : job.state.isActionable = true) : StepFacts deps job answer outcome where
  unapproving := h.unapproving
  streak n hn := by
    rw [h.uncounted] at hn
    cases hn
  budget detail patch he := h.uncounting (he ▸ trivial)
  unclear n patch he := absurd ⟨n, rfl⟩ (he ▸ h.uncounting)
  actionable _ _ := hjob

/-- What the tracker last answered. -/
def heard : (c : Call) → Ans c → Option HitAndRunStatus → Option HitAndRunStatus
  | .tracker (.hitAndRunStatus ..), .ok status, _ => some status
  | _, _, answer => answer

/-- Everything is permitted, and the tracker's last answer remembered. -/
def listening : Rules Call Ans (Option HitAndRunStatus) where
  may _ _ := True
  next c r answer answer' := answer' = heard c r answer

/-- Calls that are not to the tracker leave its answer. -/
theorem heard_kept {α : Type} {p : M α} {answer : Option HitAndRunStatus}
    (h : p.Only fun c => ∀ r a, heard c r a = a) :
    p.Obeys listening answer fun _ answer' => answer' = answer := by
  refine h.obeys rfl fun c a hc ha => ⟨trivial, fun r a' hn => ?_⟩
  exact (show a' = heard c r a from hn).trans ((hc r a).trans ha)

/-- What an answer calls for by itself. -/
theorem trackerNote_facts (hjob : job.state.isActionable = true)
    {r : Except TrackerError HitAndRunStatus} {outcome : StepOutcome}
    (h : trackerNote deps job r = .error outcome) {answer : Option HitAndRunStatus}
    (hanswer : ∀ status, r = .ok status → answer = some status) :
    StepFacts deps job answer outcome := by
  unfold trackerNote at h
  split at h
  · cases h
    exact Ordinary.facts ⟨rfl, rfl, id⟩ _ hjob
  · cases h
  · simp only at h
    split_ifs at h with hmax
    cases h
    exact
      { unapproving := rfl
        streak := fun n hn => (by cases hn)
        budget := fun _ _ he => (by cases he)
        unclear := fun _ _ _ => ⟨hanswer _ rfl, hmax⟩
        actionable := fun _ he => (by cases he) }
  · cases h
    exact Ordinary.facts ⟨rfl, rfl, id⟩ _ hjob
  · cases h
    exact Ordinary.facts ⟨rfl, rfl, id⟩ _ hjob

/-- The streak to record is what the answer makes of the old one. -/
theorem trackerNote_streak {r : Except TrackerError HitAndRunStatus} {note : String} {n : ℕ}
    (h : trackerNote deps job r = .ok (note, n)) {answer : Option HitAndRunStatus}
    (hanswer : ∀ status, r = .ok status → answer = some status) :
    n = 0 ∨ answer = some .unknown ∧ n = nextUnknown job := by
  unfold trackerNote at h
  split at h
  · cases h
  · cases h
    exact .inl rfl
  · simp only at h
    split_ifs at h
    cases h
    exact .inr ⟨hanswer _ rfl, rfl⟩
  · cases h
  · cases h

/-- A healthy poll records the streak. -/
theorem seedingPoll_facts (hjob : job.state.isActionable = true) {note : String} {n : ℕ}
    {status : TorrentStatus} {now : Time} {answer : Option HitAndRunStatus}
    (hn : n = 0 ∨ answer = some .unknown ∧ n = nextUnknown job) :
    StepFacts deps job answer (seedingPoll deps job note n status now) := by
  unfold seedingPoll
  split_ifs
  · exact Ordinary.facts ⟨rfl, rfl, id⟩ _ hjob
  · refine
      { unapproving := rfl
        streak := fun m hm => ?_
        budget := fun _ _ he => (by cases he)
        unclear := fun _ _ he => (by cases he)
        actionable := fun _ he => (by cases he) }
    obtain rfl := Option.some.inj hm
    exact ⟨⟨_, _, _, rfl⟩, hn⟩

theorem confirmWithTracker_facts (hjob : job.state.isActionable = true)
    (answer : Option HitAndRunStatus) : (confirmWithTracker deps job).Obeys listening answer
      fun outcome answer' => StepFacts deps job answer' outcome := by
  unfold confirmWithTracker
  split_ifs
  · refine M.obeys_tracker trivial fun r answer₁ hn => ?_
    have hanswer : ∀ status, r = .ok status → answer₁ = some status := by
      rintro status rfl
      exact hn
    split
    · rename_i hnote
      exact trackerNote_facts hjob hnote hanswer
    · rename_i note n hnote
      have hstreak := trackerNote_streak hnote hanswer
      split
      · exact Ordinary.facts ⟨rfl, rfl, id⟩ _ hjob
      · rename_i infoHash _
        have hclient : (checkClient deps job infoHash).Only fun c => ∀ r a, heard c r a = a :=
          checkClient_only (fun _ _ => rfl) fun _ _ _ _ => rfl
        refine ((checkClient_ordinary.obeys (fun _ _ => trivial) answer₁).both (heard_kept hclient)).bind
          fun r answer₂ hr => ?_
        obtain ⟨hordinary, rfl⟩ := hr
        split
        · exact (hordinary _ rfl).facts _ hjob
        · refine M.obeys_now trivial fun now answer₃ hn => ?_
          obtain rfl : answer₃ = answer₂ := hn
          exact seedingPoll_facts hjob hstreak
  · exact trackerMissing_ordinary.facts _ hjob

/-- What every step owes to its answers. -/
theorem step_facts (answer : Option HitAndRunStatus) : (step deps job).Obeys listening answer
    fun outcome answer' => StepFacts deps job answer' outcome := by
  have hordinary : ∀ {p : M StepOutcome}, p.Returns Ordinary → job.state.isActionable = true →
      p.Obeys listening answer fun outcome answer' => StepFacts deps job answer' outcome :=
    fun h hjob => (h.obeys (fun _ _ => trivial) answer).mono fun _ answer' ho => ho.facts answer' hjob
  have hidle : ∀ after note, StepFacts deps job answer (.wait after note .default) := fun _ _ =>
    { unapproving := rfl
      streak := fun n hn => (by cases hn)
      budget := fun _ _ he => (by cases he)
      unclear := fun _ _ he => (by cases he)
      actionable := fun _ he => (by cases he) }
  unfold step
  cases hstate : job.state with
  | discovered => exact hordinary fetchTorrent_ordinary (by rw [hstate]; rfl)
  | torrentFetched => exact hordinary matchMedia_ordinary (by rw [hstate]; rfl)
  | matched => exact hordinary stageFiles_ordinary (by rw [hstate]; rfl)
  | staged => exact hordinary inject_ordinary (by rw [hstate]; rfl)
  | injected => exact hordinary startRecheck_ordinary (by rw [hstate]; rfl)
  | rechecking => exact hordinary verify_ordinary (by rw [hstate]; rfl)
  | verified => exact hordinary resume_ordinary (by rw [hstate]; rfl)
  | seeding => exact confirmWithTracker_facts (by rw [hstate]; rfl) answer
  | completed => exact hidle _ _
  | awaitingReview => exact hidle _ _
  | failed => exact hidle _ _

/-- Only operators approve. -/
theorem step_unapproving : (step deps job).Returns Unapproving :=
  (step_facts none).returns (fun c r a => ⟨heard c r a, rfl⟩) fun _ _ h => h.unapproving

end

end SeedMedic
