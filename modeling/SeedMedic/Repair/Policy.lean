/-
  The rules that decide when automation may act (`repair/policy.rs`).
-/
import SeedMedic.Library.Domain
import SeedMedic.Repair.Domain
import SeedMedic.Seeding.Domain

namespace SeedMedic

open Lib

/-- When seeding starts without being asked. -/
inductive AutoResume where
  /-- Every repair waits for a human. -/
  | never
  | whenVerifiedComplete
  deriving DecidableEq

/-- Which ways into staging are permitted. -/
structure MaterializationPolicy where
  preferReflink : Bool
  allowHardlink : Bool
  allowCopy : Bool

/-- Strategies to try, best first; the one that aliases the library comes last. -/
def MaterializationPolicy.preference (p : MaterializationPolicy) : List MaterializationStrategy :=
  (if p.preferReflink then [.reflink] else []) ++ (if p.allowCopy then [.copy] else []) ++
    (if p.allowHardlink then [.hardlink] else [])

structure SafetyPolicy where
  autoResume : AutoResume
  minMatchConfidence : MatchConfidence
  verificationPieces : ℕ
  materialization : MaterializationPolicy
  maxAttempts : ℕ
  retryBaseDelay : Duration
  retryMaxDelay : Duration
  recheckPollInterval : Duration
  recheckPollMaxInterval : Duration
  recheckTimeout : Duration
  trackerPollInterval : Duration
  trackerPollMinInterval : Duration
  maxConsecutiveUnknownTrackerStatus : ℕ

def SafetyPolicy.default : SafetyPolicy where
  autoResume := .never
  minMatchConfidence := .probable
  verificationPieces := 3
  materialization := ⟨true, false, true⟩
  maxAttempts := 5
  retryBaseDelay := .fromSecs 30
  retryMaxDelay := .fromSecs 3600
  recheckPollInterval := .fromSecs 15
  recheckPollMaxInterval := .fromSecs 300
  recheckTimeout := .fromSecs (4 * 3600)
  trackerPollInterval := .fromSecs 900
  trackerPollMinInterval := .fromSecs 300
  maxConsecutiveUnknownTrackerStatus := 20

inductive DataVerdict where
  | completeAndSafe
  | holdForReview (reason : ReviewReason)

/-- Whether staged data could be handed back to the swarm at all; data of unknown
    origin counts as aliased. -/
def assessData (completeness : DataCompleteness)
    (materialization : Option MaterializationStrategy) : DataVerdict :=
  if completeness.isComplete then .completeAndSafe
  else if materialization.all MaterializationStrategy.aliasesLibraryFile then
    .holdForReview .aliasedIncompleteData
  else .holdForReview .incompleteData

inductive ResumeDecision where
  | resume
  | holdForReview (reason : ReviewReason)

/-- Whether a verified torrent may start seeding: the data first, then policy. -/
def decideResume (completeness : DataCompleteness)
    (materialization : Option MaterializationStrategy) (policy : SafetyPolicy)
    (resumeApproved : Bool) : ResumeDecision :=
  match assessData completeness materialization with
  | .holdForReview reason => .holdForReview reason
  | .completeAndSafe =>
    match policy.autoResume with
    | .never => if resumeApproved then .resume else .holdForReview .autoResumeDisabled
    | .whenVerifiedComplete => .resume

inductive MatchDecision where
  | accept
  | holdForReview (reason : ReviewReason)

/-- Whether a plan is good enough to stage: every file matched, judged by the weakest. -/
def decideMatch (plan : MatchPlan) (policy : SafetyPolicy) : MatchDecision :=
  match plan.unmatched with
  | ⟨_, _, .noCandidate⟩ :: _ => .holdForReview .noCandidates
  | ⟨_, _, .ambiguous _⟩ :: _ => .holdForReview .ambiguousMatch
  | [] =>
    match plan.lowestConfidence with
    | none => .holdForReview .noCandidates
    | some c => if c < policy.minMatchConfidence then .holdForReview .confidenceBelowPolicy
        else .accept

/-- The longest duration. -/
def durationMax : Duration := (2 ^ 64 - 1) * 1000000000 + 999999999

def saturatingMul (d : Duration) (n : ℕ) : Duration := min (d * n) durationMax

def queuedRecheckPollDelay (policy : SafetyPolicy) : Duration := policy.recheckPollMaxInterval

/-- Double a delay while it has passed and is below the cap; `fuel` bounds the doublings. -/
def doubleDelay (elapsed cap : Duration) : ℕ → Duration → Duration
  | 0, delay => delay
  | fuel + 1, delay =>
    if delay ≤ elapsed ∧ delay < cap then doubleDelay elapsed cap fuel (saturatingMul delay 2)
    else delay

/-- How long to wait before polling a running check again. No duration can be doubled
    more than 128 times below a cap. -/
def recheckPollDelay (elapsed : Duration) (policy : SafetyPolicy) : Duration :=
  let base := policy.recheckPollInterval
  let cap := policy.recheckPollMaxInterval
  if base = 0 then cap else min (doubleDelay elapsed cap 128 base) cap

/-- How long a check has been running; one without a start has just begun. -/
def recheckElapsed (startedAt : Option Time) (now : Time) : Duration :=
  match startedAt with
  | none => 0
  | some start => now - start

/-- How long to wait before polling the tracker again. -/
def trackerPollDelay (now : Time) (deadline : Option Time) (policy : SafetyPolicy) : Duration :=
  match deadline with
  | none => policy.trackerPollInterval
  | some d =>
    if d < now then policy.trackerPollInterval
    else max policy.trackerPollMinInterval (min ((d - now) / 10) policy.trackerPollInterval)

/-- Exponential backoff, capped. -/
def retryDelay (attempts : ℕ) (policy : SafetyPolicy) : Duration :=
  min (saturatingMul policy.retryBaseDelay (2 ^ min (attempts - 1) 16)) policy.retryMaxDelay

/-- The backoff spread out by a jitter, never zero. -/
def retryDelayWithJitter (attempts : ℕ) (policy : SafetyPolicy) (jitter : ℕ) : Duration :=
  let base := max (retryDelay attempts policy) 1
  min (jitter % base + 1) base % 2 ^ 64

/-! ## What the decisions allow -/

theorem assessData_complete {c : DataCompleteness} {m : Option MaterializationStrategy}
    (h : assessData c m = .completeAndSafe) : c = .complete := by
  cases c with
  | complete => rfl
  | partialData r =>
    simp only [assessData, DataCompleteness.isComplete, Bool.false_eq_true, if_false] at h
    split_ifs at h

/-- Nothing but complete data is resumed, and without an approval only by policy. -/
theorem decideResume_resume {c : DataCompleteness} {m : Option MaterializationStrategy}
    {p : SafetyPolicy} {approved : Bool} (h : decideResume c m p approved = .resume) :
    c = .complete ∧ (p.autoResume = .never → approved = true) := by
  unfold decideResume at h
  split at h
  · cases h
  · rename_i hd
    refine ⟨assessData_complete hd, fun hn => ?_⟩
    rw [hn] at h
    by_contra ha
    simp only [ha, if_false] at h
    cases h

end SeedMedic
