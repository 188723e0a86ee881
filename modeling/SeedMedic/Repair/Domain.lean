/-
  The repair lifecycle: states, the transition table, and the job as persisted
  (`repair/domain.rs`).
-/
import SeedMedic.Lib.Json
import SeedMedic.Staging.Domain
import SeedMedic.Tracker.Domain

namespace SeedMedic

open Lib

/-- A row identifier. -/
structure JobId where
  val : Int64
  deriving DecidableEq

def JobId.toText (id : JobId) : String := toString id.val.toInt

inductive RepairState where
  | discovered
  | torrentFetched
  | matched
  | staged
  | injected
  | rechecking
  | verified
  | seeding
  /-- The tracker says the hit-and-run is cleared. -/
  | completed
  /-- A human has to decide. -/
  | awaitingReview
  | failed
  deriving DecidableEq

namespace RepairState

/-- The states of the happy path, in order. -/
def PROGRESSION : List RepairState :=
  [discovered, torrentFetched, matched, staged, injected, rechecking, verified, seeding, completed]

def asStr : RepairState → String
  | discovered => "discovered"
  | torrentFetched => "torrent_fetched"
  | matched => "matched"
  | staged => "staged"
  | injected => "injected"
  | rechecking => "rechecking"
  | verified => "verified"
  | seeding => "seeding"
  | completed => "completed"
  | awaitingReview => "awaiting_review"
  | failed => "failed"

def parse (value : String) : Option RepairState :=
  (PROGRESSION ++ [awaitingReview, failed]).find? fun s => s.asStr = value

/-- Position on the happy path. -/
def rank (s : RepairState) : Option ℕ := PROGRESSION.findIdx? fun t => t = s

/-- The one state a successful step may advance to. -/
def next (s : RepairState) : Option RepairState := s.rank.bind fun r => PROGRESSION[r + 1]?

def isTerminal : RepairState → Bool
  | completed | failed => true
  | _ => false

def isActionable (s : RepairState) : Bool := !s.isTerminal && s != awaitingReview

/-- States are told apart by their names. -/
theorem parse_asStr (s : RepairState) : parse s.asStr = some s := by cases s <;> decide

theorem asStr_inj {s t : RepairState} (h : s.asStr = t.asStr) : s = t :=
  Option.some.inj (by rw [← parse_asStr s, h, parse_asStr])

/-- The worker acts on exactly the states a step leads on from. -/
theorem isActionable_iff {s : RepairState} : s.isActionable = true ↔ ∃ t, s.next = some t := by
  rw [← Option.isSome_iff_exists]
  cases s <;> decide

/-- A step leads to the state one rank up. -/
theorem rank_next {s t : RepairState} (h : s.next = some t) :
    ∃ r, s.rank = some r ∧ t.rank = some (r + 1) := by
  cases s <;> cases h <;> exact ⟨_, rfl, rfl⟩

end RepairState

/-- Why a job needs a human. -/
inductive ReviewReason where
  | ambiguousMatch
  | noCandidates
  | confidenceBelowPolicy
  | materializationUnavailable
  | insufficientStagingSpace
  | incompleteData
  | aliasedIncompleteData
  | recheckTimedOut
  | recheckErrored
  | autoResumeDisabled
  | retryBudgetExhausted
  | adapterNotImplemented
  | trackerStatusUnclear
  | downloadingDuringSeeding
  | hitAndRunDeadlinePassed
  | unsafeTorrentPaths
  | torrentUnreadable
  | infoHashMismatch
  | libraryChanged
  deriving DecidableEq

def ReviewReason.asStr : ReviewReason → String
  | ambiguousMatch => "ambiguous_match"
  | noCandidates => "no_candidates"
  | confidenceBelowPolicy => "confidence_below_policy"
  | materializationUnavailable => "materialization_unavailable"
  | insufficientStagingSpace => "insufficient_staging_space"
  | incompleteData => "incomplete_data"
  | aliasedIncompleteData => "aliased_incomplete_data"
  | recheckTimedOut => "recheck_timed_out"
  | recheckErrored => "recheck_errored"
  | autoResumeDisabled => "auto_resume_disabled"
  | retryBudgetExhausted => "retry_budget_exhausted"
  | adapterNotImplemented => "adapter_not_implemented"
  | trackerStatusUnclear => "tracker_status_unclear"
  | downloadingDuringSeeding => "downloading_during_seeding"
  | hitAndRunDeadlinePassed => "hit_and_run_deadline_passed"
  | unsafeTorrentPaths => "unsafe_torrent_paths"
  | torrentUnreadable => "torrent_unreadable"
  | infoHashMismatch => "info_hash_mismatch"
  | libraryChanged => "library_changed"

/-- Why a transition is happening. -/
inductive TransitionReason where
  | progress
  | review (reason : ReviewReason)
  | failure
  /-- An operator sent a parked job back to the step it stopped at. -/
  | operatorRetry
  /-- An operator chose a library file where matching could not. -/
  | operatorChooseCandidate
  | operatorAbandon
  /-- An operator sent a job back to the start. -/
  | operatorRestart
  /-- Reality was found behind the persisted state. -/
  | reconciliation
  deriving DecidableEq

def TransitionReason.asStr : TransitionReason → String
  | progress => "progress"
  | review _ => "review"
  | failure => "failure"
  | operatorRetry => "operator_retry"
  | operatorChooseCandidate => "operator_choose_candidate"
  | operatorAbandon => "operator_abandon"
  | operatorRestart => "operator_restart"
  | reconciliation => "reconciliation"

structure InvalidTransition where
  fromState : RepairState
  toState : RepairState
  reason : String
  because : String
  deriving DecidableEq

def InvalidTransition.toText (e : InvalidTransition) : String :=
  "cannot move a repair from " ++ e.fromState.asStr ++ " to " ++ e.toState.asStr ++ " (" ++ e.reason ++
    "): " ++ e.because

/-- What the transition table objects to; nothing when the transition is legal. -/
def objection (src dst : RepairState) (reason : TransitionReason)
    (reviewFrom : Option RepairState) : Option String :=
  match reason with
  | .progress =>
    if src.next = some dst then none
    else some "progress may only advance one step along the lifecycle"
  | .review _ =>
    if dst ≠ .awaitingReview then some "review must move to awaiting_review"
    else if !src.isActionable then some "only a job the worker is acting on can be parked"
    else none
  | .failure =>
    if dst ≠ .failed then some "failure must move to failed"
    else if src.isTerminal then some "a terminal job cannot fail again"
    else none
  | .operatorRetry =>
    if src ≠ .awaitingReview then some "only a parked job can be retried"
    else if reviewFrom ≠ some dst then some "a retry must resume the exact step the job stopped at"
    else none
  | .operatorChooseCandidate =>
    if src ≠ .awaitingReview then some "only a parked job can have a candidate chosen"
    else if reviewFrom ≠ some .torrentFetched then
      some "choosing a candidate only replaces the matching step"
    else if dst ≠ .matched then some "choosing a candidate must move to matched"
    else none
  | .operatorAbandon =>
    if src ≠ .awaitingReview then some "only a parked job can be abandoned"
    else if dst ≠ .failed then some "abandoning must move to failed"
    else none
  | .operatorRestart =>
    if src ≠ .awaitingReview ∧ src ≠ .failed then some "only a parked or failed job can be restarted"
    else if dst ≠ .discovered then some "a restart must return to discovered"
    else none
  | .reconciliation =>
    match src.rank, dst.rank with
    | some m, some n => if n < m then none else some "reconciliation may only move a job backwards"
    | _, _ => some "reconciliation only applies to the lifecycle states"

/-- A state change the table allows. -/
structure Transition where
  fromState : RepairState
  toState : RepairState
  reason : TransitionReason
  /-- Some resume point makes the table accept the change. -/
  legal : ∃ reviewFrom, objection fromState toState reason reviewFrom = none
  deriving DecidableEq

/-- The whole transition table. -/
def validateTransition (src dst : RepairState) (reason : TransitionReason)
    (reviewFrom : Option RepairState) : Except InvalidTransition Transition :=
  match h : objection src dst reason reviewFrom with
  | some because => .error ⟨src, dst, reason.asStr, because⟩
  | none => .ok ⟨src, dst, reason, reviewFrom, h⟩

/-- A validated transition is the one that was asked for, and the table has no objection. -/
theorem validateTransition_ok {src dst : RepairState} {reason : TransitionReason}
    {rf : Option RepairState} {t : Transition} (h : validateTransition src dst reason rf = .ok t) :
    t.fromState = src ∧ t.toState = dst ∧ t.reason = reason ∧ objection src dst reason rf = none := by
  unfold validateTransition at h
  split at h
  · cases h
  · rename_i ho
    cases h
    exact ⟨rfl, rfl, rfl, ho⟩

theorem validateTransition_of_legal {src dst : RepairState} {reason : TransitionReason}
    {rf : Option RepairState} (h : objection src dst reason rf = none) :
    validateTransition src dst reason rf = .ok ⟨src, dst, reason, rf, h⟩ := by
  unfold validateTransition
  split
  · rename_i ho
    rw [h] at ho
    cases ho
  · rfl

theorem validateTransition_of_objection {src dst : RepairState} {reason : TransitionReason}
    {rf : Option RepairState} {because : String} (h : objection src dst reason rf = some because) :
    validateTransition src dst reason rf = .error ⟨src, dst, reason.asStr, because⟩ := by
  unfold validateTransition
  split
  · rename_i b ho
    rw [h] at ho
    cases ho
    rfl
  · rename_i ho
    rw [h] at ho
    cases ho

namespace Transition

/-- What each kind of transition may do, guards included. -/
theorem cases_reason (t : Transition) :
    (t.reason = .progress ∧ t.fromState.next = some t.toState) ∨
    (∃ r, t.reason = .review r ∧ t.fromState.isActionable = true ∧ t.toState = .awaitingReview) ∨
    (t.reason = .failure ∧ t.fromState.isTerminal = false ∧ t.toState = .failed) ∨
    (t.reason = .operatorRetry ∧ t.fromState = .awaitingReview) ∨
    (t.reason = .operatorChooseCandidate ∧ t.fromState = .awaitingReview ∧ t.toState = .matched) ∨
    (t.reason = .operatorAbandon ∧ t.fromState = .awaitingReview ∧ t.toState = .failed) ∨
    (t.reason = .operatorRestart ∧ (t.fromState = .awaitingReview ∨ t.fromState = .failed) ∧
      t.toState = .discovered) ∨
    (t.reason = .reconciliation ∧
      ∃ m n, t.fromState.rank = some m ∧ t.toState.rank = some n ∧ n < m) := by
  obtain ⟨src, dst, reason, rf, h⟩ := t
  cases reason <;> simp only [objection] at h ⊢
  case reconciliation =>
    split at h
    · rename_i m n hm hn
      simp only [hm, hn]
      simpa using h
    · cases h
  case operatorRestart =>
    split_ifs at h with hs hd
    have hsrc : src = .awaitingReview ∨ src = .failed := by tauto
    simp [hsrc, not_not.1 hd]
  all_goals (split_ifs at h; simp_all)

end Transition

/-- A repair job as persisted; the torrent itself and the file plan are fetched apart. -/
structure RepairJob where
  id : JobId
  tracker : TrackerId
  torrentId : TrackerTorrentId
  torrentName : String
  state : RepairState
  /-- Where a parked job resumes. -/
  reviewFromState : Option RepairState
  reviewReason : Option ReviewReason
  failureReason : Option String
  infoHash : Option InfoHash
  totalBytes : Option ℕ
  stagingDir : Option SafeRelativePath
  materialization : Option MaterializationStrategy
  deadline : Option Time
  uploadedBytes : Option ℕ
  seedingSeconds : Option ℕ
  /-- When the current recheck began. -/
  recheckingStartedAt : Option Time
  /-- Unknown answers of the tracker in a row. -/
  consecutiveUnknownTrackerStatus : ℕ
  /-- The operator's override for this job when nothing resumes by itself. -/
  resumeApproved : Bool
  attempts : ℕ
  nextAttemptAt : Option Time
  createdAt : Time
  updatedAt : Time
  deriving DecidableEq

namespace RepairJob

/-- Validate a transition for this job. -/
def planTransition (job : RepairJob) (dst : RepairState) (reason : TransitionReason) :
    Except InvalidTransition Transition :=
  validateTransition job.state dst reason job.reviewFromState

/-- The step a successful attempt would complete. -/
def advance (job : RepairJob) : Except InvalidTransition Transition :=
  job.planTransition (job.state.next.getD job.state) .progress

/-- A job advances exactly when its state has a next one. -/
theorem advance_ok {job : RepairJob} {t : Transition} (h : job.advance = .ok t) :
    t.fromState = job.state ∧ job.state.next = some t.toState ∧ t.reason = .progress := by
  obtain ⟨hf, ht, hr, ho⟩ := validateTransition_ok h
  refine ⟨hf, ?_, hr⟩
  rw [ht]
  by_contra hne
  simp only [objection, if_neg hne] at ho
  cases ho

/-- A retry is planned from a parked copy, for the step the copy stopped at. -/
theorem retry_ok {job : RepairJob} {dst : RepairState} {t : Transition}
    (h : job.planTransition dst .operatorRetry = .ok t) :
    job.state = .awaitingReview ∧ job.reviewFromState = some t.toState ∧
      t.fromState = .awaitingReview := by
  obtain ⟨hf, ht, -, ho⟩ := validateTransition_ok h
  simp only [objection] at ho
  split_ifs at ho with hparked hfrom
  rw [hf, ht]
  exact ⟨not_not.1 hparked, not_not.1 hfrom, not_not.1 hparked⟩

end RepairJob

/-! ## Where a job is staged -/

theorem repr_inj {m n : ℕ} (h : m.repr = n.repr) : m = n := by
  have hdigits : Nat.toDigits 10 m = Nat.toDigits 10 n := by
    rw [← Nat.toList_repr, h, Nat.toList_repr]
  calc
    m = Nat.ofDigitChars 10 (Nat.toDigits 10 m) 0 := Nat.ofDigitChars_ten_toDigits.symm
    _ = Nat.ofDigitChars 10 (Nat.toDigits 10 n) 0 := by rw [hdigits]
    _ = n := Nat.ofDigitChars_ten_toDigits

theorem isDigit_of_mem_repr {n : ℕ} {c : Char} (h : c ∈ n.repr.toList) : c.isDigit = true := by
  rw [Nat.toList_repr] at h
  exact Nat.isDigit_of_mem_toDigits (by decide) (by decide) h

theorem length_repr_le {n k : ℕ} (hk : 0 < k) (h : n < 10 ^ k) : n.repr.toList.length ≤ k := by
  rw [Nat.toList_repr]
  exact (Nat.length_toDigits_le_iff (by decide) hk).2 h

namespace JobId

theorem toText_chars (id : JobId) : ∀ c ∈ id.toText.toList, c = '-' ∨ c.isDigit = true := by
  obtain ⟨n⟩ := id
  unfold toText
  generalize n.toInt = m
  intro c hc
  cases m with
  | ofNat k => exact .inr (isDigit_of_mem_repr hc)
  | negSucc k =>
    have h : toString (Int.negSucc k) = "-" ++ (k + 1).repr := rfl
    rw [h, String.toList_append] at hc
    rcases List.mem_append.1 hc with hc | hc
    · exact .inl (by simpa using hc)
    · exact .inr (isDigit_of_mem_repr hc)

theorem length_toText (id : JobId) : id.toText.toList.length ≤ 20 := by
  obtain ⟨n⟩ := id
  have hlo := n.le_toInt
  have hhi := n.toInt_lt
  unfold toText
  generalize n.toInt = m at hlo hhi
  cases m with
  | ofNat k =>
    have hk : k < 10 ^ 19 := by
      rw [Int.ofNat_eq_natCast] at hhi
      omega
    exact (length_repr_le (by decide) hk).trans (by decide)
  | negSucc k =>
    have h : toString (Int.negSucc k) = "-" ++ (k + 1).repr := rfl
    have hk := length_repr_le (n := k + 1) (k := 19) (by decide) (by omega)
    rw [h, String.toList_append, List.length_append, show "-".toList.length = 1 from rfl]
    omega

/-- The directory name of a job is an ordinary component. -/
theorem validate_dirName (id : JobId) : validateComponent ("job-" ++ id.toText) = .ok () := by
  have hchars : ∀ c ∈ ("job-" ++ id.toText).toList, c ∈ "job-".toList ∨ c.isDigit = true := by
    intro c hc
    rw [String.toList_append] at hc
    rcases List.mem_append.1 hc with hc | hc
    · exact .inl hc
    · rcases id.toText_chars c hc with rfl | hd
      · exact .inl (by decide)
      · exact .inr hd
  have hsafe : ∀ c : Char, c ∈ "job-".toList ∨ c.isDigit = true →
      c ≠ '/' ∧ c ≠ '\\' ∧ isControl c = false := by
    rintro c (hc | hc)
    · have hletters : c ∈ ['j', 'o', 'b', '-'] := hc
      simp only [List.mem_cons, List.not_mem_nil, or_false] at hletters
      rcases hletters with rfl | rfl | rfl | rfl <;> decide
    · simp only [Char.isDigit, Bool.and_eq_true, decide_eq_true_eq] at hc
      obtain ⟨hlo, hhi⟩ := hc
      refine ⟨by rintro rfl; exact absurd hlo (by decide),
        by rintro rfl; exact absurd hhi (by decide), ?_⟩
      have hlo' : 48 ≤ c.val.toNat := UInt32.le_iff_toNat_le.1 hlo
      have hhi' : c.val.toNat ≤ 57 := UInt32.le_iff_toNat_le.1 hhi
      simp only [isControl, Bool.or_eq_false_iff, decide_eq_false_iff_not, Bool.and_eq_false_iff,
        UInt32.le_iff_toNat_le, UInt32.lt_iff_toNat_lt]
      show ¬c.val.toNat < 32 ∧ (¬127 ≤ c.val.toNat ∨ ¬c.val.toNat ≤ 159)
      omega
  have hlen : ("job-" ++ id.toText).toList.length ≤ 63 := by
    have := id.length_toText
    rw [String.toList_append, List.length_append, show "job-".toList.length = 4 from rfl]
    omega
  have hj : 'j' ∈ ("job-" ++ id.toText).toList := by simp
  rw [← String.ofList_toList (s := "job-" ++ id.toText)]
  exact validateComponent_ok hj (by decide) hlen
    ⟨fun hm => (hsafe _ (hchars _ hm)).1 rfl, fun hm => (hsafe _ (hchars _ hm)).2.1 rfl⟩
    fun d hd => (hsafe d (hchars d hd)).2.2

/-- Jobs are told apart by the texts of their ids. -/
theorem toText_inj {a b : JobId} (h : a.toText = b.toText) : a = b := by
  obtain ⟨m⟩ := a
  obtain ⟨n⟩ := b
  have hnegative : ∀ k, toString (Int.negSucc k) = "-" ++ (k + 1).repr := fun _ => rfl
  -- no natural number is written with a sign
  have hsign : ∀ j k : ℕ, j.repr ≠ "-" ++ (k + 1).repr := by
    intro j k he
    have hmem : '-' ∈ j.repr.toList := by
      rw [he, String.toList_append]
      exact List.mem_append_left _ (by decide)
    exact absurd (isDigit_of_mem_repr hmem) (by decide)
  have hint : m.toInt = n.toInt := by
    unfold toText at h
    generalize m.toInt = i at h ⊢
    generalize n.toInt = j at h ⊢
    cases i with
    | ofNat i =>
      cases j with
      | ofNat j => exact congrArg Int.ofNat (repr_inj h)
      | negSucc j => exact absurd h (hsign i j)
    | negSucc i =>
      cases j with
      | ofNat j => exact absurd h.symm (hsign j i)
      | negSucc j =>
        rw [hnegative, hnegative] at h
        have := repr_inj (by simpa using h)
        omega
  rw [Int64.toInt_inj.1 hint]

/-- The directory of a job. -/
def home (id : JobId) : SafeRelativePath := .ofComponent ("job-" ++ id.toText) id.validate_dirName

/-- The directories of two jobs have nothing in common. -/
theorem home_apart {a b : JobId} {p q : SafeRelativePath} (h : p.under a.home = q.under b.home) :
    a = b :=
  toText_inj (by simpa using SafeRelativePath.under_ofComponent h)

end JobId

/-- Where the files of a job live, relative to the staging root. -/
def RepairJob.defaultStagingDir (job : RepairJob) : SafeRelativePath :=
  .ofComponent ("job-" ++ job.id.toText) job.id.validate_dirName

theorem RepairJob.defaultStagingDir_eq (job : RepairJob) : job.defaultStagingDir = job.id.home := rfl

/-- One row of the audit trail. -/
structure TransitionRecord where
  fromState : RepairState
  toState : RepairState
  reason : String
  detail : Option Json
  occurredAt : Time

end SeedMedic
