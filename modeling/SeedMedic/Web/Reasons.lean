/-
  Why an action is shown as out of reach, and what a call of it answers (`web/api/view.rs`,
  `web/api/jobs.rs`, `web/api/error.rs`).
-/
import SeedMedic.Web.Actions
import SeedMedic.Web.Bulk

namespace SeedMedic

open Lib Api

/-! ## What a call answers -/

section
variable (job : RepairJob) (files : List PlannedFile) (history : List TransitionRecord)

/-- A call ends in an error, on a job that nobody else changes, and the error is worded so. -/
def AnswersWith {ε α : Type} (message : ε → String) (p : M (Except ε α)) (text : String) : Prop :=
  ∃ e, p.exec (unchanged job files history) () = some (.error e, ()) ∧ message e = text

/-- How the interface words the error of an action of the pages. -/
def webMessage (e : WebError) : String := (ApiError.ofWeb e).message

/-- A call of the action is answered with a text; of a choice, some choice is. -/
def AnsweredWith : ActionName → String → Prop
  | .retry => AnswersWith job files history webMessage (retryAction job.id)
  | .restart => AnswersWith job files history webMessage (restartAction job.id)
  | .abandon => AnswersWith job files history webMessage (abandonAction job.id)
  | .abandonAndDiscard =>
    AnswersWith job files history webMessage (abandonAndDiscardAction job.id)
  | .approveResume => AnswersWith job files history webMessage (approveResumeAction job.id)
  | .chooseCandidate => fun text => ∃ path index,
    AnswersWith job files history webMessage (chooseCandidateAction job.id path index) text
  | .discardStaging => AnswersWith job files history ApiError.message (discardStaging job.id)

end

section
variable {job : RepairJob} {files : List PlannedFile} {history : List TransitionRecord}
  {ε α : Type} {message : ε → String} {text : String}

theorem answersWith_error {e : ε} :
    AnswersWith job files history message (pure (.error e) : M (Except ε α)) text ↔
      message e = text := by
  constructor
  · rintro ⟨e', hrun, rfl⟩
    cases hrun
    rfl
  · intro h
    exact ⟨e, rfl, h⟩

theorem answersWith_withJob {id : JobId} {action : RepairJob → M (Except WebError Unit)} :
    AnswersWith job files history webMessage (withJob id action) text ↔
      AnswersWith job files history webMessage (action job) text :=
  Iff.rfl

/-- The first letter of a text. -/
def headLetter (text : String) : Option Char := text.toList.head?

theorem headLetter_append {s t : String} {c : Char} (h : headLetter s = some c) :
    headLetter (s ++ t) = some c := by
  unfold headLetter at h ⊢
  rw [String.toList_append, List.head?_append, h]
  rfl

theorem headLetter_toText (e : InvalidTransition) : headLetter e.toText = some 'c' := by
  unfold InvalidTransition.toText
  iterate 7 refine headLetter_append ?_
  decide

/-- What is said of a transition the table does not allow starts in lower case. -/
theorem headLetter_of_apply {target : RepairState} {reason : TransitionReason}
    {u : TransitionUpdate}
    (h : AnswersWith job files history webMessage (applyAction job target reason u) text) :
    headLetter text = some 'c' := by
  unfold applyAction RepairJob.planTransition at h
  cases ho : objection job.state target reason job.reviewFromState with
  | none =>
    rw [validateTransition_of_legal ho] at h
    obtain ⟨e, hrun, -⟩ := h
    simp only [M.store_bind, M.publish_bind, Prog.exec_call, unchanged, Option.bind_some] at hrun
    cases hrun
  | some because =>
    rw [validateTransition_of_objection ho] at h
    rw [← answersWith_error.1 h]
    exact headLetter_append (headLetter_toText _)

theorem headLetter_of_discardThen {target : RepairState} {reason : TransitionReason}
    {u : TransitionUpdate}
    (h : AnswersWith job files history webMessage (discardThen job target reason u) text) :
    headLetter text = some 'c' := by
  obtain ⟨e, hrun, htext⟩ := h
  unfold discardThen at hrun
  rw [Prog.exec_bind, discardStaged_unchanged] at hrun
  exact headLetter_of_apply ⟨e, hrun, htext⟩

/-- What is said of a last choice that cannot be kept starts in lower case. -/
theorem headLetter_of_finishChoice {detail : Json} {planned : List PlannedFile}
    (h : AnswersWith job files history webMessage (finishChoice job detail planned) text) :
    headLetter text = some 'c' := by
  obtain ⟨e, hrun, htext⟩ := h
  unfold finishChoice at hrun
  by_cases hopen : (planned.any fun f => f.source.isNone) = true
  · rw [if_pos hopen] at hrun
    simp only [M.store_bind, Prog.exec_call, unchanged, Option.bind_some] at hrun
    cases hrun
  · rw [if_neg hopen, Prog.exec_bind] at hrun
    obtain ⟨⟨r, u⟩, hrun, hrest⟩ := Option.bind_eq_some_iff.1 hrun
    cases r with
    | ok a => cases hrest
    | error e' =>
      cases hrest
      exact headLetter_of_apply ⟨e, hrun, htext⟩

/-- What is said of a choice that is refused. -/
theorem headLetter_of_choose {path : String} {index : ℕ}
    (h : AnswersWith job files history webMessage (chooseCandidateAction job.id path index) text) :
    headLetter text ∈ [some 'n', some 'T', some 'c'] := by
  unfold AnswersWith chooseCandidateAction at h
  simp only [M.store_bind, Prog.exec_call, unchanged, Option.bind_some] at h
  cases hparse : SafeRelativePath.parse path with
  | error e =>
    simp only [hparse] at h
    rw [← answersWith_error.1 h]
    simp [headLetter, webMessage, ApiError.ofWeb, ApiError.message]
  | ok path =>
    simp only [hparse, Prog.exec_call, unchanged, Option.bind_some] at h
    cases hchosen : (ambiguousCandidates history path.asStr)[index]? with
    | none =>
      simp only [hchosen] at h
      rw [← answersWith_error.1 h]
      decide
    | some chosen =>
      simp only [hchosen, Prog.exec_call, unchanged, Option.bind_some] at h
      cases hplan : chooseIn path chosen (ambiguousCandidates history path.asStr).length files with
      | none =>
        simp only [hplan] at h
        rw [← answersWith_error.1 h]
        decide
      | some planned =>
        obtain ⟨hindex, hget⟩ := List.getElem?_eq_some_iff.1 hchosen
        obtain ⟨j, hj⟩ := ambiguousCandidates_toJson (hget ▸ List.getElem_mem hindex)
        simp only [hplan, hj, M.expect_some, Prog.ret_bind] at h
        rw [headLetter_of_finishChoice h]
        decide

/-! ## Where the two agree -/

/-- The reason an action is shown out of reach for is what a call of it is answered with. -/
def WhyTold (job : RepairJob) (files : List PlannedFile) (history : List TransitionRecord)
    (name : ActionName) : Prop :=
  ∃ why, ((actionsFor job files).get name).why = some why ∧ AnsweredWith job files history name why

variable (job files history) in
theorem whyTold_retry : WhyTold job files history .retry ↔
    job.state = .awaitingReview ∧ job.reviewFromState = none := by
  unfold WhyTold AnsweredWith retryAction
  simp only [answersWith_withJob, Actions.get, actionsFor]
  by_cases hstate : job.state = .awaitingReview
  · cases hfrom : job.reviewFromState with
    | none =>
      refine iff_of_true ⟨_, ?_, answersWith_error.2 rfl⟩ ⟨hstate, rfl⟩
      simp [hstate, Action.unavailable, webMessage, ApiError.ofWeb, ApiError.message]
    | some state => simp [hstate, Action.resumingAt, Action.ready]
  · refine iff_of_false ?_ fun h => hstate h.1
    rintro ⟨why, hwhy, htold⟩
    simp only [hstate, decide_false, Action.unavailable, Option.some.injEq] at hwhy
    subst hwhy
    cases hfrom : job.reviewFromState with
    | none =>
      rw [hfrom] at htold
      exact absurd (answersWith_error.1 htold) (by decide)
    | some state =>
      rw [hfrom] at htold
      exact absurd (headLetter_of_apply htold) (by decide)

/-- A reason that is shown starts with a capital. -/
theorem headLetter_of_why {name : ActionName} {why : String}
    (h : ((actionsFor job files).get name).why = some why) : headLetter why ≠ some 'c' := by
  cases name with
  | retry =>
    unfold actionsFor Actions.get at h
    dsimp only at h
    split at h <;> cases h <;> decide
  | _ =>
    unfold actionsFor Actions.get at h
    dsimp only at h
    split_ifs at h <;> cases h <;> decide

/-- An action whose calls are only refused by the table is never answered with its reason. -/
theorem not_whyTold {name : ActionName}
    (hanswers : ∀ text, AnsweredWith job files history name text → headLetter text = some 'c') :
    ¬WhyTold job files history name := by
  rintro ⟨why, hshown, htold⟩
  exact headLetter_of_why hshown (hanswers why htold)

/-- The choice that is out of reach is none of those a refusal speaks of. -/
theorem not_whyTold_chooseCandidate : ¬WhyTold job files history .chooseCandidate := by
  rintro ⟨why, hshown, path, index, htold⟩
  have hletter := headLetter_of_choose htold
  unfold actionsFor Actions.get at hshown
  dsimp only at hshown
  split_ifs at hshown
  · cases hshown
  · cases hshown
    exact absurd hletter (by decide)
  · cases hshown
    exact absurd hletter (by decide)

/-- The two texts for an approval without its reason are not worded alike. -/
theorem not_whyTold_approveResume : ¬WhyTold job files history .approveResume := by
  rintro ⟨why, hshown, htold⟩
  have hlower := headLetter_of_why hshown
  have htold : AnswersWith job files history webMessage (approveResumeAction job.id) why := htold
  unfold actionsFor Actions.get at hshown
  dsimp only at hshown
  split_ifs at hshown
  · cases hshown
  · unfold approveResumeAction at htold
    rw [answersWith_withJob] at htold
    cases hfrom : job.reviewFromState with
    | none =>
      rw [hfrom] at htold
      cases hshown
      exact absurd (answersWith_error.1 htold) (by decide)
    | some state =>
      rw [hfrom] at htold
      dsimp only at htold
      split_ifs at htold
      · cases hshown
        exact absurd (answersWith_error.1 htold) (by decide)
      · exact hlower (headLetter_of_apply htold)

variable (job files history) in
theorem whyTold_discardStaging : WhyTold job files history .discardStaging ↔
    ¬(job.state = .completed ∧ ∃ dir, job.stagingDir = some dir) := by
  have htold : ∀ why, AnsweredWith job files history .discardStaging why ↔
      ∃ e, (discardStaging job.id).exec (unchanged job files history) () = some (.error e, ()) ∧
        e.message = why := fun why => Iff.rfl
  unfold WhyTold
  simp only [htold]
  unfold discardStaging actionsFor Actions.get
  rw [Prog.exec_bind, show (loadOrNotFound job.id).exec (unchanged job files history) () =
    some (.ok job, ()) from rfl, Option.bind_some]
  dsimp only
  by_cases hstate : job.state = .completed
  · rw [if_neg (not_not_intro hstate)]
    cases hdir : job.stagingDir with
    | none =>
      refine iff_of_true ⟨_, ?_, _, rfl, rfl⟩ (by simp)
      simp [hstate, Action.unavailable, ApiError.message]
    | some dir => simp [hstate, Action.ready]
  · rw [if_pos hstate]
    refine iff_of_true ⟨_, ?_, _, rfl, rfl⟩ fun h => hstate h.1
    simp [hstate, Action.unavailable, ApiError.message]

end

/-- What is shown of an action out of reach is what a call of it is answered with exactly for the
    discard of what is staged, and for the retry of a parked job without a resume point. -/
theorem why_told_iff (job : RepairJob) (files : List PlannedFile) (history : List TransitionRecord)
    (name : ActionName) :
    WhyTold job files history name ↔
      (name = .discardStaging ∧ ¬(job.state = .completed ∧ ∃ dir, job.stagingDir = some dir)) ∨
      (name = .retry ∧ job.state = .awaitingReview ∧ job.reviewFromState = none) := by
  cases name with
  | retry => simpa using whyTold_retry job files history
  | restart =>
    refine iff_of_false (not_whyTold fun text h => ?_) (by simp)
    exact headLetter_of_discardThen (answersWith_withJob.1 h)
  | abandon =>
    refine iff_of_false (not_whyTold fun text h => ?_) (by simp)
    exact headLetter_of_apply (answersWith_withJob.1 h)
  | abandonAndDiscard =>
    refine iff_of_false (not_whyTold fun text h => ?_) (by simp)
    exact headLetter_of_discardThen (answersWith_withJob.1 h)
  | approveResume => exact iff_of_false not_whyTold_approveResume (by simp)
  | chooseCandidate => exact iff_of_false not_whyTold_chooseCandidate (by simp)
  | discardStaging => simpa using whyTold_discardStaging job files history

end SeedMedic
