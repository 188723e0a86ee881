/-
  Which actions a job is shown with, and which of them are refused when they are called
  (`web/api/jobs.rs`, `web/api/view.rs`).
-/
import SeedMedic.Web.Reclaim

namespace SeedMedic

open Lib SqliteRepairStore

/-! ## What is shown -/

namespace Api

/-- What an operator may do to a job, and why not where they may not. -/
structure Action where
  available : Bool
  why : Option String
  /-- Where a retry resumes. -/
  resumeTo : Option RepairState
  /-- How many files still need a choice. -/
  unresolvedFiles : Option ℕ
  deriving DecidableEq

namespace Action

def ready : Action := ⟨true, none, none, none⟩

def unavailable (why : String) : Action := ⟨false, some why, none, none⟩

def resumingAt (state : RepairState) : Action := { ready with resumeTo := some state }

def withUnresolved (count : ℕ) : Action := { ready with unresolvedFiles := some count }

end Action

/-- Every action the page of a job can offer. -/
structure Actions where
  retry : Action
  restart : Action
  abandon : Action
  abandonAndDiscard : Action
  approveResume : Action
  chooseCandidate : Action
  discardStaging : Action

/-- Which actions are legal, computed from the job and its file plan. -/
def actionsFor (job : RepairJob) (files : List PlannedFile) : Actions :=
  let parked : Bool := job.state = .awaitingReview
  let unresolved := files.countP fun file => file.source.isNone
  { retry :=
      match parked, job.reviewFromState with
      | true, some state => .resumingAt state
      | true, none => .unavailable ("This job does not record which step it stopped at, " ++
          "so it cannot be retried. Start it over instead.")
      | false, _ => .unavailable "Only a repair waiting for a decision can be retried."
    restart :=
      if parked ∨ job.state = .failed then .ready
      else .unavailable "Only a parked or failed repair can be started over."
    abandon :=
      if parked then .ready
      else .unavailable "Only a repair waiting for a decision can be abandoned."
    abandonAndDiscard :=
      if parked ∧ job.stagingDir.isSome then .ready
      else if parked then .unavailable "This repair has nothing staged to discard."
      else .unavailable "Only a repair waiting for a decision can be abandoned."
    approveResume :=
      if parked ∧ job.reviewReason = some .autoResumeDisabled then .ready
      else .unavailable ("This repair is not held up only by the auto-resume policy, " ++
        "so there is nothing to approve.")
    chooseCandidate :=
      if parked ∧ 0 < unresolved then .withUnresolved unresolved
      else if parked then
        .unavailable "Every file in this repair already has a library file chosen."
      else .unavailable "Only a repair waiting for a decision needs a file chosen."
    discardStaging :=
      if job.state = .completed ∧ job.stagingDir.isSome then .ready
      else if job.state = .completed then .unavailable "This repair has nothing staged to discard."
      else .unavailable ("Staged files can only be discarded once the tracker has cleared " ++
        "the hit-and-run.") }

/-- The names of the actions. -/
inductive ActionName where
  | retry
  | restart
  | abandon
  | abandonAndDiscard
  | approveResume
  | chooseCandidate
  | discardStaging

def Actions.get (actions : Actions) : ActionName → Action
  | .retry => actions.retry
  | .restart => actions.restart
  | .abandon => actions.abandon
  | .abandonAndDiscard => actions.abandonAndDiscard
  | .approveResume => actions.approveResume
  | .chooseCandidate => actions.chooseCandidate
  | .discardStaging => actions.discardStaging

end Api

open Api

/-! ## What is refused -/

section
variable (job : RepairJob) (files : List PlannedFile) (history : List TransitionRecord)

/-- The surroundings of an action on a job that nobody else changes: the store hands the job out
    with its files and its history and writes what it is given, and the client and the staging area
    do as they are told. -/
def unchanged : (c : Call) → Unit → Option (Ans c × Unit)
  | .store (.job _), _ => some (.ok (some job), ())
  | .store (.plannedFiles _), _ => some (.ok files, ())
  | .store (.history _), _ => some (.ok history, ())
  | .store (.apply ..), _ => some (.ok .applied, ())
  | .store (.recordProgress ..), _ => some (.ok (), ())
  | .client (.remove ..), _ => some (.ok (), ())
  | .staging (.discard _), _ => some (.ok (), ())
  | .publish _, _ => some ((), ())
  | _, _ => none

/-- The call returns, and not with an error. -/
def Succeeds {ε α : Type} (p : M (Except ε α)) : Prop :=
  ∃ a, p.exec (unchanged job files history) () = some (.ok a, ())

/-- The action is not refused; of a choice, that some choice is not. -/
def AcceptsAction : ActionName → Prop
  | .retry => Succeeds job files history (retryAction job.id)
  | .restart => Succeeds job files history (restartAction job.id)
  | .abandon => Succeeds job files history (abandonAction job.id)
  | .abandonAndDiscard => Succeeds job files history (abandonAndDiscardAction job.id)
  | .approveResume => Succeeds job files history (approveResumeAction job.id)
  | .chooseCandidate =>
    ∃ path index, Succeeds job files history (chooseCandidateAction job.id path index)
  | .discardStaging => Succeeds job files history (discardStaging job.id)

end

section
variable {job : RepairJob} {files : List PlannedFile} {history : List TransitionRecord}

/-- A transition is accepted when the table allows it. -/
theorem succeeds_apply {target : RepairState} {reason : TransitionReason} {u : TransitionUpdate} :
    Succeeds job files history (applyAction job target reason u) ↔
      objection job.state target reason job.reviewFromState = none := by
  unfold Succeeds applyAction RepairJob.planTransition
  cases ho : objection job.state target reason job.reviewFromState with
  | none =>
    rw [validateTransition_of_legal ho]
    exact iff_of_true ⟨(), rfl⟩ rfl
  | some because =>
    rw [validateTransition_of_objection ho]
    refine iff_of_false ?_ nofun
    rintro ⟨a, h⟩
    cases h

theorem succeeds_withJob {id : JobId} {action : RepairJob → M (Except WebError Unit)} :
    Succeeds job files history (withJob id action) ↔ Succeeds job files history (action job) :=
  Iff.rfl

theorem succeeds_refused {ε α : Type} {e : ε} :
    ¬Succeeds job files history (pure (.error e) : M (Except ε α)) := by
  rintro ⟨a, h⟩
  cases h

/-- Nothing stands in the way of a discard. -/
theorem discardStaged_unchanged :
    (discardStaged job).exec (unchanged job files history) () = some (.ok (), ()) := by
  unfold discardStaged
  cases job.infoHash <;> cases job.stagingDir <;> rfl

theorem succeeds_discardThen {target : RepairState} {reason : TransitionReason}
    {u : TransitionUpdate} : Succeeds job files history (discardThen job target reason u) ↔
      objection job.state target reason job.reviewFromState = none := by
  have happly : Succeeds job files history (discardThen job target reason u) ↔
      Succeeds job files history (applyAction job target reason u) := by
    unfold Succeeds discardThen
    rw [Prog.exec_bind, discardStaged_unchanged]
    rfl
  exact happly.trans succeeds_apply

/-- The store writes the transition of a job nobody has changed, unless the plan that goes with it
    names a path twice. -/
theorem unchanged_apply {s : SqliteRepairStore} {now : Time} {r : JobRow} {target : RepairState}
    {reason : TransitionReason} {t : Transition} {u : TransitionUpdate}
    (hr : s.jobs.get? (readJob r).id = some r) (hplan : (readJob r).planTransition target reason = .ok t)
    (hfiles : ∀ files, u.patch.files = some files → (files.map PlannedFile.torrentPath).Nodup) :
    ∃ s', s.answer now (.apply (readJob r).id t u) = (.ok .applied, s') := by
  have hfrom : r.state = t.fromState := (validateTransition_ok hplan).1.symm
  obtain ⟨s', hs'⟩ := (apply_applied_iff hr hfrom).2 hfiles
  refine ⟨s', ?_⟩
  show s.orKeep (fun a => (a.1, a.2)) (s.apply now (readJob r).id t u) = _
  rw [hs', SqliteRepairStore.orKeep]
  rfl

/-! ### The actions on a job -/

theorem accepts_retry : AcceptsAction job files history .retry ↔
    job.state = .awaitingReview ∧ ∃ state, job.reviewFromState = some state := by
  unfold AcceptsAction retryAction
  rw [succeeds_withJob]
  cases hfrom : job.reviewFromState with
  | none => exact iff_of_false succeeds_refused nofun
  | some state =>
    rw [succeeds_apply, hfrom]
    simp [objection]

theorem accepts_restart : AcceptsAction job files history .restart ↔
    job.state = .awaitingReview ∨ job.state = .failed := by
  unfold AcceptsAction restartAction
  rw [succeeds_withJob, succeeds_discardThen]
  simp [objection, or_iff_not_imp_left]

theorem accepts_abandon : AcceptsAction job files history .abandon ↔ job.state = .awaitingReview := by
  unfold AcceptsAction abandonAction
  rw [succeeds_withJob, succeeds_apply]
  simp [objection]

theorem accepts_abandonAndDiscard :
    AcceptsAction job files history .abandonAndDiscard ↔ job.state = .awaitingReview := by
  unfold AcceptsAction abandonAndDiscardAction
  rw [succeeds_withJob, succeeds_discardThen]
  simp [objection]

theorem accepts_approveResume : AcceptsAction job files history .approveResume ↔
    job.state = .awaitingReview ∧ job.reviewReason = some .autoResumeDisabled ∧
      ∃ state, job.reviewFromState = some state := by
  unfold AcceptsAction approveResumeAction
  rw [succeeds_withJob]
  cases hfrom : job.reviewFromState with
  | none => exact iff_of_false succeeds_refused nofun
  | some state =>
    by_cases hreason : job.reviewReason = some .autoResumeDisabled
    · simp only [hreason, ne_eq, not_true_eq_false, if_false]
      rw [succeeds_apply, hfrom]
      simp [objection]
    · simp only [hreason, ne_eq, not_false_eq_true, if_true]
      exact iff_of_false succeeds_refused fun h => h.2.1.elim

theorem clearStaging_unchanged {id : JobId} {dir : SafeRelativePath} :
    (clearStaging id job dir).exec (unchanged job files history) () =
      some (.ok ⟨job, files, none⟩, ()) := rfl

theorem accepts_discardStaging : AcceptsAction job files history .discardStaging ↔
    job.state = .completed ∧ ∃ dir, job.stagingDir = some dir := by
  unfold AcceptsAction discardStaging Succeeds
  rw [Prog.exec_bind, show (loadOrNotFound job.id).exec (unchanged job files history) () =
    some (.ok job, ()) from rfl, Option.bind_some]
  dsimp only
  by_cases hstate : job.state = .completed
  · rw [if_neg (not_not_intro hstate)]
    cases hdir : job.stagingDir with
    | none =>
      refine iff_of_false ?_ nofun
      rintro ⟨a, h⟩
      cases h
    | some dir =>
      refine iff_of_true ⟨⟨job, files, none⟩, ?_⟩ ⟨hstate, dir, rfl⟩
      cases job.infoHash with
      | none => exact @clearStaging_unchanged job files history job.id dir
      | some infoHash => exact @clearStaging_unchanged job files history job.id dir
  · rw [if_pos hstate]
    refine iff_of_false ?_ fun h => hstate h.1
    rintro ⟨a, h⟩
    cases h

/-! ### Choosing a candidate -/

/-- The file at a place is the first of the plan with its path, and candidates are on offer for it. -/
def Offered (files : List PlannedFile) (history : List TransitionRecord) (i : ℕ) : Prop :=
  ∃ path : SafeRelativePath, files.findIdx? (fun f => f.torrentPath = path) = some i ∧
    ambiguousCandidates history path.asStr ≠ []

/-- A file of the plan at another place has no source. -/
def OthersOpen (files : List PlannedFile) (i : ℕ) : Prop :=
  ∃ j f, files[j]? = some f ∧ j ≠ i ∧ f.source = none

/-- What was recorded is text, and can be recorded again. -/
theorem CandidateSummary.toJson_of_ofJson {j : Json} {c : CandidateSummary}
    (h : CandidateSummary.ofJson j = some c) : ∃ j', c.toJson = some j' := by
  have htext : ∀ s, pathToJson (PathBuf.ofString s) = some (.str s) := fun s => by
    rw [pathToJson, PathBuf.toStr_ofString]
    rfl
  unfold ofJson at h
  split at h
  · rename_i p o hp ho
    cases h
    have horigin : ∃ jo, o.toJson = some jo := by
      obtain ⟨k, hk⟩ := Option.bind_eq_some_iff.1 ho
      obtain ⟨-, hk⟩ := hk
      unfold CandidateOrigin.ofJson at hk
      split at hk
      · obtain ⟨i, -, rfl⟩ := Option.map_eq_some_iff.1 hk
        exact ⟨_, rfl⟩
      · obtain ⟨i, -, rfl⟩ := Option.map_eq_some_iff.1 hk
        exact ⟨_, rfl⟩
      · obtain ⟨r, -, rfl⟩ := Option.map_eq_some_iff.1 hk
        exact ⟨_, by rw [CandidateOrigin.toJson, htext]; rfl⟩
      · cases hk
    obtain ⟨jo, hjo⟩ := horigin
    exact ⟨.obj [("path", .str p), ("origin", jo)], by simp only [toJson, htext, hjo]⟩
  · cases h

theorem toJson_of_mapM : ∀ {js : List Json} {cs : List CandidateSummary},
    js.mapM CandidateSummary.ofJson = some cs → ∀ c ∈ cs, ∃ j, c.toJson = some j
  | [], cs, h, c, hc => by
    cases h
    cases hc
  | j :: js, cs, h, c, hc => by
    simp only [List.mapM_cons, bind, Option.bind_eq_some_iff, pure, Option.some.injEq] at h
    obtain ⟨c', hc', cs', hcs', rfl⟩ := h
    rcases List.mem_cons.1 hc with rfl | hc
    · exact CandidateSummary.toJson_of_ofJson hc'
    · exact toJson_of_mapM hcs' c hc

/-- Whatever is on offer can be recorded. -/
theorem ambiguousCandidates_toJson {path : String} {c : CandidateSummary}
    (hc : c ∈ ambiguousCandidates history path) : ∃ j, c.toJson = some j := by
  unfold ambiguousCandidates at hc
  dsimp only at hc
  split at hc
  · rename_i candidates hoffered
    obtain ⟨j, -, hj⟩ := Option.bind_eq_some_iff.1 hoffered
    unfold UnmatchedReason.ofJson at hj
    split at hj
    · cases hj
    · obtain ⟨cs, hcs, heq⟩ := Option.map_eq_some_iff.1 hj
      cases heq
      obtain ⟨js, -, hjs⟩ := Option.bind_eq_some_iff.1 hcs
      exact toJson_of_mapM hjs c hc
  · cases hc
  · cases hc

/-- After a choice a file is without a source exactly when another one is. -/
theorem unsourced_choose {i : ℕ} {chosen : CandidateSummary} {n : ℕ} :
    ((files.modify i (choose chosen n)).any fun f => f.source.isNone) = true ↔ OthersOpen files i := by
  rw [List.any_eq_true]
  constructor
  · rintro ⟨f, hf, hnone⟩
    obtain ⟨j, hj⟩ := List.mem_iff_getElem?.1 hf
    rw [List.getElem?_modify] at hj
    obtain ⟨g, hg, rfl⟩ := Option.map_eq_some_iff.1 hj
    by_cases hij : i = j
    · simp [hij, choose] at hnone
    · refine ⟨j, g, hg, fun h => hij h.symm, ?_⟩
      simpa [hij] using hnone
  · rintro ⟨j, f, hf, hij, hnone⟩
    refine ⟨f, List.mem_iff_getElem?.2 ⟨j, ?_⟩, by simp [hnone]⟩
    rw [List.getElem?_modify, hf]
    simp [Ne.symm hij]

/-- A choice is accepted while another file needs one, and after the last where the job is parked at
    its matching. -/
theorem succeeds_finishChoice {detail : Json} {i : ℕ} {chosen : CandidateSummary} {n : ℕ} :
    Succeeds job files history
      (finishChoice job detail (files.modify i (choose chosen n))) ↔
    OthersOpen files i ∨ job.state = .awaitingReview ∧ job.reviewFromState = some .torrentFetched := by
  have hothers : ((files.modify i (choose chosen n)).any fun f => f.source.isNone) = true ↔
      OthersOpen files i := unsourced_choose
  rw [← hothers]
  unfold finishChoice
  split_ifs with hopen
  · exact iff_of_true ⟨_, rfl⟩ (.inl hopen)
  · rw [or_iff_right hopen]
    have happly : Succeeds job files history (applyAction job .matched .operatorChooseCandidate
        ((TransitionUpdate.withDetail detail).withPatch { JobPatch.default with
          stagingDir := some job.defaultStagingDir
          files := some (files.modify i (choose chosen n)) })) ↔ _ := succeeds_apply
    have hlegal : objection job.state .matched .operatorChooseCandidate job.reviewFromState = none ↔
        job.state = .awaitingReview ∧ job.reviewFromState = some .torrentFetched := by
      by_cases hstate : job.state = .awaitingReview
      · by_cases hfrom : job.reviewFromState = some .torrentFetched <;> simp [objection, hstate, hfrom]
      · simp [objection, hstate]
    rw [← hlegal, ← happly]
    unfold Succeeds
    rw [Prog.exec_bind]
    constructor
    · rintro ⟨a, h⟩
      obtain ⟨⟨r, u⟩, hrun, hrest⟩ := Option.bind_eq_some_iff.1 h
      cases r with
      | error e => cases hrest
      | ok a => exact ⟨a, hrun⟩
    · rintro ⟨a, hrun⟩
      rw [hrun]
      exact ⟨⟨true⟩, rfl⟩

/-- A choice is accepted when it is on offer for a file of the plan, and can be kept. -/
theorem succeeds_choose {text : String} {index : ℕ} :
    Succeeds job files history (chooseCandidateAction job.id text index) ↔
      ∃ path i, SafeRelativePath.parse text = .ok path ∧
        index < (ambiguousCandidates history path.asStr).length ∧
        files.findIdx? (fun f => f.torrentPath = path) = some i ∧
        (OthersOpen files i ∨
          job.state = .awaitingReview ∧ job.reviewFromState = some .torrentFetched) := by
  unfold Succeeds chooseCandidateAction
  simp only [M.store_bind, Prog.exec_call, unchanged, Option.bind_some]
  cases hparse : SafeRelativePath.parse text with
  | error e => exact iff_of_false succeeds_refused (by simp)
  | ok path =>
    simp only [Prog.exec_call, unchanged, Option.bind_some, Except.ok.injEq, exists_and_left,
      exists_eq_left']
    cases hchosen : (ambiguousCandidates history path.asStr)[index]? with
    | none =>
      refine iff_of_false succeeds_refused ?_
      rintro ⟨hindex, -⟩
      exact absurd hindex (not_lt.2 (List.getElem?_eq_none_iff.1 hchosen))
    | some chosen =>
      obtain ⟨hindex, hget⟩ := List.getElem?_eq_some_iff.1 hchosen
      obtain ⟨j, hj⟩ := ambiguousCandidates_toJson (hget ▸ List.getElem_mem hindex)
      simp only [Prog.exec_call, unchanged, Option.bind_some]
      unfold chooseIn
      cases hi : files.findIdx? fun f => f.torrentPath = path with
      | none => exact iff_of_false succeeds_refused (by simp)
      | some i =>
        simp only [Option.map_some, hj, M.expect_some, Prog.ret_bind]
        refine succeeds_finishChoice.trans ?_
        simp [hindex]

theorem accepts_chooseCandidate : AcceptsAction job files history .chooseCandidate ↔
    ∃ i, Offered files history i ∧ (OthersOpen files i ∨
      job.state = .awaitingReview ∧ job.reviewFromState = some .torrentFetched) := by
  constructor
  · rintro ⟨text, index, hsucceeds⟩
    obtain ⟨path, i, -, hindex, hi, h⟩ := succeeds_choose.1 hsucceeds
    exact ⟨i, ⟨path, hi, List.ne_nil_of_length_pos (by omega)⟩, h⟩
  · rintro ⟨i, ⟨path, hi, hoffer⟩, h⟩
    refine ⟨path.asStr, 0, succeeds_choose.2 ⟨path, i, SafeRelativePath.parse_asStr path, ?_, hi, h⟩⟩
    exact List.length_pos_iff.2 hoffer

/-! ## Where the two agree -/

theorem available_retry : (actionsFor job files).retry.available = true ↔
    job.state = .awaitingReview ∧ ∃ state, job.reviewFromState = some state := by
  unfold actionsFor
  by_cases hstate : job.state = .awaitingReview
  · cases hfrom : job.reviewFromState <;> simp [hstate, Action.unavailable, Action.resumingAt, Action.ready]
  · simp [hstate, Action.unavailable]

/-- An action that is ready under a condition is available under it. -/
theorem available_ite {p : Prop} [Decidable p] {yes no : Action} (hyes : yes.available = true)
    (hno : no.available = false) : (if p then yes else no).available = true ↔ p := by
  split_ifs with h
  · exact iff_of_true hyes h
  · exact iff_of_false (by rw [hno]; nofun) h

theorem available_restart : (actionsFor job files).restart.available = true ↔
    job.state = .awaitingReview ∨ job.state = .failed := by
  refine (available_ite rfl rfl).trans ?_
  simp

theorem available_abandon : (actionsFor job files).abandon.available = true ↔
    job.state = .awaitingReview := by
  refine (available_ite rfl rfl).trans ?_
  simp

theorem available_abandonAndDiscard : (actionsFor job files).abandonAndDiscard.available = true ↔
    job.state = .awaitingReview ∧ ∃ dir, job.stagingDir = some dir := by
  refine (available_ite rfl (by split_ifs <;> rfl)).trans ?_
  simp [Option.isSome_iff_exists]

theorem available_approveResume : (actionsFor job files).approveResume.available = true ↔
    job.state = .awaitingReview ∧ job.reviewReason = some .autoResumeDisabled := by
  refine (available_ite rfl rfl).trans ?_
  simp

theorem available_chooseCandidate : (actionsFor job files).chooseCandidate.available = true ↔
    job.state = .awaitingReview ∧ ∃ f ∈ files, f.source = none := by
  refine (available_ite rfl (by split_ifs <;> rfl)).trans ?_
  simp [List.countP_pos_iff]

theorem available_discardStaging : (actionsFor job files).discardStaging.available = true ↔
    job.state = .completed ∧ ∃ dir, job.stagingDir = some dir := by
  refine (available_ite rfl (by split_ifs <;> rfl)).trans ?_
  simp [Option.isSome_iff_exists]

/-- What has to be true of a job for its actions to be shown as they are taken: parked, it has a
    staging directory, a resume point where it waits for its resume to be approved, and an offer to
    choose from exactly where a choice is open; otherwise no choice is open beside an offer. -/
structure Agreeable (job : RepairJob) (files : List PlannedFile) (history : List TransitionRecord) :
    Prop where
  staged : job.state = .awaitingReview → ∃ dir, job.stagingDir = some dir
  resumable : job.state = .awaitingReview → job.reviewReason = some .autoResumeDisabled →
    ∃ state, job.reviewFromState = some state
  missing : job.state = .awaitingReview → (∃ f ∈ files, f.source = none) →
    ∃ i, Offered files history i ∧ (OthersOpen files i ∨ job.reviewFromState = some .torrentFetched)
  settled : job.state = .awaitingReview → (∀ f ∈ files, f.source ≠ none) →
    job.reviewFromState = some .torrentFetched → ∀ i, ¬Offered files history i
  elsewhere : job.state ≠ .awaitingReview → ∀ i, Offered files history i → ¬OthersOpen files i

theorem OthersOpen.unsourced {i : ℕ} (h : OthersOpen files i) : ∃ f ∈ files, f.source = none := by
  obtain ⟨j, f, hf, -, hnone⟩ := h
  exact ⟨f, List.mem_of_getElem? hf, hnone⟩

/-- A choice is shown as it is taken exactly when an offer is open where a choice is. -/
theorem chooseCandidate_agrees_iff :
    ((actionsFor job files).chooseCandidate.available = true ↔
      AcceptsAction job files history .chooseCandidate) ↔
    (job.state = .awaitingReview → (∃ f ∈ files, f.source = none) → ∃ i, Offered files history i ∧
      (OthersOpen files i ∨ job.reviewFromState = some .torrentFetched)) ∧
    (job.state = .awaitingReview → (∀ f ∈ files, f.source ≠ none) →
      job.reviewFromState = some .torrentFetched → ∀ i, ¬Offered files history i) ∧
    (job.state ≠ .awaitingReview → ∀ i, Offered files history i → ¬OthersOpen files i) := by
  rw [available_chooseCandidate, accepts_chooseCandidate]
  by_cases hstate : job.state = .awaitingReview
  · by_cases hopen : ∃ f ∈ files, f.source = none
    · have hsourced : ¬∀ f ∈ files, f.source ≠ none := by
        obtain ⟨f, hf, hnone⟩ := hopen
        exact fun h => h f hf hnone
      simp [hstate, hopen, hsourced]
    · have hsourced : ∀ f ∈ files, f.source ≠ none := fun f hf hnone => hopen ⟨f, hf, hnone⟩
      have hclosed : ∀ i, ¬OthersOpen files i := fun i h => hopen h.unsourced
      simp only [hstate, hopen, hclosed, and_false, false_iff, false_or, true_and, not_exists,
        not_and, forall_const, IsEmpty.forall_iff, ne_eq, not_true_eq_false, and_true]
      exact ⟨fun h _ hfrom i hi => h i hi hfrom, fun h i hi hfrom => h hsourced hfrom i hi⟩
  · simp [hstate]

/-- The actions of a job are shown as they are taken exactly when it is agreeable. -/
theorem actionsFor_agrees_iff :
    (∀ name, ((actionsFor job files).get name).available = true ↔ AcceptsAction job files history name) ↔
      Agreeable job files history := by
  constructor
  · intro h
    obtain ⟨hmissing, hsettled, helsewhere⟩ := chooseCandidate_agrees_iff.1 (h .chooseCandidate)
    refine ⟨fun hstate => ?_, fun hstate hreason => ?_, hmissing, hsettled, helsewhere⟩
    · exact (available_abandonAndDiscard.1
        ((h .abandonAndDiscard).2 (accepts_abandonAndDiscard.2 hstate))).2
    · exact (accepts_approveResume.1
        ((h .approveResume).1 (available_approveResume.2 ⟨hstate, hreason⟩))).2.2
  · intro h name
    cases name with
    | retry => exact available_retry.trans accepts_retry.symm
    | restart => exact available_restart.trans accepts_restart.symm
    | abandon => exact available_abandon.trans accepts_abandon.symm
    | abandonAndDiscard =>
      refine available_abandonAndDiscard.trans (Iff.trans ?_ accepts_abandonAndDiscard.symm)
      exact ⟨And.left, fun hstate => ⟨hstate, h.staged hstate⟩⟩
    | approveResume =>
      refine available_approveResume.trans (Iff.trans ?_ accepts_approveResume.symm)
      exact ⟨fun ⟨hstate, hreason⟩ => ⟨hstate, hreason, h.resumable hstate hreason⟩,
        fun ⟨hstate, hreason, _⟩ => ⟨hstate, hreason⟩⟩
    | chooseCandidate => exact chooseCandidate_agrees_iff.2 ⟨h.missing, h.settled, h.elsewhere⟩
    | discardStaging => exact available_discardStaging.trans accepts_discardStaging.symm

end

/-- A parked job that was never staged. -/
def unstagedJob : RepairJob :=
  readJob { discoveredRow ⟨1⟩ 0 ⟨⟨"tracker"⟩, ⟨"7"⟩, "show", none, 10, none⟩ with
    state := .awaitingReview, reviewFromState := some .torrentFetched }

/-- It is shown as one that cannot be abandoned with its staged data, and can. -/
theorem unstaged_abandoned : ¬∀ job files history name,
    (((actionsFor job files).get name).available = true ↔ AcceptsAction job files history name) := by
  intro h
  have havailable := (h unstagedJob [] [] .abandonAndDiscard).2 ⟨(), rfl⟩
  exact absurd havailable (by decide)

end SeedMedic
