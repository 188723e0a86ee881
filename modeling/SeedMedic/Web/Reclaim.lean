/-
  Deleting staged data: the operator's actions that do, and whether the torrent has left the
  client by then (`web/api/actions.rs`, `web/review.rs`).
-/
import SeedMedic.Web.Discard

namespace SeedMedic

open Lib SqliteRepairStore

/-! ## Reclaiming a completed job's staging directory -/

/-- An error of the operator's interface. -/
inductive ApiError where
  | notFound (message : String)
  | conflict (text : String)
  | internal (message : String)

def ApiError.ofStore : StoreError → ApiError
  | .missing _ => .notFound "No such repair job."
  | error@(.conflict ..) | error@(.invalid _) =>
    .conflict (error.toText ++ " The job may have moved since this page was loaded.")
  | .corrupt .. | .database _ => .internal "Something went wrong reading repair state."

/-- Load a job, or end with the error its absence calls for. -/
def loadOrNotFound (id : JobId) : M (Except ApiError RepairJob) := do
  match ← M.store (.job id) with
  | .error e => pure (.error (.ofStore e))
  | .ok none => pure (.error (.notFound "No such repair job."))
  | .ok (some job) => pure (.ok job)

/-- What the refreshed view of a job after an action is made from. -/
structure ActionOutcome where
  job : RepairJob
  files : List PlannedFile
  resolved : Option Bool

def actionOutcome (id : JobId) (resolved : Option Bool) : M (Except ApiError ActionOutcome) := do
  match ← loadOrNotFound id with
  | .error e => pure (.error e)
  | .ok job =>
    match ← M.store (.plannedFiles id) with
    | .error e => pure (.error (.ofStore e))
    | .ok files => pure (.ok ⟨job, files, resolved⟩)

/-- Delete what a job staged and tell of it; a failure leaves the job alone. -/
def clearStaging (id : JobId) (job : RepairJob) (dir : SafeRelativePath) :
    M (Except ApiError ActionOutcome) := do
  match ← M.staging (.discard dir) with
  | .error e => pure (.error (.conflict
      ("Could not clear the staging directory, so nothing was changed: " ++ e.toText)))
  | .ok () => do
    M.publish (.jobProgress job.id)
    actionOutcome id none

/-- Reclaim a completed repair's staging directory. -/
def discardStaging (id : JobId) : M (Except ApiError ActionOutcome) := do
  match ← loadOrNotFound id with
  | .error e => pure (.error e)
  | .ok job =>
    if job.state ≠ .completed then
      pure (.error (.conflict ("Staged files can only be discarded once the tracker has cleared " ++
        "the hit-and-run.")))
    else
      match job.stagingDir with
      | none => pure (.error (.conflict "This repair has nothing staged to discard."))
      | some stagingDir => do
        match job.infoHash with
        | none => pure ()
        | some infoHash =>
          -- an error is only logged
          let _ ← M.client (.remove infoHash false)
        clearStaging id job stagingDir

/-! ## Whether the torrent has left the client -/

variable {e : Circumstances} {w : Outside} {id : JobId}

/-- Something staged for a job is gone. -/
def StagedDeleted (w w' : Outside) (job : RepairJob) : Prop :=
  ∃ dir, job.stagingDir = some dir ∧
    ∃ path, isWithin dir path = true ∧ w.staged path ≠ none ∧ w'.staged path = none

/-- The client holds the torrent of a job. -/
def Holds (w : Outside) (job : RepairJob) : Prop :=
  ∃ infoHash, job.infoHash = some infoHash ∧ infoHash ∈ w.torrents

/-- The action returns, and when it deleted what is staged for the job, the client no longer
    holds the job's torrent. -/
def RemovedFirst {α : Type} (e : Circumstances) (w : Outside) (id : JobId) (action : M α) : Prop :=
  ∃ r w', action.exec e.handle w = some (r, w') ∧
    ∀ job, w.store.job id = some job → StagedDeleted w w' job → ¬Holds w' job

/-- A job that an action loads has nothing staged that the discard deletes, or the client does
    not hold its torrent, or lets it go when asked. -/
def SafeToDelete (e : Circumstances) (w : Outside) (id : JobId) (takes : RepairJob → Prop) : Prop :=
  e.loadError = none → ∀ job, w.store.job id = some job → takes job →
    LosesStaged e w job → Holds w job → e.removes = true

namespace Circumstances

/-- What is held after the removal a job calls for. -/
theorem holds_after (job : RepairJob) (s : SqliteRepairStore)
    (staged : SafeRelativePath → Option StagedEntry) :
    Holds ⟨s, e.torrentsAfter w job, staged⟩ job ↔ Holds w job ∧ e.removes = false := by
  unfold Holds torrentsAfter remove
  cases hh : job.infoHash with
  | none => simp
  | some infoHash =>
    by_cases hr : e.removes = true
    · simp [hr]
    · simp [hr]

/-- What is deleted by the discard a job calls for. -/
theorem deleted_after (job : RepairJob) (s : SqliteRepairStore) (torrents : Finset InfoHash) :
    StagedDeleted w ⟨s, torrents, e.stagedAfter w job⟩ job ↔ LosesStaged e w job := by
  unfold StagedDeleted LosesStaged stagedAfter discard
  cases hd : job.stagingDir with
  | none => simp
  | some dir =>
    simp only [Option.some.injEq, exists_eq_left']
    refine exists_congr fun path => and_congr_right fun hwithin => ?_
    by_cases hdel : e.deletes path = true
    · simp [hwithin, hdel]
    · simp [hdel]

end Circumstances

open Circumstances

/-- Deleting what a job staged is safe exactly when the client gives up what it holds. -/
theorem removedFirst_iff {α : Type} {action : M α} {job : RepairJob} {r : α}
    {s : SqliteRepairStore} (hjob : w.store.job id = some job)
    (hrun : action.exec e.handle w = some (r, ⟨s, e.torrentsAfter w job, e.stagedAfter w job⟩)) :
    RemovedFirst e w id action ↔ (LosesStaged e w job → Holds w job → e.removes = true) := by
  unfold RemovedFirst
  constructor
  · rintro ⟨r', w', hrun', hsafe⟩ hloses hholds
    cases hrun.symm.trans hrun'
    have := hsafe job hjob ((deleted_after job s _).2 hloses)
    rw [holds_after, not_and, Bool.not_eq_false] at this
    exact this hholds
  · intro hremoves
    refine ⟨r, _, hrun, fun job' hjob' hdeleted hholds => ?_⟩
    cases hjob.symm.trans hjob'
    obtain ⟨hholds, hkeeps⟩ := (holds_after job s _).1 hholds
    rw [hremoves ((deleted_after job s _).1 hdeleted) hholds] at hkeeps
    cases hkeeps

/-- An action that deletes nothing is safe. -/
theorem removedFirst_of_kept {α : Type} {action : M α} {r : α}
    (hrun : action.exec e.handle w = some (r, w)) : RemovedFirst e w id action := by
  refine ⟨r, w, hrun, fun job _ hdeleted => ?_⟩
  obtain ⟨dir, -, path, -, hstaged, hgone⟩ := hdeleted
  exact absurd hgone hstaged

/-- Discarding a job and then moving it changes the client and the staging area only by the
    removal and the discard. -/
theorem discardThen_exec (e : Circumstances) (w : Outside) (job : RepairJob) (target : RepairState)
    (reason : TransitionReason) {u : TransitionUpdate} (hu : u.patch.files = none) :
    ∃ r s, (discardThen job target reason u).exec e.handle w =
      some (r, ⟨s, e.torrentsAfter w job, e.stagedAfter w job⟩) := by
  obtain ⟨r, hdiscard, -⟩ := discardStaged_exec e w job
  unfold discardThen
  rw [Prog.exec_bind, hdiscard, Option.bind_some]
  cases r with
  | error error => exact ⟨_, w.store, rfl⟩
  | ok a =>
    obtain ⟨r, s, happly, -⟩ := applyAction_exec e
      { w with torrents := e.torrentsAfter w job, staged := e.stagedAfter w job } job target reason hu
    exact ⟨r, s, happly⟩

/-- An action that deletes nothing of the job it loads, if it loads one. -/
theorem removedFirst_iff_of_run {α : Type} {action : M α} {takes : RepairJob → Prop}
    (hrun : ∃ r s, action.exec e.handle w = some (r, s) ∧
      ((s = w ∧ ∀ job, e.loadError = none → w.store.job id = some job → takes job →
          ¬LosesStaged e w job) ∨
        ∃ job s', e.loadError = none ∧ w.store.job id = some job ∧ takes job ∧
          s = ⟨s', e.torrentsAfter w job, e.stagedAfter w job⟩)) :
    RemovedFirst e w id action ↔ SafeToDelete e w id takes := by
  obtain ⟨r, s, hrun, ⟨rfl, hkept⟩ | ⟨job, s', hload, hjob, htakes, rfl⟩⟩ := hrun
  · refine iff_of_true (removedFirst_of_kept hrun) fun hload job hjob htakes hloses => ?_
    exact absurd hloses (hkept job hload hjob htakes)
  · rw [removedFirst_iff hjob hrun]
    constructor
    · intro h _ job' hjob' _
      cases hjob.symm.trans hjob'
      exact h
    · exact fun h => h hload job hjob htakes

/-- An action that discards what its job staged and then moves it. -/
theorem withJob_removedFirst_iff {target : RepairState} {reason : TransitionReason}
    {u : TransitionUpdate} (hu : u.patch.files = none) :
    RemovedFirst e w id (withJob id fun job => discardThen job target reason u) ↔
      SafeToDelete e w id fun _ => True := by
  refine removedFirst_iff_of_run ?_
  unfold withJob
  rw [Circumstances.exec_store]
  cases he : e.loadError with
  | some error =>
    simp only [Circumstances.answer, he]
    exact ⟨_, _, rfl, .inl ⟨rfl, fun job h => (by cases h)⟩⟩
  | none =>
    simp only [Circumstances.answer, he]
    cases hjob : w.store.job id with
    | none => exact ⟨_, _, rfl, .inl ⟨rfl, fun job _ h => (by cases h)⟩⟩
    | some job =>
      obtain ⟨r, s, hrun⟩ := discardThen_exec e w job target reason hu
      exact ⟨_, _, hrun, .inr ⟨job, s, trivial, rfl, trivial, rfl⟩⟩

theorem actionOutcome_exec (resolved : Option Bool) (w : Outside) :
    ∃ r, (actionOutcome id resolved).exec e.handle w = some (r, w) := by
  unfold actionOutcome loadOrNotFound
  rw [Prog.bind_assoc, Circumstances.exec_store]
  cases he : e.loadError with
  | some error =>
    simp only [Circumstances.answer, he]
    exact ⟨_, rfl⟩
  | none =>
    simp only [Circumstances.answer, he]
    cases hjob : w.store.job id with
    | none => exact ⟨_, rfl⟩
    | some job => exact ⟨_, rfl⟩

theorem clearStaging_exec {job : RepairJob} {dir : SafeRelativePath} (hd : job.stagingDir = some dir)
    (w : Outside) : ∃ r, (clearStaging id job dir).exec e.handle w =
      some (r, { w with staged := e.stagedAfter w job }) := by
  have hstaged : e.stagedAfter w job = e.discard dir w.staged := by
    simp only [stagedAfter, hd]
  unfold clearStaging
  rw [M.staging_bind, Prog.exec_call, hstaged]
  simp only [handle, Option.bind_some]
  cases e.discardAnswer with
  | error error => exact ⟨_, rfl⟩
  | ok a => exact actionOutcome_exec none { w with staged := e.discard dir w.staged }

/-- Reclaiming a completed job changes the client and the staging area by the removal and the
    discard. -/
theorem discardStaging_exec {job : RepairJob} {dir : SafeRelativePath} (hload : e.loadError = none)
    (hjob : w.store.job id = some job) (hstate : job.state = .completed)
    (hd : job.stagingDir = some dir) : ∃ r, (discardStaging id).exec e.handle w =
      some (r, ⟨w.store, e.torrentsAfter w job, e.stagedAfter w job⟩) := by
  unfold discardStaging loadOrNotFound
  rw [Prog.bind_assoc, Circumstances.exec_store]
  simp only [Circumstances.answer, hload, hjob, Prog.ret_bind, Prog.pure_eq, hstate, ne_eq,
    not_true_eq_false, if_false, hd]
  cases hh : job.infoHash with
  | none =>
    obtain ⟨r, hrun⟩ : ∃ r, (clearStaging id job dir).exec e.handle w = some (r, _) :=
      clearStaging_exec hd w
    refine ⟨r, hrun.trans ?_⟩
    simp [torrentsAfter, hh]
  | some infoHash =>
    obtain ⟨r, hrun⟩ : ∃ r, (clearStaging id job dir).exec e.handle
        { w with torrents := e.remove infoHash w.torrents } = some (r, _) :=
      clearStaging_exec hd _
    refine ⟨r, hrun.trans ?_⟩
    simp [torrentsAfter, stagedAfter, hh, hd]

theorem discardStaging_removedFirst_iff :
    RemovedFirst e w id (discardStaging id) ↔
      SafeToDelete e w id fun job => job.state = .completed := by
  refine removedFirst_iff_of_run ?_
  by_cases hstaged : ∃ job dir, e.loadError = none ∧ w.store.job id = some job ∧
      job.state = .completed ∧ job.stagingDir = some dir
  · obtain ⟨job, dir, hload, hjob, hstate, hd⟩ := hstaged
    obtain ⟨r, hrun⟩ := discardStaging_exec hload hjob hstate hd
    exact ⟨r, _, hrun, .inr ⟨job, _, hload, hjob, hstate, rfl⟩⟩
  unfold discardStaging loadOrNotFound
  rw [Prog.bind_assoc, Circumstances.exec_store]
  cases he : e.loadError with
  | some error =>
    simp only [Circumstances.answer, he]
    exact ⟨_, _, rfl, .inl ⟨rfl, fun job h => (by cases h)⟩⟩
  | none =>
    simp only [Circumstances.answer, he]
    cases hjob : w.store.job id with
    | none => exact ⟨_, _, rfl, .inl ⟨rfl, fun job _ h => (by cases h)⟩⟩
    | some job =>
      simp only [Prog.ret_bind, Prog.pure_eq]
      split_ifs with hstate
      · exact ⟨_, _, rfl, .inl ⟨rfl, fun job' _ h => (by cases h; exact fun h => absurd h hstate)⟩⟩
      · cases hd : job.stagingDir with
        | none =>
          refine ⟨_, _, rfl, .inl ⟨rfl, fun job' _ h _ => ?_⟩⟩
          cases h
          rintro ⟨dir, hdir, -⟩
          cases hd.symm.trans hdir
        | some dir => exact absurd ⟨job, dir, he, hjob, not_not.1 hstate, hd⟩ hstaged

/-- Each action that deletes staged data does so with the torrent out of the client exactly
    when a client that holds the torrent gives it up on being asked. -/
theorem torrent_removed_first_iff :
    (RemovedFirst e w id (restartAction id) ↔ SafeToDelete e w id fun _ => True) ∧
    (RemovedFirst e w id (abandonAndDiscardAction id) ↔ SafeToDelete e w id fun _ => True) ∧
    (RemovedFirst e w id (discardStaging id) ↔
      SafeToDelete e w id fun job => job.state = .completed) :=
  ⟨withJob_removedFirst_iff rfl, withJob_removedFirst_iff rfl, discardStaging_removedFirst_iff⟩

/-! ## A client that cannot be reached -/

/-- A completed job with its torrent in the client and a file staged. -/
def completedOutside : Outside where
  store :=
    { jobs := ⟨[{ discoveredRow ⟨1⟩ 0 ⟨⟨"tracker"⟩, ⟨"7"⟩, "show", none, 10, none⟩ with
        state := .completed, infoHash := some ⟨Vector.replicate 20 7⟩
        stagingDir := some (.ofComponent _ (JobId.validate_dirName ⟨1⟩)) }], by simp⟩
      files := .empty
      transitions := []
      jobSeq := 1 }
  torrents := {⟨Vector.replicate 20 7⟩}
  staged := fun _ => some (.file [1, 2, 3])

/-- The request to remove a torrent is lost. -/
def unreachable : Circumstances :=
  { quiet with removeAnswer := .error (.transport "connection timed out") }

/-- The staged file of a completed job is deleted while the client holds its torrent. -/
theorem staged_deleted_under_torrent :
    ¬RemovedFirst unreachable completedOutside ⟨1⟩ (discardStaging ⟨1⟩) := by
  intro h
  have hremoved := discardStaging_removedFirst_iff.1 h rfl _ rfl rfl
    ⟨_, rfl, .ofComponent _ (JobId.validate_dirName ⟨1⟩), by simp [isWithin], rfl, nofun⟩
    ⟨_, rfl, by simp [completedOutside]⟩
  cases hremoved

end SeedMedic
