/-
  The two destructive review actions against a client, a staging area and a store that
  others write to as well.
-/
import Mathlib.Data.Finset.Basic
import SeedMedic.Repair.Serve
import SeedMedic.Web.Review

namespace SeedMedic

open Lib SqliteRepairStore

/-- What may stand at a path of the staging area. -/
inductive StagedEntry where
  | directory
  | file (bytes : List UInt8)

/-- The three systems an action spans. -/
structure Outside where
  store : SqliteRepairStore
  /-- The torrents the client holds. -/
  torrents : Finset InfoHash
  /-- What stands at each path below the staging root. -/
  staged : SafeRelativePath → Option StagedEntry

/-- Whether a path is a directory or lies in it. -/
def isWithin (dir path : SafeRelativePath) : Bool :=
  (splitParts dir.asStr).isPrefixOf (splitParts path.asStr)

/-- How the surroundings meet one call of an action. -/
structure Circumstances where
  now : Time
  /-- The error of the first load, if it fails. -/
  loadError : Option StoreError
  removeAnswer : Except ClientError Unit
  /-- A client that answers with an error may have taken the torrent out nevertheless. -/
  removedAnyway : Bool
  discardAnswer : Except StagingError Unit
  /-- What a discard that fails deleted before it did. -/
  deletedAnyway : SafeRelativePath → Bool
  /-- What other writers do to the store between the load and the transition. -/
  race : SqliteRepairStore → SqliteRepairStore
  /-- The error of the database at the transition, if it fails. -/
  applyError : Option String

def isOk {ε α : Type} : Except ε α → Bool
  | .ok _ => true
  | .error _ => false

namespace Circumstances

variable (e : Circumstances)

/-- Whether a torrent that is asked to be removed leaves the client. -/
def removes : Bool := isOk e.removeAnswer || e.removedAnyway

/-- Whether an entry goes when its directory is asked to be discarded. -/
def deletes (path : SafeRelativePath) : Bool := isOk e.discardAnswer || e.deletedAnyway path

/-- What the client holds after a removal. -/
def remove (infoHash : InfoHash) (torrents : Finset InfoHash) : Finset InfoHash :=
  if e.removes then torrents.erase infoHash else torrents

/-- What is staged after a discard. -/
def discard (dir : SafeRelativePath) (staged : SafeRelativePath → Option StagedEntry) :
    SafeRelativePath → Option StagedEntry :=
  fun path => if isWithin dir path && e.deletes path then none else staged path

/-- The store as it answers in the course of an action. -/
def answer (s : SqliteRepairStore) : (c : StoreCall) → c.Ans × SqliteRepairStore
  | .job id =>
    match e.loadError with
    | some error => (.error error, s)
    | none => (.ok (s.job id), s)
  | .apply id t u =>
    match e.applyError with
    | some detail => (.error (.database detail), e.race s)
    | none => (e.race s).answer e.now (.apply id t u)
  | c => s.answer e.now c

/-- The calls of an action, served. -/
def handle : (c : Call) → Outside → Option (Ans c × Outside)
  | .store c, w => some ((e.answer w.store c).1, { w with store := (e.answer w.store c).2 })
  | .client (.remove infoHash _), w =>
    some (e.removeAnswer, { w with torrents := e.remove infoHash w.torrents })
  | .staging (.discard dir), w =>
    some (e.discardAnswer, { w with staged := e.discard dir w.staged })
  | .publish _, w => some ((), w)
  | _, _ => none

end Circumstances

/-- The action returns, and when it returns an error the client and the staging area are as
    before the call. -/
def ErrorUndone (e : Circumstances) (w : Outside) (action : M (Except WebError Unit)) : Prop :=
  ∃ r w', action.exec e.handle w = some (r, w') ∧
    (isOk r = false → w'.torrents = w.torrents ∧ w'.staged = w.staged)

/-! ## What an action may lose -/

/-- The client holds the job's torrent and lets it go. -/
def LosesTorrent (e : Circumstances) (w : Outside) (job : RepairJob) : Prop :=
  ∃ infoHash, job.infoHash = some infoHash ∧ infoHash ∈ w.torrents ∧ e.removes = true

/-- Something is staged for the job, and the discard deletes it. -/
def LosesStaged (e : Circumstances) (w : Outside) (job : RepairJob) : Prop :=
  ∃ dir, job.stagingDir = some dir ∧
    ∃ path, isWithin dir path = true ∧ e.deletes path = true ∧ w.staged path ≠ none

/-- The table allows the move, the discard succeeds, and the store finds the job where it was
    loaded or already where it is to go. -/
structure Accepted (e : Circumstances) (w : Outside) (job : RepairJob) (target : RepairState)
    (reason : TransitionReason) : Prop where
  legal : objection job.state target reason job.reviewFromState = none
  discarded : job.stagingDir.isSome → isOk e.discardAnswer = true
  reachable : e.applyError = none
  found : ∃ r, (e.race w.store).jobs.get? job.id = some r ∧ (r.state = job.state ∨ r.state = target)

/-- The call loads no job, loses nothing, or goes through. -/
def Harmless (e : Circumstances) (w : Outside) (id : JobId) (target : RepairState)
    (reason : TransitionReason) : Prop :=
  ∀ job, e.loadError = none → w.store.job id = some job →
    (¬LosesTorrent e w job ∧ ¬LosesStaged e w job) ∨ Accepted e w job target reason

namespace Circumstances

variable {e : Circumstances} {w : Outside} {job : RepairJob}

/-- The client after the removal a job calls for. -/
def torrentsAfter (e : Circumstances) (w : Outside) (job : RepairJob) : Finset InfoHash :=
  match job.infoHash with
  | none => w.torrents
  | some infoHash => e.remove infoHash w.torrents

/-- The staging area after the discard a job calls for. -/
def stagedAfter (e : Circumstances) (w : Outside) (job : RepairJob) :
    SafeRelativePath → Option StagedEntry :=
  match job.stagingDir with
  | none => w.staged
  | some dir => e.discard dir w.staged

theorem torrentsAfter_eq_iff : e.torrentsAfter w job = w.torrents ↔ ¬LosesTorrent e w job := by
  unfold torrentsAfter LosesTorrent remove
  cases hh : job.infoHash with
  | none => simp
  | some infoHash =>
    by_cases hr : e.removes = true
    · simp [hr]
    · simp [hr]

theorem stagedAfter_eq_iff : e.stagedAfter w job = w.staged ↔ ¬LosesStaged e w job := by
  unfold stagedAfter LosesStaged discard
  cases hd : job.stagingDir with
  | none => simp
  | some dir =>
    simp only [Option.some.injEq, exists_eq_left', not_exists, not_and, not_not, funext_iff]
    refine forall_congr' fun path => ?_
    constructor
    · intro h hwithin hdel
      rw [if_pos (by simp [hwithin, hdel])] at h
      exact h.symm
    · intro h
      split_ifs with hboth
      · rw [Bool.and_eq_true] at hboth
        exact (h hboth.1 hboth.2).symm
      · rfl

theorem exec_store {α : Type} (c : StoreCall) (f : c.Ans → M α) :
    (M.store c >>= f).exec e.handle w = (f (e.answer w.store c).1).exec e.handle
      { w with store := (e.answer w.store c).2 } := rfl

/-- The removal and the discard of an action. -/
theorem discardStaged_exec (e : Circumstances) (w : Outside) (job : RepairJob) : ∃ r, (discardStaged job).exec e.handle w = some
    (r, { w with torrents := e.torrentsAfter w job, staged := e.stagedAfter w job }) ∧
      (isOk r = true ↔ (job.stagingDir.isSome → isOk e.discardAnswer = true)) := by
  unfold discardStaged torrentsAfter stagedAfter
  cases job.infoHash <;> cases job.stagingDir <;> cases ha : e.discardAnswer <;>
    simp [handle, ha, isOk]

/-- The transition of an action, against the store the other writers left. -/
theorem applyAction_exec (e : Circumstances) (w : Outside) (job : RepairJob) (target : RepairState)
    (reason : TransitionReason) {u : TransitionUpdate} (hu : u.patch.files = none) :
    ∃ r s', (applyAction job target reason u).exec e.handle w = some (r, { w with store := s' }) ∧
      (isOk r = true ↔ objection job.state target reason job.reviewFromState = none ∧
        e.applyError = none ∧
        ∃ row, (e.race w.store).jobs.get? job.id = some row ∧
          (row.state = job.state ∨ row.state = target)) := by
  unfold applyAction RepairJob.planTransition
  cases hobj : objection job.state target reason job.reviewFromState with
  | some because =>
    rw [validateTransition_of_objection hobj]
    exact ⟨_, w.store, rfl, by simp [isOk]⟩
  | none =>
    rw [validateTransition_of_legal hobj]
    set t : Transition := ⟨job.state, target, reason, _, hobj⟩ with ht
    cases herr : e.applyError with
    | some detail => exact ⟨_, e.race w.store, by simp [handle, answer, herr]; rfl, by simp [isOk]⟩
    | none =>
      have hiff : (∃ a s', (e.race w.store).apply e.now job.id t u = .ok (a, s')) ↔ _ :=
        apply_ok_iff hu
      cases happly : (e.race w.store).apply e.now job.id t u with
      | error error =>
        refine ⟨.error (.store error), e.race w.store, ?_, ?_⟩
        · simp [handle, answer, herr, SqliteRepairStore.answer, happly, orKeep]
        · rw [happly] at hiff
          simpa [isOk] using hiff
      | ok r =>
        refine ⟨.ok (), r.2, ?_, ?_⟩
        · simp [handle, answer, herr, SqliteRepairStore.answer, happly, orKeep]
        · rw [happly] at hiff
          simpa [isOk] using hiff.1 ⟨r.1, r.2, rfl⟩

end Circumstances

open Circumstances

variable {e : Circumstances} {w : Outside} {id : JobId}

/-- When discarding a job and then moving it leaves nothing behind an error. -/
theorem discardThen_undone_iff {job : RepairJob} {target : RepairState} {reason : TransitionReason}
    {u : TransitionUpdate} (hu : u.patch.files = none) :
    ErrorUndone e w (discardThen job target reason u) ↔
      (¬LosesTorrent e w job ∧ ¬LosesStaged e w job) ∨ Accepted e w job target reason := by
  obtain ⟨r₁, hdiscard, hr₁⟩ := discardStaged_exec e w job
  rw [← torrentsAfter_eq_iff, ← stagedAfter_eq_iff]
  unfold ErrorUndone discardThen
  rw [Prog.exec_bind, hdiscard, Option.bind_some]
  cases r₁ with
  | error error =>
    have hrefused : ¬(job.stagingDir.isSome → isOk e.discardAnswer = true) := by
      rw [← hr₁]
      simp [isOk]
    constructor
    · rintro ⟨r, w', hrun, hundone⟩
      cases hrun
      exact .inl (hundone rfl)
    · rintro (hkept | haccepted)
      · exact ⟨_, _, rfl, fun _ => hkept⟩
      · exact absurd haccepted.discarded hrefused
  | ok a =>
    obtain ⟨r₂, s', happly, hr₂⟩ := applyAction_exec e
      { w with torrents := e.torrentsAfter w job, staged := e.stagedAfter w job } job target reason hu
    rw [happly]
    constructor
    · rintro ⟨r, w', hrun, hundone⟩
      cases hrun
      cases hok : isOk r₂ with
      | false => exact .inl (hundone hok)
      | true =>
        obtain ⟨hlegal, herr, hfound⟩ := hr₂.1 hok
        exact .inr ⟨hlegal, hr₁.1 rfl, herr, hfound⟩
    · rintro (hkept | haccepted)
      · exact ⟨_, _, rfl, fun _ => hkept⟩
      · refine ⟨_, _, rfl, fun hfail => ?_⟩
        rw [hr₂.2 ⟨haccepted.legal, haccepted.reachable, haccepted.found⟩] at hfail
        cases hfail

/-- The same for an action that loads its job first. -/
theorem withJob_undone_iff {target : RepairState} {reason : TransitionReason}
    {u : TransitionUpdate} (hu : u.patch.files = none) :
    ErrorUndone e w (withJob id fun job => discardThen job target reason u) ↔
      Harmless e w id target reason := by
  unfold ErrorUndone withJob Harmless
  rw [Circumstances.exec_store]
  cases he : e.loadError with
  | some error =>
    simp only [Circumstances.answer, he]
    exact ⟨fun _ job h => (by cases h), fun _ => ⟨_, _, rfl, fun _ => ⟨rfl, rfl⟩⟩⟩
  | none =>
    simp only [Circumstances.answer, he]
    cases hjob : w.store.job id with
    | none => exact ⟨fun _ job _ h => (by cases h), fun _ => ⟨_, _, rfl, fun _ => ⟨rfl, rfl⟩⟩⟩
    | some job =>
      refine (discardThen_undone_iff hu).trans ⟨fun h j _ hj => ?_, fun h => h job trivial rfl⟩
      cases hj
      exact h

/-- An error of either action leaves the client and the staging area alone exactly when the
    call was harmless. -/
theorem discarding_actions_undone_iff :
    (ErrorUndone e w (restartAction id) ↔ Harmless e w id .discovered .operatorRestart) ∧
    (ErrorUndone e w (abandonAndDiscardAction id) ↔ Harmless e w id .failed .operatorAbandon) :=
  ⟨withJob_undone_iff rfl, withJob_undone_iff rfl⟩

/-! ## A job that is already seeding -/

/-- A seeding job with its torrent in the client. -/
def seedingOutside : Outside where
  store :=
    { jobs := ⟨[{ discoveredRow ⟨1⟩ 0 ⟨⟨"tracker"⟩, ⟨"7"⟩, "show", none, 10, none⟩ with
        state := .seeding, infoHash := some ⟨Vector.replicate 20 7⟩ }], by simp⟩
      files := .empty
      transitions := []
      jobSeq := 1 }
  torrents := {⟨Vector.replicate 20 7⟩}
  staged := fun _ => none

/-- Everything answers, and nobody else writes. -/
def quiet : Circumstances where
  now := 5
  loadError := none
  removeAnswer := .ok ()
  removedAnyway := false
  discardAnswer := .ok ()
  deletedAnyway := fun _ => false
  race := fun s => s
  applyError := none

/-- A restart of a seeding job is refused after its torrent was removed. -/
theorem restart_loses_torrent : ¬ErrorUndone quiet seedingOutside (restartAction ⟨1⟩) := by
  intro h
  rcases (withJob_undone_iff rfl).1 h _ rfl rfl with ⟨hkept, -⟩ | haccepted
  · exact hkept ⟨_, rfl, by simp [seedingOutside], rfl⟩
  · cases haccepted.legal

end SeedMedic
