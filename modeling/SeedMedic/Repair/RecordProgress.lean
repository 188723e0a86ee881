/-
  The two write paths of a patch: with a transition, and without one.
-/
import SeedMedic.Repair.StoreSpec

namespace SeedMedic

open Lib

/-- A row without the columns a transition owns: the state, the review and failure fields,
    the approval a parking takes back, and the attempt bookkeeping. -/
def patchedColumns (t : Transition) (p : JobPatch) (r : JobRow) : JobRow :=
  { r with
    state := .discovered
    reviewFromState := none
    reviewReason := none
    failureReason := none
    resumeApproved :=
      if t.toState = .awaitingReview ∧ p.resumeApproved = none then false else r.resumeApproved
    attempts := 0
    nextAttemptAt := none }

/-- The progress a patch reports for a path. -/
def JobPatch.progressOf (p : JobPatch) (path : SafeRelativePath) : Option ℚ :=
  p.fileProgress.bind fun cs => SqliteRepairStore.reported cs path

namespace FileRow

/-- The row as if no recheck had reported on its file. -/
def unprogressed (r : FileRow) : FileRow := { r with recheckProgress := none }

/-- The row with the progress a patch reports for it. -/
def reportedBy (p : JobPatch) (r : FileRow) : FileRow :=
  { r with recheckProgress := p.progressOf r.torrentPath <|> r.recheckProgress }

theorem recheckProgress_reportedBy (p : JobPatch) (r : FileRow) :
    (r.reportedBy p).recheckProgress = (p.progressOf r.torrentPath <|> r.recheckProgress) := rfl

@[simp] theorem unprogressed_reportedBy (p : JobPatch) (r : FileRow) :
    (r.reportedBy p).unprogressed = r.unprogressed := rfl

@[simp] theorem unprogressed_written (id : JobId) (f : PlannedFile) :
    (writePlannedFile id f).unprogressed = writePlannedFile id f := rfl

/-- Progress that is stored already changes nothing. -/
theorem reportedBy_eq {p : JobPatch} {r : FileRow}
    (h : ∀ q, p.progressOf r.torrentPath = some q → r.recheckProgress = some q) :
    r.reportedBy p = r := by
  unfold reportedBy
  cases hq : p.progressOf r.torrentPath with
  | none => rfl
  | some q =>
    have hr := h q hq
    cases r
    cases hr
    rfl

end FileRow

namespace SqliteRepairStore

variable {s s' : SqliteRepairStore} {id : JobId} {now : Time} {st : Stamp}

/-- Two stores hold the same patched columns, file rows and per-file progress. -/
structure SamePersisted (t : Transition) (p : JobPatch) (s₁ s₂ : SqliteRepairStore) : Prop where
  jobs : s₁.jobs.rows.map (patchedColumns t p) = s₂.jobs.rows.map (patchedColumns t p)
  files : ∀ r, r ∈ s₁.files.rows ↔ r ∈ s₂.files.rows

/-- The patch brings no plan, or the stored one with distinct paths, and no progress that is
    not stored already. -/
structure PlanUnchanged (s : SqliteRepairStore) (id : JobId) (p : JobPatch) : Prop where
  nodup : ∀ files, p.files = some files → (files.map PlannedFile.torrentPath).Nodup
  plan : ∀ files, p.files = some files → ∀ r,
    r ∈ (s.fileRows id).map FileRow.unprogressed ↔ r ∈ files.map (writePlannedFile id)
  progress : ∀ r ∈ s.fileRows id,
    (∀ q, p.progressOf r.torrentPath = some q → r.recheckProgress = some q) ∧
    (p.progressOf r.torrentPath = none → p.files.isSome → r.recheckProgress = none)

/-- The rows a patch plans for a job. -/
def plannedRows (s : SqliteRepairStore) (id : JobId) (p : JobPatch) : List FileRow :=
  match p.files with
  | some files => files.map (writePlannedFile id)
  | none => s.fileRows id

theorem jobId_plannedRows {p : JobPatch} {r : FileRow} (h : r ∈ s.plannedRows id p) :
    r.jobId = id := by
  unfold plannedRows at h
  split at h
  · obtain ⟨f, -, rfl⟩ := List.mem_map.1 h
    rfl
  · exact (mem_fileRows.1 h).2

/-- The job columns of a patch come out the same on both paths. -/
theorem patchedColumns_movedRow (t : Transition) (u : TransitionUpdate) (r : JobRow) :
    patchedColumns t u.patch (movedRow id t u st r) =
      patchedColumns t u.patch (if r.id = id then patchRow u.patch st r else r) := by
  unfold movedRow
  split_ifs with hid
  · simp only [patchedColumns, patchRow, transitionRow]
    by_cases ht : t.toState = .awaitingReview
    · cases u.patch.resumeApproved <;> simp [ht]
    · simp [ht]
  · rfl

/-- The progress of a patch, on a row of the job and on any other. -/
theorem progressed_getD (p : JobPatch) (r : FileRow) :
    progressed id (p.fileProgress.getD []) r = if r.jobId = id then r.reportedBy p else r := by
  have hof : reported (p.fileProgress.getD []) r.torrentPath = p.progressOf r.torrentPath := by
    unfold JobPatch.progressOf
    cases p.fileProgress <;> rfl
  unfold progressed FileRow.reportedBy
  rw [hof]

theorem map_progressed_nil (rows : List FileRow) : rows.map (progressed id []) = rows := by
  have h : progressed id [] = fun r => r := by
    funext r
    simp only [progressed, reported, List.filter_nil, List.getLast?_nil, Option.map_none]
    split_ifs <;> rfl
  rw [h, List.map_id']

/-- The file rows after `apply`: the other jobs' as they were, this job's as planned and with
    the progress reported. -/
theorem mem_apply_files {t : Transition} {u : TransitionUpdate}
    (h : s.apply now id t u = .ok (.applied, s')) {r : FileRow} :
    r ∈ s'.files.rows ↔ (r ∈ s.files.rows ∧ r.jobId ≠ id) ∨
      ∃ b ∈ s.plannedRows id u.patch, b.reportedBy u.patch = r := by
  obtain ⟨-, -, ⟨-, -, s₁, hs₁, hs'⟩ | ⟨hc, -⟩⟩ := apply_ok h
  swap
  · cases hc
  obtain ⟨-, s₂, hplan, hrows⟩ := applyPatch_ok hs₁
  -- the rows before progress is recorded
  have hbefore : ∀ r, r ∈ s₂.files.rows ↔
      (r ∈ s.files.rows ∧ r.jobId ≠ id) ∨ r ∈ s.plannedRows id u.patch := by
    intro r
    unfold plannedRows
    cases hf : u.patch.files with
    | some files =>
      rw [hf] at hplan
      exact mem_replaceFiles hplan
    | none =>
      rw [hf] at hplan
      subst hplan
      simp only [updateJobFields_files, moveJob_files, mem_fileRows]
      tauto
  have hafter : s'.files.rows =
      s₂.files.rows.map (progressed id (u.patch.fileProgress.getD [])) := by
    rw [hs', appendTransition_files, hrows]
    cases u.patch.fileProgress with
    | some cs => rfl
    | none => exact (map_progressed_nil _).symm
  rw [hafter, List.mem_map]
  constructor
  · rintro ⟨b, hb, rfl⟩
    rw [progressed_getD]
    rcases (hbefore b).1 hb with ⟨hb, hne⟩ | hb
    · rw [if_neg hne]
      exact .inl ⟨hb, hne⟩
    · rw [if_pos (jobId_plannedRows hb)]
      exact .inr ⟨b, hb, rfl⟩
  · rintro (⟨hr, hne⟩ | ⟨b, hb, rfl⟩)
    · exact ⟨r, (hbefore r).2 (.inl ⟨hr, hne⟩), by rw [progressed_getD, if_neg hne]⟩
    · exact ⟨b, (hbefore b).2 (.inr hb), by rw [progressed_getD, if_pos (jobId_plannedRows hb)]⟩

/-- The rows of this job after `apply`. -/
theorem mem_apply_fileRows {t : Transition} {u : TransitionUpdate}
    (h : s.apply now id t u = .ok (.applied, s')) {r : FileRow} :
    r ∈ s'.fileRows id ↔ ∃ b ∈ s.plannedRows id u.patch, b.reportedBy u.patch = r := by
  rw [mem_fileRows, mem_apply_files h]
  constructor
  · rintro ⟨⟨-, hne⟩ | hb, hid⟩
    · exact absurd hid hne
    · exact hb
  · rintro ⟨b, hb, rfl⟩
    exact ⟨.inr ⟨b, hb, rfl⟩, (jobId_plannedRows hb : b.jobId = id)⟩

/-- The planned rows with the progress reported are the stored rows exactly when the patch
    leaves the plan and the progress as they are. -/
theorem reported_planned_iff {p : JobPatch}
    (hnodup : ∀ files, p.files = some files → (files.map PlannedFile.torrentPath).Nodup) :
    (∀ r, r ∈ s.fileRows id ↔ ∃ b ∈ s.plannedRows id p, b.reportedBy p = r) ↔
      s.PlanUnchanged id p := by
  unfold plannedRows
  cases hf : p.files with
  | none =>
    constructor
    · intro heq
      refine ⟨by simp [hf], by simp [hf], fun r hr => ⟨fun q hq => ?_, by simp [hf]⟩⟩
      have hin := (heq _).2 ⟨r, hr, rfl⟩
      rw [← fileRows_inj hin hr rfl, FileRow.recheckProgress_reportedBy, hq]
      rfl
    · intro hp r
      have hsame : ∀ r ∈ s.fileRows id, r.reportedBy p = r :=
        fun r hr => FileRow.reportedBy_eq (hp.progress r hr).1
      constructor
      · exact fun hr => ⟨r, hr, hsame r hr⟩
      · rintro ⟨b, hb, rfl⟩
        rwa [hsame b hb]
  | some files =>
    constructor
    · intro heq
      refine ⟨hnodup, ?_, fun r hr => ?_⟩
      · intro fs hfs r
        cases hf.symm.trans hfs
        rw [List.mem_map]
        constructor
        · rintro ⟨a, ha, rfl⟩
          obtain ⟨b, hb, rfl⟩ := (heq a).1 ha
          obtain ⟨f, -, rfl⟩ := List.mem_map.1 hb
          exact hb
        · intro hr
          obtain ⟨f, -, rfl⟩ := List.mem_map.1 hr
          exact ⟨_, (heq _).2 ⟨_, hr, rfl⟩, rfl⟩
      · obtain ⟨b, hb, rfl⟩ := (heq r).1 hr
        obtain ⟨f, -, rfl⟩ := List.mem_map.1 hb
        have hpath : ((writePlannedFile id f).reportedBy p).torrentPath = f.torrentPath := rfl
        rw [FileRow.recheckProgress_reportedBy, hpath]
        constructor
        · intro q hq
          rw [show (writePlannedFile id f).torrentPath = f.torrentPath from rfl, hq]
          rfl
        · intro hq _
          rw [show (writePlannedFile id f).torrentPath = f.torrentPath from rfl, hq]
          rfl
    · intro hp r
      have hback : ∀ a ∈ s.fileRows id, a.unprogressed.reportedBy p = a := by
        intro a ha
        obtain ⟨hsome, hnone⟩ := hp.progress a ha
        have hprog : (p.progressOf a.torrentPath <|> none) = a.recheckProgress := by
          cases hq : p.progressOf a.torrentPath with
          | none => rw [hnone hq (by simp [hf])]; rfl
          | some q => rw [hsome q hq]; rfl
        show { a with recheckProgress := (p.progressOf a.torrentPath <|> none) } = a
        rw [hprog]
      have hplan := hp.plan files hf
      constructor
      · exact fun hr => ⟨r.unprogressed, (hplan _).1 (List.mem_map_of_mem hr), hback r hr⟩
      · rintro ⟨b, hb, rfl⟩
        obtain ⟨a, ha, rfl⟩ := List.mem_map.1 ((hplan b).2 hb)
        rwa [hback a ha]

/-- When a transition's patch leaves the file rows as they are. -/
theorem apply_files_iff {t : Transition} {u : TransitionUpdate}
    (h : s.apply now id t u = .ok (.applied, s')) :
    (∀ r, r ∈ s.files.rows ↔ r ∈ s'.files.rows) ↔ s.PlanUnchanged id u.patch := by
  have hnodup : ∀ files, u.patch.files = some files →
      (files.map PlannedFile.torrentPath).Nodup := by
    obtain ⟨r, hr, ⟨-, hfrom, -⟩ | ⟨hc, -⟩⟩ := apply_ok h
    · exact (apply_applied_iff hr hfrom).1 ⟨s', h⟩
    · cases hc
  rw [← reported_planned_iff hnodup]
  constructor
  · intro heq r
    rw [← mem_apply_fileRows h, mem_fileRows, mem_fileRows, heq]
  · intro heq r
    rw [mem_apply_files h, ← heq, mem_fileRows]
    tauto

/-- Without a transition a patch is persisted as with one exactly when it leaves the stored
    plan and the stored progress as they are. -/
theorem recordProgress_iff_apply {t : Transition} {u : TransitionUpdate} {r : JobRow}
    (hr : s.jobs.get? id = some r) (hfrom : r.state = t.fromState) :
    (∃ s', s.apply now id t u = .ok (.applied, s') ∧
      SamePersisted t u.patch (s.recordProgress now id u.patch) s') ↔
    s.PlanUnchanged id u.patch := by
  constructor
  · rintro ⟨s', h, hsame⟩
    exact (apply_files_iff h).1 hsame.files
  · intro hp
    obtain ⟨s', h⟩ := (apply_applied_iff hr hfrom).2 hp.nodup
    refine ⟨s', h, ?_, (apply_files_iff h).2 hp⟩
    rw [apply_applied_jobs h, List.map_map]
    simp only [recordProgress, updateJobFields, Table.update, List.map_map]
    refine List.map_congr_left fun r _ => ?_
    simp only [Function.comp, decide_eq_true_eq, patchedColumns_movedRow]

/-! ## A parked job whose file is chosen -/

theorem validateComponent_a : validateComponent "a" = .ok () := by decide

/-- A repair of one file that waits for the operator's choice. -/
def oneParked : SqliteRepairStore where
  jobs := ⟨[{ discoveredRow ⟨1⟩ 0 ⟨⟨"tracker"⟩, ⟨"7"⟩, "show", none, 10, none⟩ with
    state := .awaitingReview, reviewFromState := some .torrentFetched }], by decide⟩
  files := ⟨[⟨⟨1⟩, .ofComponent "a" validateComponent_a, 10, none, none, none, none, none⟩],
    by decide⟩
  transitions := []
  jobSeq := 1

theorem oneParked_keyed : (oneParked.jobs.rows.map JobRow.id).Nodup := oneParked.jobs.nodup

/-- The plan with the operator's choice for the file. -/
def chosenPatch : JobPatch :=
  { JobPatch.default with
    files := some [⟨.ofComponent "a" validateComponent_a, 10, some (.ofString "/m/a"),
      some .operator, none, none, none⟩] }

/-- The row the choice should leave. -/
def chosenRow : FileRow :=
  ⟨⟨1⟩, .ofComponent "a" validateComponent_a, 10, some "/m/a", some .operator, none, none, none⟩

/-- An operator's move to the matched state. -/
def toMatched : Transition where
  fromState := .awaitingReview
  toState := .matched
  reason := .operatorChooseCandidate
  legal := ⟨some .torrentFetched, rfl⟩

/-- Without the transition the choice is not written. -/
theorem recordProgress_loses_plan :
    ¬ ∃ s', oneParked.apply 5 ⟨1⟩ toMatched ⟨none, none, chosenPatch⟩ = .ok (.applied, s') ∧
      SamePersisted toMatched chosenPatch (oneParked.recordProgress 5 ⟨1⟩ chosenPatch) s' := by
  rintro ⟨s', h, hsame⟩
  have hin : chosenRow ∈ s'.files.rows :=
    (mem_apply_files h).2 (.inr ⟨chosenRow, by decide, rfl⟩)
  exact absurd ((hsame.files _).2 hin) (by decide)

/-- Without a plan both paths write the same. -/
theorem recordProgress_apply_totalBytes :
    ∃ s', oneParked.apply 5 ⟨1⟩ toMatched ⟨none, none, { JobPatch.default with totalBytes := some 3 }⟩ =
        .ok (.applied, s') ∧
      SamePersisted toMatched { JobPatch.default with totalBytes := some 3 }
        (oneParked.recordProgress 5 ⟨1⟩ { JobPatch.default with totalBytes := some 3 }) s' :=
  (recordProgress_iff_apply (u := ⟨none, none, { JobPatch.default with totalBytes := some 3 }⟩)
    rfl rfl).2 ⟨by simp [JobPatch.default], by simp [JobPatch.default], by decide⟩

end SqliteRepairStore

end SeedMedic
