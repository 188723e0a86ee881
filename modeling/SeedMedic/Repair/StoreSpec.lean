/-
  What each statement of the store does to the rows: one lemma for each operation.
-/
import SeedMedic.Repair.Store

namespace SeedMedic

open Lib

namespace SqliteRepairStore

variable {s s' : SqliteRepairStore} {id : JobId} {now : Time} {st : Stamp}

/-! ## The tables an operation leaves alone -/

@[simp] theorem updateJobFields_files (p : JobPatch) :
    (s.updateJobFields id p st).files = s.files := rfl

@[simp] theorem moveJob_files (t : Transition) (f : Option String) :
    (s.moveJob id t f st).files = s.files := rfl

@[simp] theorem appendTransition_jobs (row : TransitionRow) :
    (s.appendTransition row).jobs = s.jobs := rfl

@[simp] theorem appendTransition_files (row : TransitionRow) :
    (s.appendTransition row).files = s.files := rfl

/-- Writing the files of a job leaves the jobs and the audit trail alone. -/
structure FilesOnly (s s' : SqliteRepairStore) : Prop where
  jobs : s'.jobs = s.jobs
  transitions : s'.transitions = s.transitions

theorem FilesOnly.trans {s₁ s₂ s₃ : SqliteRepairStore} (h : FilesOnly s₁ s₂) (h' : FilesOnly s₂ s₃) :
    FilesOnly s₁ s₃ := ⟨h'.jobs.trans h.jobs, h'.transitions.trans h.transitions⟩

theorem filesOnly_setProgress (c : FileCompleteness) : FilesOnly s (s.setProgress id c) := ⟨rfl, rfl⟩

theorem filesOnly_deleteFiles : FilesOnly s (s.deleteFiles id) := ⟨rfl, rfl⟩

theorem filesOnly_insertFile {f : PlannedFile} (h : s.insertFile id f = .ok s') : FilesOnly s s' := by
  unfold insertFile at h
  split at h <;> cases h
  exact ⟨rfl, rfl⟩

theorem filesOnly_insertFiles {files : List PlannedFile} :
    ∀ {s : SqliteRepairStore}, files.foldlM (fun s f => s.insertFile id f) s = .ok s' →
      FilesOnly s s' := by
  induction files with
  | nil => rintro s h; cases h; exact ⟨rfl, rfl⟩
  | cons f files ih =>
    intro s h
    rw [List.foldlM_cons] at h
    cases hf : s.insertFile id f with
    | error e => rw [hf] at h; cases h
    | ok s₁ =>
      rw [hf] at h
      exact (filesOnly_insertFile hf).trans (ih h)

theorem filesOnly_foldl_setProgress (cs : List FileCompleteness) :
    ∀ s : SqliteRepairStore, FilesOnly s (cs.foldl (fun s c => s.setProgress id c) s) := by
  induction cs with
  | nil => intro s; exact ⟨rfl, rfl⟩
  | cons c cs ih => intro s; exact (filesOnly_setProgress c).trans (ih _)

/-! ## The file rows -/

theorem mem_fileRows {r : FileRow} : r ∈ s.fileRows id ↔ r ∈ s.files.rows ∧ r.jobId = id := by
  simp [fileRows]

/-- The paths of a job's rows are distinct. -/
theorem nodup_fileRows (s : SqliteRepairStore) (id : JobId) :
    ((s.fileRows id).map FileRow.torrentPath).Nodup := by
  have h : ((s.fileRows id).map FileRow.key).Nodup :=
    s.files.nodup.sublist (List.filter_sublist.map _)
  refine (List.nodup_map_iff_inj_on (List.Nodup.of_map _ h)).2 fun a ha b hb hab => ?_
  refine List.inj_on_of_nodup_map h ha hb (Prod.ext ?_ hab)
  exact (mem_fileRows.1 ha).2.trans (mem_fileRows.1 hb).2.symm

/-- Rows of one job agree when their paths do. -/
theorem fileRows_inj {a b : FileRow} (ha : a ∈ s.fileRows id) (hb : b ∈ s.fileRows id)
    (h : a.torrentPath = b.torrentPath) : a = b :=
  List.inj_on_of_nodup_map (nodup_fileRows s id) ha hb h

theorem mem_deleteFiles {r : FileRow} :
    r ∈ (s.deleteFiles id).files.rows ↔ r ∈ s.files.rows ∧ r.jobId ≠ id := by
  simp [deleteFiles, Table.delete]

/-- A file goes in exactly when its path is free. -/
theorem insertFile_ok_iff {f : PlannedFile} :
    (∃ s', s.insertFile id f = .ok s') ↔ f.torrentPath ∉ (s.fileRows id).map FileRow.torrentPath := by
  have hkey : (writePlannedFile id f).key ∈ s.files.rows.map FileRow.key ↔
      f.torrentPath ∈ (s.fileRows id).map FileRow.torrentPath := by
    simp only [List.mem_map, mem_fileRows, FileRow.key, writePlannedFile, Prod.mk.injEq]
    constructor
    · rintro ⟨r, hr, hid, hp⟩; exact ⟨r, ⟨hr, hid⟩, hp⟩
    · rintro ⟨r, ⟨hr, hid⟩, hp⟩; exact ⟨r, hr, hid, hp⟩
  unfold insertFile Table.insert?
  rw [← hkey]
  split_ifs with h <;> simp [h]

theorem insertFile_rows {f : PlannedFile} (h : s.insertFile id f = .ok s') :
    s'.files.rows = s.files.rows ++ [writePlannedFile id f] := by
  unfold insertFile Table.insert? at h
  split_ifs at h
  cases h
  rfl

/-- A plan goes in exactly when its paths are distinct and free. -/
theorem foldlM_insertFile_ok {files : List PlannedFile} :
    ∀ {s : SqliteRepairStore}, (∃ s', files.foldlM (fun s f => s.insertFile id f) s = .ok s') ↔
      (files.map PlannedFile.torrentPath).Nodup ∧
        ∀ f ∈ files, f.torrentPath ∉ (s.fileRows id).map FileRow.torrentPath := by
  induction files with
  | nil => intro s; simp only [List.foldlM_nil]; exact ⟨fun _ => by simp, fun _ => ⟨s, rfl⟩⟩
  | cons f files ih =>
    intro s
    rw [List.foldlM_cons]
    have hf : (∃ s', s.insertFile id f = .ok s') ↔
        f.torrentPath ∉ (s.fileRows id).map FileRow.torrentPath := insertFile_ok_iff
    cases hi : s.insertFile id f with
    | error e =>
      rw [hi] at hf
      constructor
      · rintro ⟨s', h⟩; cases h
      · rintro ⟨-, h⟩
        obtain ⟨s', hs'⟩ := hf.2 (h f (List.mem_cons_self ..))
        cases hs'
    | ok s₁ =>
      have hfree := hf.1 ⟨s₁, hi⟩
      have hrows : s₁.fileRows id = s.fileRows id ++ [writePlannedFile id f] := by
        simp [fileRows, insertFile_rows hi, writePlannedFile]
      refine (ih (s := s₁)).trans ?_
      rw [hrows]
      simp only [List.map_cons, List.nodup_cons, List.map_append, List.mem_append,
        List.map_nil, List.mem_singleton, writePlannedFile, List.forall_mem_cons, not_or]
      constructor
      · rintro ⟨hn, h⟩
        refine ⟨⟨fun hm => ?_, hn⟩, hfree, fun g hg => (h g hg).1⟩
        obtain ⟨g, hg, he⟩ := List.mem_map.1 hm
        exact (h g hg).2 he
      · rintro ⟨⟨hm, hn⟩, -, h⟩
        exact ⟨hn, fun g hg => ⟨h g hg, fun he => hm (he ▸ List.mem_map_of_mem hg)⟩⟩

theorem foldlM_insertFile_rows {files : List PlannedFile} :
    ∀ {s : SqliteRepairStore}, files.foldlM (fun s f => s.insertFile id f) s = .ok s' →
      s'.files.rows = s.files.rows ++ files.map (writePlannedFile id) := by
  induction files with
  | nil => rintro s h; cases h; simp
  | cons f files ih =>
    intro s h
    rw [List.foldlM_cons] at h
    cases hf : s.insertFile id f with
    | error e => rw [hf] at h; cases h
    | ok s₁ =>
      rw [hf] at h
      rw [ih h, insertFile_rows hf, List.map_cons, List.append_assoc, List.singleton_append]

/-- A plan is replaced exactly when the new paths are distinct. -/
theorem replaceFiles_ok {files : List PlannedFile} :
    (∃ s', s.replaceFiles id files = .ok s') ↔ (files.map PlannedFile.torrentPath).Nodup := by
  have hempty : (s.deleteFiles id).fileRows id = [] := by
    simp only [fileRows, List.filter_eq_nil_iff, decide_eq_true_eq]
    exact fun r hr => (mem_deleteFiles.1 hr).2
  unfold replaceFiles
  rw [foldlM_insertFile_ok, hempty]
  simp

theorem filesOnly_replaceFiles {files : List PlannedFile} (h : s.replaceFiles id files = .ok s') :
    FilesOnly s s' := filesOnly_deleteFiles.trans (filesOnly_insertFiles h)

/-- The rows after a replacement: the other jobs' as they were, this job's as planned. -/
theorem mem_replaceFiles {files : List PlannedFile} (h : s.replaceFiles id files = .ok s')
    {r : FileRow} : r ∈ s'.files.rows ↔
      (r ∈ s.files.rows ∧ r.jobId ≠ id) ∨ r ∈ files.map (writePlannedFile id) := by
  rw [foldlM_insertFile_rows h, List.mem_append, mem_deleteFiles]

theorem fileRows_replaceFiles {files : List PlannedFile} (h : s.replaceFiles id files = .ok s') :
    s'.fileRows id = files.map (writePlannedFile id) := by
  have hempty : (s.deleteFiles id).files.rows.filter (fun r => decide (r.jobId = id)) = [] := by
    simp only [List.filter_eq_nil_iff, decide_eq_true_eq]
    exact fun r hr => (mem_deleteFiles.1 hr).2
  rw [fileRows, foldlM_insertFile_rows h, List.filter_append, hempty, List.nil_append,
    List.filter_eq_self]
  rintro r hr
  obtain ⟨f, -, rfl⟩ := List.mem_map.1 hr
  simp [writePlannedFile]

/-! ## Per-file progress -/

/-- The last progress reported for a path. -/
def reported (cs : List FileCompleteness) (path : SafeRelativePath) : Option ℚ :=
  (cs.filter fun c => c.torrentPath = path).getLast?.map FileCompleteness.ratio

/-- A row with the progress reported for it. -/
def progressed (id : JobId) (cs : List FileCompleteness) (r : FileRow) : FileRow :=
  if r.jobId = id then { r with recheckProgress := reported cs r.torrentPath <|> r.recheckProgress }
  else r

theorem reported_cons (c : FileCompleteness) (cs : List FileCompleteness) (path : SafeRelativePath) :
    reported (c :: cs) path =
      (reported cs path <|> if c.torrentPath = path then some c.ratio else none) := by
  simp only [reported, List.filter_cons]
  by_cases h : c.torrentPath = path
  · rw [if_pos (by simpa using h), if_pos h, List.getLast?_cons]
    cases (cs.filter fun c => decide (c.torrentPath = path)).getLast? <;> rfl
  · rw [if_neg (by simpa using h), if_neg h]
    cases (cs.filter fun c => decide (c.torrentPath = path)).getLast? <;> rfl

/-- Recording progress touches the rows it names, each with the last value reported. -/
theorem foldl_setProgress_rows (cs : List FileCompleteness) :
    ∀ s : SqliteRepairStore, (cs.foldl (fun s c => s.setProgress id c) s).files.rows =
      s.files.rows.map (progressed id cs) := by
  induction cs with
  | nil =>
    intro s
    have h : progressed id [] = fun r => r := by
      funext r
      simp only [progressed, reported, List.filter_nil, List.getLast?_nil, Option.map_none]
      split_ifs <;> rfl
    rw [List.foldl_nil, h, List.map_id']
  | cons c cs ih =>
    intro s
    rw [List.foldl_cons, ih]
    simp only [setProgress, Table.update, List.map_map]
    refine List.map_congr_left fun r _ => ?_
    simp only [Function.comp, decide_eq_true_eq]
    by_cases hid : r.jobId = id
    · by_cases hp : r.torrentPath = c.torrentPath
      · simp only [progressed, hid, hp, reported_cons, and_self, if_true]
        cases reported cs c.torrentPath <;> rfl
      · simp only [progressed, hid, hp, and_false, if_false, if_true, reported_cons,
          if_neg (Ne.symm hp)]
        cases reported cs r.torrentPath <;> rfl
    · simp [progressed, hid]

/-! ## Patches and transitions -/

/-- What a patch does: the columns it names, then the plan, then the progress. -/
theorem applyPatch_ok {p : JobPatch} (h : s.applyPatch id p st = .ok s') :
    FilesOnly (s.updateJobFields id p st) s' ∧
    ∃ s₁ : SqliteRepairStore,
      (match p.files with
        | some files => (s.updateJobFields id p st).replaceFiles id files = .ok s₁
        | none => s₁ = s.updateJobFields id p st) ∧
      s'.files.rows = match p.fileProgress with
        | some cs => s₁.files.rows.map (progressed id cs)
        | none => s₁.files.rows := by
  unfold applyPatch at h
  have hfin : ∀ s₁ : SqliteRepairStore,
      (match p.fileProgress with
        | some progress => pure (progress.foldl (fun s c => s.setProgress id c) s₁)
        | none => pure s₁ : Except StoreError SqliteRepairStore) = .ok s' →
      FilesOnly s₁ s' ∧ s'.files.rows = match p.fileProgress with
        | some cs => s₁.files.rows.map (progressed id cs)
        | none => s₁.files.rows := by
    intro s₁ h₁
    cases hp : p.fileProgress with
    | none => rw [hp] at h₁; cases h₁; exact ⟨⟨rfl, rfl⟩, rfl⟩
    | some cs =>
      rw [hp] at h₁
      cases h₁
      exact ⟨filesOnly_foldl_setProgress cs s₁, foldl_setProgress_rows cs s₁⟩
  cases hf : p.files with
  | none =>
    rw [hf] at h
    obtain ⟨hj, hr⟩ := hfin _ h
    exact ⟨hj, _, rfl, hr⟩
  | some files =>
    rw [hf] at h
    cases hrep : (s.updateJobFields id p st).replaceFiles id files with
    | error e => simp only [hrep] at h; cases h
    | ok s₁ =>
      simp only [hrep] at h
      obtain ⟨hj, hr⟩ := hfin _ h
      exact ⟨(filesOnly_replaceFiles hrep).trans hj, s₁, hrep, hr⟩

/-- A patch is refused only for a plan that names a path twice. -/
theorem applyPatch_ok_iff {p : JobPatch} : (∃ s', s.applyPatch id p st = .ok s') ↔
    ∀ files, p.files = some files → (files.map PlannedFile.torrentPath).Nodup := by
  have hfin : ∀ s₁ : SqliteRepairStore, ∃ s',
      (match p.fileProgress with
        | some progress => pure (progress.foldl (fun s c => s.setProgress id c) s₁)
        | none => pure s₁ : Except StoreError SqliteRepairStore) = .ok s' := by
    intro s₁
    cases p.fileProgress with
    | none => exact ⟨_, rfl⟩
    | some cs => exact ⟨_, rfl⟩
  unfold applyPatch
  cases hf : p.files with
  | none => exact ⟨fun _ _ h => (by cases h), fun _ => hfin _⟩
  | some files =>
    have hok : (∃ s', (s.updateJobFields id p st).replaceFiles id files = .ok s') ↔ _ :=
      replaceFiles_ok
    cases hrep : (s.updateJobFields id p st).replaceFiles id files with
    | error e =>
      simp only [hrep]
      constructor
      · rintro ⟨s', h⟩; cases h
      · intro h
        obtain ⟨s', hs'⟩ := hok.2 (h files rfl)
        rw [hrep] at hs'
        cases hs'
    | ok s₁ =>
      simp only [hrep]
      refine ⟨fun _ fs h => ?_, fun _ => hfin s₁⟩
      cases h
      exact hok.1 ⟨s₁, hrep⟩

/-- Everything `apply` can do when it does not refuse. -/
theorem apply_ok {t : Transition} {u : TransitionUpdate} {a : Applied}
    (h : s.apply now id t u = .ok (a, s')) :
    ∃ r, s.jobs.get? id = some r ∧
      ((a = .applied ∧ r.state = t.fromState ∧
          ∃ s₁, (s.moveJob id t u.failureReason (timestamp now)).applyPatch id u.patch (timestamp now) = .ok s₁ ∧
            s' = s₁.appendTransition
              ⟨id, t.fromState, t.toState, t.reason.asStr, u.detail, timestamp now⟩) ∨
        (a = .alreadyInTargetState ∧ r.state = t.toState ∧ r.state ≠ t.fromState ∧ s' = s)) := by
  unfold apply at h
  cases hr : s.jobs.get? id with
  | none => rw [hr] at h; cases h
  | some r =>
    simp only [hr] at h
    refine ⟨r, rfl, ?_⟩
    split_ifs at h with hfrom hto
    · cases hp : (s.moveJob id t u.failureReason (timestamp now)).applyPatch id u.patch (timestamp now) with
      | error e => simp only [hp] at h; cases h
      | ok s₁ =>
        simp only [hp] at h
        cases h
        exact .inl ⟨rfl, hfrom, s₁, rfl, rfl⟩
    · cases h
      exact .inr ⟨rfl, hto, hfrom, rfl⟩

/-- A job in the state a transition leaves is moved, unless the plan names a path twice. -/
theorem apply_applied_iff {t : Transition} {u : TransitionUpdate} {r : JobRow}
    (hr : s.jobs.get? id = some r) (hfrom : r.state = t.fromState) :
    (∃ s', s.apply now id t u = .ok (.applied, s')) ↔
      ∀ files, u.patch.files = some files → (files.map PlannedFile.torrentPath).Nodup := by
  rw [← applyPatch_ok_iff (s := s.moveJob id t u.failureReason (timestamp now))]
  unfold apply
  simp only [hr, if_pos hfrom]
  cases hp : (s.moveJob id t u.failureReason (timestamp now)).applyPatch id u.patch (timestamp now) with
  | error e =>
    constructor
    · rintro ⟨s', h⟩; cases h
    · rintro ⟨s', h⟩; cases h
  | ok s₁ => exact ⟨fun _ => ⟨s₁, rfl⟩, fun _ => ⟨_, rfl⟩⟩

/-- A transition without a plan goes through exactly when the job is found where it leaves or
    where it leads. -/
theorem apply_ok_iff {t : Transition} {u : TransitionUpdate} (hu : u.patch.files = none) :
    (∃ a s', s.apply now id t u = .ok (a, s')) ↔
      ∃ r, s.jobs.get? id = some r ∧ (r.state = t.fromState ∨ r.state = t.toState) := by
  constructor
  · rintro ⟨a, s', h⟩
    obtain ⟨r, hr, ⟨-, hfrom, -⟩ | ⟨-, hto, -⟩⟩ := apply_ok h
    · exact ⟨r, hr, .inl hfrom⟩
    · exact ⟨r, hr, .inr hto⟩
  · rintro ⟨r, hr, hstate⟩
    by_cases hfrom : r.state = t.fromState
    · have hiff : (∃ s', s.apply now id t u = .ok (.applied, s')) ↔ _ := apply_applied_iff hr hfrom
      obtain ⟨s', h⟩ := hiff.2 (by simp [hu])
      exact ⟨_, s', h⟩
    · refine ⟨.alreadyInTargetState, s, ?_⟩
      unfold apply
      simp only [hr, if_neg hfrom, if_pos (hstate.resolve_left hfrom)]

/-- A row after a transition was applied to `id`. -/
def movedRow (id : JobId) (t : Transition) (u : TransitionUpdate) (now : Stamp) (r : JobRow) :
    JobRow :=
  if r.id = id then patchRow u.patch now (transitionRow t u.failureReason now r) else r

/-- The rows after a transition was applied. -/
theorem apply_applied_jobs {t : Transition} {u : TransitionUpdate}
    (h : s.apply now id t u = .ok (.applied, s')) :
    s'.jobs.rows = s.jobs.rows.map (movedRow id t u (timestamp now)) := by
  obtain ⟨r₀, hr₀, ⟨-, hfrom, s₁, hs₁, rfl⟩ | ⟨hc, -⟩⟩ := apply_ok h
  · rw [appendTransition_jobs, (applyPatch_ok hs₁).1.jobs]
    simp only [updateJobFields, moveJob, Table.update, List.map_map]
    refine List.map_congr_left fun r hr => ?_
    simp only [Function.comp, decide_eq_true_eq, movedRow]
    by_cases hid : r.id = id
    · have hr0 : r = r₀ := by
        have := Table.get?_eq_some hr
        rw [hid, hr₀] at this
        exact (Option.some.inj this).symm
      subst hr0
      simp [hid, hfrom]
    · simp [hid]
  · cases hc

/-- The audit row a transition leaves. -/
theorem apply_applied_transitions {t : Transition} {u : TransitionUpdate}
    (h : s.apply now id t u = .ok (.applied, s')) :
    s'.transitions = s.transitions ++
      [⟨id, t.fromState, t.toState, t.reason.asStr, u.detail, timestamp now⟩] := by
  obtain ⟨r, hr, ⟨-, -, s₁, hs₁, rfl⟩ | ⟨hc, -⟩⟩ := apply_ok h
  · rw [appendTransition, (applyPatch_ok hs₁).1.transitions]
    rfl
  · cases hc

theorem get?_of_rows_map {f : JobRow → JobRow} (hf : ∀ r, (f r).id = r.id)
    (h : s'.jobs.rows = s.jobs.rows.map f) (k : JobId) :
    s'.jobs.get? k = (s.jobs.get? k).map f := by
  simp only [Table.get?, h, List.find?_map]
  congr 1
  exact congrArg (fun q => s.jobs.rows.find? q) (funext fun r => by simp [hf])

theorem movedRow_id (t : Transition) (u : TransitionUpdate) (r : JobRow) :
    (movedRow id t u st r).id = r.id := by
  unfold movedRow
  split_ifs <;> rfl

/-- What a patch does to one row. -/
theorem updateJobFields_get (p : JobPatch) (k : JobId) : (s.updateJobFields id p st).jobs.get? k =
    (s.jobs.get? k).map fun r => if r.id = id then patchRow p st r else r :=
  get?_of_rows_map (fun r => by split_ifs <;> rfl) (by simp [updateJobFields, Table.update]) k

/-- What moving a resume point does to one row. -/
theorem moveResumePoint_get (state : RepairState) (k : JobId) :
    (s.moveResumePoint st id state).jobs.get? k = (s.jobs.get? k).map fun r =>
      if r.id = id then { r with reviewFromState := some state, updatedAt := st } else r :=
  get?_of_rows_map (fun r => by split_ifs <;> rfl) (by simp [moveResumePoint, Table.update]) k

/-- What `apply` does to one row. -/
theorem apply_applied_get {t : Transition} {u : TransitionUpdate}
    (h : s.apply now id t u = .ok (.applied, s')) (k : JobId) :
    s'.jobs.get? k = (s.jobs.get? k).map (movedRow id t u (timestamp now)) :=
  get?_of_rows_map (movedRow_id t u) (apply_applied_jobs h) k

/-- A transition without a plan or progress leaves the files alone. -/
theorem apply_applied_files {t : Transition}
    {u : TransitionUpdate} (h : s.apply now id t u = .ok (.applied, s'))
    (hfiles : u.patch.files = none) (hprogress : u.patch.fileProgress = none) :
    s'.files = s.files := by
  obtain ⟨r, -, ⟨-, -, s₁, hs₁, rfl⟩ | ⟨hc, -⟩⟩ := apply_ok h
  · obtain ⟨-, s₂, hs₂, hrows⟩ := applyPatch_ok hs₁
    rw [hfiles] at hs₂
    rw [hprogress] at hrows
    subst hs₂
    exact Table.ext_rows hrows
  · cases hc

/-- A row of a plan after a transition was applied to `id`: a path of the plan it writes, or one
    the job had. -/
theorem apply_applied_fileRows {t : Transition} {u : TransitionUpdate}
    (h : s.apply now id t u = .ok (.applied, s')) {k : JobId} {r' : FileRow} (hr' : r' ∈ s'.fileRows k) :
    (k = id ∧ ∃ files, u.patch.files = some files ∧ ∃ f ∈ files, f.torrentPath = r'.torrentPath) ∨
      (k = id → u.patch.files = none) ∧ ∃ r ∈ s.fileRows k, r.torrentPath = r'.torrentPath := by
  obtain ⟨-, -, ⟨-, -, s₁, hs₁, rfl⟩ | ⟨hc, -⟩⟩ := apply_ok h
  · obtain ⟨-, s₂, hs₂, hrows⟩ := applyPatch_ok hs₁
    obtain ⟨hmem, rfl⟩ := mem_fileRows.1 hr'
    -- progress is recorded on rows that are there
    have hrow : ∃ r ∈ s₂.files.rows, r.jobId = r'.jobId ∧ r.torrentPath = r'.torrentPath := by
      rw [appendTransition_files, hrows] at hmem
      cases hp : u.patch.fileProgress with
      | none =>
        rw [hp] at hmem
        exact ⟨r', hmem, rfl, rfl⟩
      | some cs =>
        rw [hp] at hmem
        obtain ⟨r, hr, rfl⟩ := List.mem_map.1 hmem
        refine ⟨r, hr, ?_⟩
        unfold progressed
        split_ifs <;> exact ⟨rfl, rfl⟩
    obtain ⟨r, hr, hid, hpath⟩ := hrow
    cases hf : u.patch.files with
    | none =>
      rw [hf] at hs₂
      subst hs₂
      exact .inr ⟨fun _ => rfl, r, mem_fileRows.2 ⟨hr, hid⟩, hpath⟩
    | some files =>
      rw [hf] at hs₂
      rcases (mem_replaceFiles hs₂).1 hr with ⟨hold, hne⟩ | hnew
      · exact .inr ⟨fun hk => absurd (hid.trans hk) hne, r, mem_fileRows.2 ⟨hold, hid⟩, hpath⟩
      · obtain ⟨f, hf, rfl⟩ := List.mem_map.1 hnew
        exact .inl ⟨hid.symm, files, rfl, f, hf, hpath⟩
  · cases hc

theorem job_apply {t : Transition}
    {u : TransitionUpdate} (h : s.apply now id t u = .ok (.applied, s')) (k : JobId) :
    s'.job k = (s.jobs.get? k).map fun r => readJob (movedRow id t u (timestamp now) r) := by
  rw [SqliteRepairStore.job, apply_applied_get h, Option.map_map]
  rfl

theorem job_repoint (now : Stamp) (id : JobId) (state : RepairState)
    (row : TransitionRow) (k : JobId) : ((s.moveResumePoint now id state).appendTransition row).job k =
      (s.jobs.get? k).map fun r => readJob (if r.id = id then
        { r with reviewFromState := some state, updatedAt := now } else r) := by
  rw [SqliteRepairStore.job, appendTransition_jobs, moveResumePoint_get, Option.map_map]
  rfl

/-- What correcting a resume point does: nothing, or one row moved and the audit row of it. -/
theorem setReviewResumePoint_cases {state : RepairState}
    (hok : s.setReviewResumePoint now id state = .ok s') : s' = s ∨ ∃ r previous detail,
      s.jobs.get? id = some r ∧ r.state = .awaitingReview ∧ r.reviewFromState = some previous ∧
        s' = (s.moveResumePoint (timestamp now) id state).appendTransition
          ⟨id, previous, state, "reconciliation", some detail, timestamp now⟩ := by
  unfold setReviewResumePoint at hok
  split at hok
  · cases hok
  · rename_i r hr
    split_ifs at hok with hparked
    · cases hok
      exact .inl rfl
    · split at hok
      · cases hok
      · rename_i previous hprevious
        split_ifs at hok
        · cases hok
          exact .inl rfl
        · cases hok
          exact .inr ⟨r, previous, _, hr, not_not.1 hparked, hprevious, rfl⟩

/-- The audit row a new job opens its trail with. -/
def DiscoveredRow (id : JobId) (st : Stamp) (row : TransitionRow) : Prop :=
  ∃ detail, row = ⟨id, .discovered, .discovered, "discovered", detail, st⟩

/-- What discovering a hit-and-run does: nothing, or one new row and its audit row. -/
theorem recordDiscovery_cases {h : HitAndRun} {d : Discovered}
    (hok : s.recordDiscovery now h = .ok (d, s')) : s' = s ∨ ∃ id row, s.jobs.get? id = none ∧
      s'.transitions = s.transitions ++ [row] ∧ DiscoveredRow id (timestamp now) row ∧
        ∀ k, s'.jobs.get? k =
          if id = k then some (discoveredRow id (timestamp now) h) else s.jobs.get? k := by
  unfold recordDiscovery at hok
  split at hok
  · cases hok
    exact .inl rfl
  · simp only at hok
    split at hok
    · cases hok
    · rename_i jobs hjobs
      cases hok
      exact .inr ⟨_, _, Table.free_of_insert hjobs, rfl, ⟨_, rfl⟩,
        fun k => Table.get?_insert hjobs k⟩

/-- Discovering a hit-and-run plans nothing. -/
theorem recordDiscovery_files {h : HitAndRun} {d : Discovered}
    (hok : s.recordDiscovery now h = .ok (d, s')) : s'.files = s.files := by
  unfold recordDiscovery at hok
  split at hok
  · cases hok
    rfl
  · simp only at hok
    split at hok
    · cases hok
    · cases hok
      rfl

/-! ## Jobs as the store has them -/

theorem mem_listed {job : RepairJob} {p : JobRow → Bool} {before : JobRow → JobRow → Prop} [DecidableRel before] :
    job ∈ ((s.jobs.rows.filter p).insertionSort before).map readJob ↔
      ∃ r, s.jobs.get? job.id = some r ∧ readJob r = job ∧ p r = true := by
  simp only [List.mem_map, List.mem_insertionSort, List.mem_filter]
  constructor
  · rintro ⟨r, ⟨hr, hp⟩, rfl⟩
    exact ⟨r, Table.get?_eq_some hr, rfl, hp⟩
  · rintro ⟨r, hr, rfl, hp⟩
    exact ⟨r, ⟨(Table.get?_some hr).1, hp⟩, rfl⟩

theorem nodup_listed (p : JobRow → Bool) (before : JobRow → JobRow → Prop) [DecidableRel before] :
    ((((s.jobs.rows.filter p).insertionSort before).map readJob).map RepairJob.id).Nodup := by
  have hids : ((s.jobs.rows.filter p).map JobRow.id).Nodup :=
    s.jobs.nodup.sublist (List.filter_sublist.map _)
  rw [List.map_map]
  exact ((List.perm_insertionSort _ _).map JobRow.id).nodup_iff.2 hids

theorem mem_unfinished {job : RepairJob} :
    job ∈ s.unfinished ↔ s.job job.id = some job ∧ job.state.isActionable = true := by
  unfold unfinished SqliteRepairStore.job
  rw [mem_listed]
  constructor
  · rintro ⟨r, hr, rfl, hp⟩
    exact ⟨Option.map_eq_some_iff.2 ⟨r, hr, rfl⟩, hp⟩
  · rintro ⟨hjob, hp⟩
    obtain ⟨r, hr, rfl⟩ := Option.map_eq_some_iff.1 hjob
    exact ⟨r, hr, rfl, hp⟩

theorem mem_parked {job : RepairJob} : job ∈ s.parked ↔ s.job job.id = some job ∧ job.state = .awaitingReview := by
  unfold parked SqliteRepairStore.job
  rw [mem_listed]
  constructor
  · rintro ⟨r, hr, rfl, hp⟩
    exact ⟨Option.map_eq_some_iff.2 ⟨r, hr, rfl⟩, of_decide_eq_true hp⟩
  · rintro ⟨hjob, hp⟩
    obtain ⟨r, hr, rfl⟩ := Option.map_eq_some_iff.1 hjob
    exact ⟨r, hr, rfl, decide_eq_true hp⟩

end SqliteRepairStore

end SeedMedic
