/-
  An operator resolving an ambiguous match, one file after the other.
-/
import SeedMedic.Repair.RecordProgress
import SeedMedic.Repair.Serve
import SeedMedic.Repair.Steps
import SeedMedic.Web.Review

namespace SeedMedic

open Lib SqliteRepairStore

/-- One choice: when it is made, for which file, and the place in the list offered for it. -/
structure Choice where
  now : Time
  path : SafeRelativePath
  index : ℕ

/-- The store after a sequence of choices; none when a request died. -/
def chooseAll (id : JobId) : List Choice → SqliteRepairStore → Option SqliteRepairStore
  | [], s => some s
  | c :: cs, s =>
    ((chooseCandidateAction id c.path.asStr c.index).exec (serve c.now) s).bind fun r =>
      chooseAll id cs r.2

/-- What the planner offered for a path. -/
def MatchPlan.offered (plan : MatchPlan) (path : SafeRelativePath) : List CandidateSummary :=
  match plan.unmatched.find? fun u => u.torrentPath = path with
  | some ⟨_, _, .ambiguous candidates⟩ => candidates
  | _ => []

/-- A job parked by a match that left some files ambiguous and matched the others. -/
structure ParkedAmbiguous (s : SqliteRepairStore) (id : JobId) (plan : MatchPlan) : Prop where
  parked : ∃ r, s.jobs.get? id = some r ∧ r.state = .awaitingReview ∧
    r.reviewFromState = some .torrentFetched
  /-- Fetching the torrent wrote no sources. -/
  unsourced : ∀ r ∈ s.fileRows id, r.sourcePath = none
  /-- The last parking recorded the plan. -/
  recorded : ∃ record found report detail,
    ((s.history id).reverse.find? fun r => r.reason = "review") = some record ∧
    record.detail = some detail ∧ matchDetail found plan report = some detail
  files : ((s.fileRows id).map FileRow.torrentPath).Perm
    (plan.matched.map FileMatch.torrentPath ++ plan.unmatched.map UnmatchedFile.torrentPath)
  ambiguous : ∀ u ∈ plan.unmatched, ∃ candidates, u.reason = .ambiguous candidates
  some_ambiguous : plan.unmatched ≠ []

/-- One offered candidate for each ambiguous file, in any order. -/
structure OneChoiceEach (plan : MatchPlan) (choices : List Choice) : Prop where
  perm : (choices.map Choice.path).Perm (plan.unmatched.map UnmatchedFile.torrentPath)
  offered : ∀ c ∈ choices, c.index < (plan.offered c.path).length

/-- The job is matched, with the operator's sources and the planner's. -/
structure Resolved (s : SqliteRepairStore) (id : JobId) (plan : MatchPlan) (choices : List Choice) :
    Prop where
  state : (s.job id).map RepairJob.state = some .matched
  chosen : ∀ c ∈ choices, ∃ f ∈ s.plannedFiles id, f.torrentPath = c.path ∧ f.source.isSome ∧
    f.source = (plan.offered c.path)[c.index]?.map CandidateSummary.path
  matched : ∀ m ∈ plan.matched, ∃ f ∈ s.plannedFiles id, f.torrentPath = m.torrentPath ∧
    f.source = some m.source

/-- A job that is still parked is not resolved. -/
theorem ParkedAmbiguous.not_resolved {s : SqliteRepairStore} {id : JobId} {plan : MatchPlan}
    {choices : List Choice} (h : ParkedAmbiguous s id plan) : ¬Resolved s id plan choices := by
  intro hres
  obtain ⟨r, hr, hstate, -⟩ := h.parked
  have hmatched := hres.state
  rw [SqliteRepairStore.job, hr] at hmatched
  cases hstate.symm.trans (Option.some.inj hmatched)

/-! ## What was recorded is what is offered -/

theorem mapM_find {α : Type} {f : α → Option Json} {p : Json → Bool} {q : α → Bool} :
    ∀ {xs : List α} {js : List Json}, xs.mapM f = some js →
      (∀ x j, f x = some j → p j = q x) → js.find? p = (xs.find? q).bind f
  | [], js, h, _ => by
    rw [List.mapM_nil] at h
    cases h
    rfl
  | x :: xs, js, h, hpq => by
    simp only [List.mapM_cons, bind, Option.bind_eq_some_iff, pure, Option.some.injEq] at h
    obtain ⟨j, hj, js', hjs, rfl⟩ := h
    rw [List.find?_cons, List.find?_cons, hpq x j hj]
    cases q x with
    | true => simp [hj]
    | false => exact mapM_find hjs hpq

theorem mapM_mem {α : Type} {f : α → Option Json} :
    ∀ {xs : List α} {js : List Json}, xs.mapM f = some js → ∀ x ∈ xs, ∃ j, f x = some j
  | [], _, _, x, hx => absurd hx (List.not_mem_nil)
  | y :: xs, js, h, x, hx => by
    simp only [List.mapM_cons, bind, Option.bind_eq_some_iff, pure, Option.some.injEq] at h
    obtain ⟨j, hj, js', hjs, -⟩ := h
    rcases List.mem_cons.1 hx with rfl | hx
    · exact ⟨j, hj⟩
    · exact mapM_mem hjs x hx

/-- The candidates read back from the audit trail are those the plan offers. -/
theorem ambiguousCandidates_eq {s : SqliteRepairStore} {id : JobId} {plan : MatchPlan}
    (h : ParkedAmbiguous s id plan) (path : SafeRelativePath) :
    ambiguousCandidates (s.history id) path.asStr = plan.offered path := by
  obtain ⟨record, found, report, detail, hrecord, hd, hdetail⟩ := h.recorded
  simp only [matchDetail, bind, Option.bind_eq_some_iff, pure, Option.some.injEq] at hdetail
  obtain ⟨unmatched, hunmatched, rejected, -, rfl⟩ := hdetail
  have hfind : (unmatched.find? fun e => decide ((e.get "path").bind Json.asStr = some path.asStr)) =
      (plan.unmatched.find? fun u => u.torrentPath = path).bind unmatchedJson := by
    refine mapM_find hunmatched fun u j hj => ?_
    simp only [unmatchedJson, Option.map_eq_some_iff] at hj
    obtain ⟨reason, -, rfl⟩ := hj
    have hget : (Json.obj [("path", .str u.torrentPath.asStr), ("reason", reason)]).get "path" =
        some (.str u.torrentPath.asStr) := rfl
    rw [hget, Option.bind_some, Json.asStr, decide_eq_decide, Option.some.injEq]
    exact ⟨SafeRelativePath.ext_str, fun h => h ▸ rfl⟩
  have hun : (Json.obj [("candidates", .ofNat found.candidates.length),
      ("matched", .ofNat plan.matched.length), ("unmatched", .arr unmatched),
      ("sources_failed", .arr (found.failures.map SourceFailure.toJson)),
      ("verification", .obj [("checked", .ofNat report.checks.length),
        ("rejected", .arr rejected)])]).get "unmatched" = some (.arr unmatched) := rfl
  simp only [ambiguousCandidates, hrecord, Option.bind_some, hd, hun, Json.asArray, hfind]
  unfold MatchPlan.offered
  cases hu : plan.unmatched.find? fun u => u.torrentPath = path with
  | none => rfl
  | some u =>
    obtain ⟨candidates, hreason⟩ := h.ambiguous u (List.mem_of_find?_eq_some hu)
    obtain ⟨p, len, reason⟩ := u
    subst hreason
    obtain ⟨j, hj⟩ := mapM_mem hunmatched _ (List.mem_of_find?_eq_some hu)
    rw [Option.bind_some, hj]
    simp only [unmatchedJson, Option.map_eq_some_iff] at hj
    obtain ⟨reason, hreason, rfl⟩ := hj
    have hget : (Json.obj [("path", .str p.asStr), ("reason", reason)]).get "reason" = some reason :=
      rfl
    rw [Option.bind_some, hget, Option.bind_some, UnmatchedReason.ofJson_toJson hreason]

/-! ## One choice -/

section
variable {s : SqliteRepairStore} {id : JobId} {plan : MatchPlan}

/-- The plan after a choice for one of its files. -/
theorem chooseIn_some {path : SafeRelativePath} {planned : List PlannedFile}
    (chosen : CandidateSummary) (n : ℕ) (h : path ∈ planned.map PlannedFile.torrentPath) :
    ∃ i, ∃ hi : i < planned.length, planned[i].torrentPath = path ∧
      chooseIn path chosen n planned = some (planned.modify i (choose chosen n)) := by
  unfold chooseIn
  cases hfind : planned.findIdx? fun f => f.torrentPath = path with
  | none =>
    obtain ⟨f, hf, hp⟩ := List.mem_map.1 h
    rw [List.findIdx?_eq_none_iff] at hfind
    exact absurd hp (by simpa using hfind f hf)
  | some i =>
    obtain ⟨hi, hp, -⟩ := List.findIdx?_eq_some_iff_getElem.1 hfind
    exact ⟨i, hi, by simpa using hp, rfl⟩

/-- With another file beside the chosen one, some file still has no source. -/
theorem unsourced_modify {planned : List PlannedFile} (h : ∀ f ∈ planned, f.source = none)
    {i : ℕ} (hi : i < planned.length) (hlen : planned.length ≠ 1) (g : PlannedFile → PlannedFile) :
    ((planned.modify i g).any fun f => f.source.isNone) = true := by
  -- the first file, or the second where the first is chosen
  obtain ⟨j, hj, hij⟩ : ∃ j, j < planned.length ∧ i ≠ j := by
    by_cases h0 : i = 0
    · exact ⟨1, by omega, by omega⟩
    · exact ⟨0, by omega, h0⟩
  have hj' : j < (planned.modify i g).length := by simpa using hj
  have hget : (planned.modify i g)[j] = planned[j] := by simp [hij]
  refine List.any_eq_true.2 ⟨planned[j], hget ▸ List.getElem_mem _, ?_⟩
  rw [h _ (List.getElem_mem hj)]
  rfl

theorem mem_plannedFiles {f : PlannedFile} :
    f ∈ s.plannedFiles id ↔ ∃ r ∈ s.fileRows id, readPlannedFile r = f := by
  simp [plannedFiles]

theorem length_plannedFiles : (s.plannedFiles id).length = (s.fileRows id).length := by
  simp [plannedFiles, List.length_insertionSort]

theorem paths_plannedFiles : ((s.plannedFiles id).map PlannedFile.torrentPath).Perm
    ((s.fileRows id).map FileRow.torrentPath) := by
  rw [plannedFiles, List.map_map]
  exact (List.perm_insertionSort _ _).map _

theorem ParkedAmbiguous.unsourced_planned (h : ParkedAmbiguous s id plan) :
    ∀ f ∈ s.plannedFiles id, f.source = none := by
  intro f hf
  obtain ⟨r, hr, rfl⟩ := mem_plannedFiles.1 hf
  simp [readPlannedFile, h.unsourced r hr]

/-- What the operator may choose for is in the plan. -/
theorem ParkedAmbiguous.mem_planned (h : ParkedAmbiguous s id plan) {path : SafeRelativePath}
    (hp : path ∈ plan.unmatched.map UnmatchedFile.torrentPath) :
    path ∈ (s.plannedFiles id).map PlannedFile.torrentPath :=
  paths_plannedFiles.symm.subset (h.files.symm.subset (List.mem_append_right _ hp))

/-- A choice the plan offers is found, with a path that was recorded as text. -/
theorem ParkedAmbiguous.offered_toJson (h : ParkedAmbiguous s id plan) {path : SafeRelativePath}
    {chosen : CandidateSummary} (hc : chosen ∈ plan.offered path) :
    ∃ j, chosen.toJson = some j := by
  unfold MatchPlan.offered at hc
  split at hc
  · rename_i p len candidates hu
    obtain ⟨-, found, report, detail, -, -, hdetail⟩ := h.recorded
    simp only [matchDetail, bind, Option.bind_eq_some_iff, pure, Option.some.injEq] at hdetail
    obtain ⟨unmatched, hunmatched, -⟩ := hdetail
    obtain ⟨j, hj⟩ := mapM_mem hunmatched _ (List.mem_of_find?_eq_some hu)
    simp only [unmatchedJson, UnmatchedReason.toJson, Option.map_eq_some_iff] at hj
    obtain ⟨-, ⟨cs, hcs, -⟩, -⟩ := hj
    exact mapM_mem hcs chosen hc
  · cases hc

/-- An offered choice is put into the plan, which is then kept. -/
theorem chooseCandidateAction_exec (h : ParkedAmbiguous s id plan) {path : SafeRelativePath}
    (hp : path ∈ plan.unmatched.map UnmatchedFile.torrentPath) {index : ℕ}
    (hi : index < (plan.offered path).length) (now : Time) :
    ∃ r, s.jobs.get? id = some r ∧ ∃ i, ∃ hi' : i < (s.plannedFiles id).length,
      (s.plannedFiles id)[i].torrentPath = path ∧ ∃ detail,
        (chooseCandidateAction id path.asStr index).exec (serve now) s =
          (finishChoice (readJob r) detail ((s.plannedFiles id).modify i
            (choose (plan.offered path)[index] (plan.offered path).length))).exec (serve now) s := by
  obtain ⟨r, hr, -, -⟩ := h.parked
  have hjob : s.job id = some (readJob r) := by rw [SqliteRepairStore.job, hr]; rfl
  have hid : (readJob r).id = id := (Table.get?_some hr).2
  obtain ⟨i, hi', hpath, hchoose⟩ := chooseIn_some (plan.offered path)[index]
    (plan.offered path).length (h.mem_planned hp)
  obtain ⟨j, hj⟩ := h.offered_toJson (List.getElem_mem hi)
  refine ⟨r, hr, i, hi', hpath, operatorJson "choose_candidate"
    [("torrent_path", .str path.asStr), ("chosen", j)], ?_⟩
  unfold chooseCandidateAction
  simp only [exec_store, answer, hjob, SafeRelativePath.parse_asStr, hid, ambiguousCandidates_eq h,
    List.getElem?_eq_getElem hi, hchoose, hj, M.expect_some, Prog.ret_bind]

/-- While a source is missing, a choice touches nothing but the job's time stamp. -/
theorem finishChoice_pending {r : JobRow} (hr : s.jobs.get? id = some r) (detail : Json)
    {files : List PlannedFile} (hany : (files.any fun f => f.source.isNone) = true) (now : Time) :
    ((finishChoice (readJob r) detail files).exec (serve now) s).map Prod.snd =
      some (s.recordProgress now id { JobPatch.default with files := some files }) := by
  have hid : (readJob r).id = id := (Table.get?_some hr).2
  unfold finishChoice
  rw [if_pos hany, hid]
  rfl

/-- A transition the table allows and the store applies. -/
theorem applyAction_applied {job : RepairJob} {target : RepairState} {reason : TransitionReason}
    {u : TransitionUpdate} {t : Transition} {a : Applied} {s' : SqliteRepairStore} {now : Time}
    (hplan : job.planTransition target reason = .ok t) (h : s.apply now job.id t u = .ok (a, s')) :
    (applyAction job target reason u).exec (serve now) s = some (.ok (), s') := by
  have hanswer : s.answer now (.apply job.id t u) = (.ok a, s') := by
    show s.orKeep (fun r => (r.1, r.2)) (s.apply now job.id t u) = (.ok a, s')
    rw [h, orKeep]
  unfold applyAction
  rw [hplan]
  simp only [exec_store, hanswer]
  rfl

/-- The last choice moves the job on with the plan. -/
theorem finishChoice_last {r : JobRow} (hr : s.jobs.get? id = some r)
    (hstate : r.state = .awaitingReview) (hfrom : r.reviewFromState = some .torrentFetched)
    (detail : Json) {files : List PlannedFile} (hany : (files.any fun f => f.source.isNone) = false)
    (hnodup : (files.map PlannedFile.torrentPath).Nodup) (now : Time) :
    ∃ s' t u, ((finishChoice (readJob r) detail files).exec (serve now) s).map Prod.snd = some s' ∧
      s.apply now id t u = .ok (.applied, s') ∧ t.toState = .matched ∧ u.patch.files = some files ∧
      u.patch.fileProgress = none := by
  have hid : (readJob r).id = id := (Table.get?_some hr).2
  have hlegal : objection (readJob r).state .matched .operatorChooseCandidate
      (readJob r).reviewFromState = none := by
    show objection r.state .matched .operatorChooseCandidate r.reviewFromState = none
    rw [hstate, hfrom]
    rfl
  have hplan : (readJob r).planTransition .matched .operatorChooseCandidate = _ :=
    validateTransition_of_legal hlegal
  set t : Transition := ⟨(readJob r).state, .matched, .operatorChooseCandidate, _, hlegal⟩
  set u : TransitionUpdate := (TransitionUpdate.withDetail detail).withPatch { JobPatch.default with
    stagingDir := some (readJob r).defaultStagingDir, files := some files } with hu
  have hiff : (∃ s', s.apply now id t u = .ok (.applied, s')) ↔ _ := apply_applied_iff hr rfl
  obtain ⟨s', hs'⟩ := hiff.2 fun fs hfs => by
    cases hfs
    exact hnodup
  refine ⟨s', t, u, ?_, hs', rfl, rfl, rfl⟩
  unfold finishChoice
  rw [if_neg (by simp [hany]), Prog.exec_bind, applyAction_applied hplan (hid ▸ hs')]
  rfl

/-- Parking a match of a job that was just fetched, with the plan as evidence. -/
theorem ParkedAmbiguous.of_review {s' : SqliteRepairStore} {now : Time} {t : Transition}
    {u : TransitionUpdate} {found : Lookup} {report : VerificationReport} {detail : Json}
    (happly : s.apply now id t u = .ok (.applied, s')) (hfrom : t.fromState = .torrentFetched)
    (hreason : t.reason = .review .ambiguousMatch) (hpatch : u.patch = .default)
    (hdetail : u.detail = some detail) (hmatch : matchDetail found plan report = some detail)
    (hrows : ∀ r ∈ s.fileRows id, r.sourcePath = none)
    (hfiles : ((s.fileRows id).map FileRow.torrentPath).Perm
      (plan.matched.map FileMatch.torrentPath ++ plan.unmatched.map UnmatchedFile.torrentPath))
    (hambiguous : ∀ u ∈ plan.unmatched, ∃ candidates, u.reason = .ambiguous candidates)
    (hsome : plan.unmatched ≠ []) : ParkedAmbiguous s' id plan := by
  have hto : t.toState = .awaitingReview := by
    have hcases := t.cases_reason
    rw [hreason] at hcases
    simp only [TransitionReason.review.injEq, reduceCtorEq, false_and, false_or, or_false,
      exists_eq_left'] at hcases
    exact hcases.2
  have hget := apply_applied_get happly id
  obtain ⟨r, hr, ⟨-, -, s₁, hs₁, rfl⟩ | ⟨hc, -⟩⟩ := apply_ok happly
  swap
  · cases hc
  rw [hpatch] at hs₁
  cases hs₁
  refine ⟨⟨_, hget.trans (by rw [hr]; rfl), ?_, ?_⟩, hrows, ?_, hfiles, hambiguous, hsome⟩
  · simp [movedRow, (Table.get?_some hr).2, hto]
  · simp [movedRow, (Table.get?_some hr).2, hpatch, JobPatch.default, patchRow, transitionRow, hto,
      hfrom]
  · refine ⟨readTransition ⟨id, t.fromState, t.toState, t.reason.asStr, u.detail, timestamp now⟩,
      found, report, detail, ?_, hdetail, hmatch⟩
    simp [history, appendTransition, moveJob, updateJobFields, readTransition, hreason,
      TransitionReason.asStr]

/-! ## Any number of choices -/

/-- A job that only had its progress recorded is still parked with the same plan. -/
theorem ParkedAmbiguous.recordProgress (h : ParkedAmbiguous s id plan) (now : Time)
    (patch : JobPatch) : ParkedAmbiguous (s.recordProgress now id patch) id plan where
  parked := by
    obtain ⟨r, hr, hstate, hfrom⟩ := h.parked
    refine ⟨patchRow patch (timestamp now) r, ?_, hstate, hfrom⟩
    have hid : r.id = id := (Table.get?_some hr).2
    rw [SqliteRepairStore.recordProgress, updateJobFields_get, hr, Option.map_some, if_pos hid]
  unsourced := h.unsourced
  recorded := h.recorded
  files := h.files
  ambiguous := h.ambiguous
  some_ambiguous := h.some_ambiguous

/-- With two files or more every choice is taken, and none changes the plan. -/
theorem chooseAll_pending (hlen : (s.fileRows id).length ≠ 1) (h : ParkedAmbiguous s id plan)
    (choices : List Choice) (hc : ∀ c ∈ choices,
      c.path ∈ plan.unmatched.map UnmatchedFile.torrentPath ∧ c.index < (plan.offered c.path).length) :
    ∃ s', chooseAll id choices s = some s' ∧ ParkedAmbiguous s' id plan := by
  induction choices generalizing s with
  | nil => exact ⟨s, rfl, h⟩
  | cons c cs ih =>
    obtain ⟨hpath, hindex⟩ := hc c (List.mem_cons_self ..)
    obtain ⟨r, hr, i, hi, -, detail, hexec⟩ := chooseCandidateAction_exec h hpath hindex c.now
    have hany := unsourced_modify h.unsourced_planned hi (length_plannedFiles ▸ hlen)
      (choose (plan.offered c.path)[c.index] (plan.offered c.path).length)
    have hpending := finishChoice_pending hr detail hany c.now
    rw [← hexec, Option.map_eq_some_iff] at hpending
    obtain ⟨⟨a, s₁⟩, hrun, hs₁⟩ := hpending
    cases hs₁
    rw [chooseAll, hrun, Option.bind_some]
    exact ih hlen (h.recordProgress c.now _) fun d hd => hc d (List.mem_cons_of_mem _ hd)

/-- A torrent of one file has nothing matched and one file to choose for. -/
theorem ParkedAmbiguous.single (h : ParkedAmbiguous s id plan) (hlen : (s.fileRows id).length = 1) :
    plan.matched = [] ∧ ∃ u, plan.unmatched = [u] := by
  have hcount := h.files.length_eq
  rw [List.length_append, List.length_map, List.length_map, List.length_map, hlen] at hcount
  have hpos := List.length_pos_iff.2 h.some_ambiguous
  exact ⟨List.length_eq_zero_iff.1 (by omega), List.length_eq_one_iff.1 (by omega)⟩

/-- The candidates of a review are recorded with paths that are text. -/
theorem ofString_of_summary {c : CandidateSummary} {j : Json} (h : c.toJson = some j) :
    ∃ text, PathBuf.ofString text = c.path := by
  unfold CandidateSummary.toJson at h
  split at h
  · rename_i hp _
    obtain ⟨text, -, htext⟩ := ofString_of_toJson hp
    exact ⟨text, htext⟩
  · cases h

/-- The one choice of a torrent of one file resolves it. -/
theorem chooseAll_single (hlen : (s.fileRows id).length = 1) (h : ParkedAmbiguous s id plan)
    {c : Choice} (hpath : c.path ∈ plan.unmatched.map UnmatchedFile.torrentPath)
    (hindex : c.index < (plan.offered c.path).length) :
    ∃ s', chooseAll id [c] s = some s' ∧ Resolved s' id plan [c] := by
  obtain ⟨r, hr, i, hi, hpi, detail, hexec⟩ := chooseCandidateAction_exec h hpath hindex c.now
  obtain ⟨r', hr', hstate, hfrom⟩ := h.parked
  cases hr.symm.trans hr'
  obtain ⟨f, hf⟩ : ∃ f, s.plannedFiles id = [f] :=
    List.length_eq_one_iff.1 (length_plannedFiles.trans hlen)
  obtain rfl : i = 0 := by
    rw [hf, List.length_singleton] at hi
    omega
  set chosen := (plan.offered c.path)[c.index] with hchosen
  set g := choose chosen (plan.offered c.path).length f with hg
  have hfiles : (s.plannedFiles id).modify 0 (choose chosen (plan.offered c.path).length) = [g] := by
    rw [hf]
    rfl
  rw [hfiles] at hexec
  obtain ⟨s', t, u, hrun, happly, ht, hu, hprogress⟩ :=
    finishChoice_last hr hstate hfrom detail (rfl : ([g].any fun f => f.source.isNone) = false)
      (List.nodup_singleton _) c.now
  rw [← hexec, Option.map_eq_some_iff] at hrun
  obtain ⟨⟨a, s₁⟩, hrun, hs₁⟩ := hrun
  obtain rfl : s₁ = s' := hs₁
  refine ⟨s₁, by rw [chooseAll, hrun]; rfl, ?_, ?_, ?_⟩
  · have hid : r.id = id := (Table.get?_some hr).2
    rw [SqliteRepairStore.job, apply_applied_get happly, hr]
    simp [movedRow, hid, readJob, ht]
  · rintro d hd
    obtain rfl := List.mem_singleton.1 hd
    -- the row the transition wrote, read back
    have hrow : writePlannedFile id g ∈ s₁.fileRows id := by
      refine (mem_apply_fileRows happly).2 ⟨writePlannedFile id g, ?_, ?_⟩
      · rw [plannedRows, hu]
        exact List.mem_singleton_self _
      · exact FileRow.reportedBy_eq (by simp [JobPatch.progressOf, hprogress])
    obtain ⟨j, hj⟩ := h.offered_toJson (List.getElem_mem hindex)
    obtain ⟨text, htext⟩ := ofString_of_summary hj
    have hsource : (readPlannedFile (writePlannedFile id g)).source = some chosen.path := by
      show some (PathBuf.ofString chosen.path.toStringLossy) = _
      rw [← htext, PathBuf.toStringLossy_ofString]
    refine ⟨_, mem_plannedFiles.2 ⟨_, hrow, rfl⟩, ?_, by rw [hsource]; rfl, ?_⟩
    · rw [← hpi]
      simp [hf, readPlannedFile, writePlannedFile, hg, choose]
    · rw [hsource, List.getElem?_eq_getElem hindex]
      rfl
  · rw [(h.single hlen).1]
    exact fun m hm => absurd hm (List.not_mem_nil)

/-- Choosing once for every ambiguous file matches the job with all the choices exactly for a
    torrent of one file. -/
theorem chooseAll_resolved_iff {choices : List Choice} (h : ParkedAmbiguous s id plan)
    (hc : OneChoiceEach plan choices) :
    (∃ s', chooseAll id choices s = some s' ∧ Resolved s' id plan choices) ↔
      (s.fileRows id).length = 1 := by
  have hmem : ∀ c ∈ choices, c.path ∈ plan.unmatched.map UnmatchedFile.torrentPath ∧
      c.index < (plan.offered c.path).length := fun c hcm =>
    ⟨hc.perm.subset (List.mem_map_of_mem hcm), hc.offered c hcm⟩
  constructor
  · rintro ⟨s', hs', hres⟩
    by_contra hlen
    obtain ⟨s'', hs'', hparked⟩ := chooseAll_pending hlen h choices hmem
    cases hs'.symm.trans hs''
    exact hparked.not_resolved hres
  · intro hlen
    obtain ⟨-, u, hu⟩ := h.single hlen
    have hone := hc.perm.length_eq
    rw [hu, List.length_map, List.length_map, List.length_singleton] at hone
    obtain ⟨c, rfl⟩ := List.length_eq_one_iff.1 hone
    obtain ⟨hpath, hindex⟩ := hmem c (List.mem_singleton_self c)
    exact chooseAll_single hlen h hpath hindex

end

/-! ## A job with one file and a job with two -/

theorem validateComponent_b : validateComponent "b" = .ok () := by decide

def fileA : SafeRelativePath := .ofComponent "a" validateComponent_a
def fileB : SafeRelativePath := .ofComponent "b" validateComponent_b

/-- A library file below one root. -/
def libraryFile (name : String) : CandidateSummary :=
  ⟨.ofString ("/m/" ++ name), .filesystem (.ofString "/m")⟩

/-- The file "a" has two candidates; "b", where there is one, has a match. -/
def ambiguousPlan (matched : List FileMatch) : MatchPlan where
  matched := matched
  unmatched := [⟨fileA, 10, .ambiguous [libraryFile "x", libraryFile "y"]⟩]

def matchB : FileMatch :=
  ⟨fileB, 20, .ofString "/m/b", .filesystem (.ofString "/m"), .probable, ⟨true, true, 1, false⟩⟩

/-- The job parked with a plan, its file rows as the fetch wrote them. -/
def parkedWith (plan : MatchPlan) (files : List PlannedFile)
    (hf : ((files.map (writePlannedFile ⟨1⟩)).map FileRow.key).Nodup) : SqliteRepairStore where
  jobs := ⟨[{ discoveredRow ⟨1⟩ 0 ⟨⟨"tracker"⟩, ⟨"7"⟩, "show", none, 10, none⟩ with
    state := .awaitingReview, reviewFromState := some .torrentFetched }],
    oneParked_keyed⟩
  files := ⟨files.map (writePlannedFile ⟨1⟩), hf⟩
  transitions := [⟨⟨1⟩, .torrentFetched, .awaitingReview, "review",
    matchDetail ⟨[], [], false⟩ plan .default, 0⟩]
  jobSeq := 1

def oneFile : SqliteRepairStore :=
  parkedWith (ambiguousPlan []) [⟨fileA, 10, none, none, none, none, none⟩] (by decide)

def twoFiles : SqliteRepairStore :=
  parkedWith (ambiguousPlan [matchB])
    [⟨fileA, 10, none, none, none, none, none⟩, ⟨fileB, 20, none, none, none, none, none⟩] (by decide)

theorem matchDetail_ambiguousPlan (matched : List FileMatch) :
    ∃ detail, matchDetail ⟨[], [], false⟩ (ambiguousPlan matched) .default = some detail := by
  simp [matchDetail, ambiguousPlan, unmatchedJson, UnmatchedReason.toJson, CandidateSummary.toJson,
    CandidateOrigin.toJson, pathToJson, libraryFile, PathBuf.toStr_ofString,
    VerificationReport.default, VerificationReport.rejected]

theorem parked_oneFile : ParkedAmbiguous oneFile ⟨1⟩ (ambiguousPlan []) where
  parked := ⟨_, rfl, rfl, rfl⟩
  unsourced := by decide
  recorded := by
    obtain ⟨detail, h⟩ := matchDetail_ambiguousPlan []
    exact ⟨_, _, _, detail, rfl, h, h⟩
  files := by decide
  ambiguous := by simp [ambiguousPlan]
  some_ambiguous := by simp [ambiguousPlan]

theorem parked_twoFiles : ParkedAmbiguous twoFiles ⟨1⟩ (ambiguousPlan [matchB]) where
  parked := ⟨_, rfl, rfl, rfl⟩
  unsourced := by decide
  recorded := by
    obtain ⟨detail, h⟩ := matchDetail_ambiguousPlan [matchB]
    exact ⟨_, _, _, detail, rfl, h, h⟩
  files := by decide
  ambiguous := by simp [ambiguousPlan]
  some_ambiguous := by simp [ambiguousPlan]

theorem oneChoiceEach_ambiguousPlan (matched : List FileMatch) :
    OneChoiceEach (ambiguousPlan matched) [⟨5, fileA, 1⟩] where
  perm := by simp [ambiguousPlan]
  offered := by simp [ambiguousPlan, MatchPlan.offered]

/-- A torrent of two files, one of them matched, stays parked when the other is chosen. -/
theorem two_files_unresolved : ParkedAmbiguous twoFiles ⟨1⟩ (ambiguousPlan [matchB]) ∧
    OneChoiceEach (ambiguousPlan [matchB]) [⟨5, fileA, 1⟩] ∧
    ¬ ∃ s', chooseAll ⟨1⟩ [⟨5, fileA, 1⟩] twoFiles = some s' ∧
      Resolved s' ⟨1⟩ (ambiguousPlan [matchB]) [⟨5, fileA, 1⟩] := by
  refine ⟨parked_twoFiles, oneChoiceEach_ambiguousPlan _, ?_⟩
  rintro ⟨s', hs', hres⟩
  obtain ⟨s'', hs'', hparked⟩ := chooseAll_pending (by decide) parked_twoFiles [⟨5, fileA, 1⟩]
    (by simp [ambiguousPlan, MatchPlan.offered])
  cases hs'.symm.trans hs''
  exact hparked.not_resolved hres

/-- A torrent of one file is resolved by its one choice. -/
theorem one_file_resolved : ∃ s', chooseAll ⟨1⟩ [⟨5, fileA, 1⟩] oneFile = some s' ∧
    Resolved s' ⟨1⟩ (ambiguousPlan []) [⟨5, fileA, 1⟩] :=
  (chooseAll_resolved_iff parked_oneFile (oneChoiceEach_ambiguousPlan [])).2 (by decide)

end SeedMedic
