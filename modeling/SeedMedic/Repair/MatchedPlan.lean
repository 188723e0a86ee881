/-
  The plan a job is matched with: what `match_media` makes of the candidates it is offered, and what
  the store keeps of it.
-/
import SeedMedic.Library.MatchingUnion
import SeedMedic.Repair.PlanOrder

namespace SeedMedic

open Lib

/-! ## What a matching job meets -/

/-- The plan in the store, the torrent in it, and what the sources and the library say. -/
structure MatchInput where
  planned : List PlannedFile
  torrent : Except StoreError (Option (List UInt8))
  find : ℕ → CandidateQuery → Except CandidateError (List Candidate)
  hash : PathBuf → ByteRange → Option Digest

namespace MatchInput

variable (w : MatchInput) (deps : RepairDeps) (job : RepairJob)

/-- How the calls of matching are answered. -/
def answer : (c : Call) → Option (Ans c)
  | .store (.plannedFiles _) => some (.ok w.planned)
  | .store (.torrentFile _) => some w.torrent
  | .library (.findCandidates source query) => some (w.find source query)
  | .library (.hashPiece path range) => some (w.hash path range)
  | _ => none

def files : List TorrentFile := torrentFiles w.planned

def query : CandidateQuery := ⟨job.torrentName, w.files⟩

/-- What one source offers. -/
def offers (query : CandidateQuery) (source : String × ℕ) : List Candidate :=
  match w.find source.2 query with
  | .ok candidates => candidates
  | .error _ => []

/-- The union of what the sources offer. -/
def offered : List Candidate := deps.candidateSources.zipIdx.flatMap (w.offers (w.query job))

/-- The piece length and the pieces, where the stored torrent can be read. -/
def pieces : Option (ℕ × List PieceHash) :=
  match w.torrent with
  | .ok (some bytes) =>
    match deps.inspect bytes with
    | .ok metadata => some (metadata.pieceLength, metadata.pieces)
    | .error _ => none
  | _ => none

/-- The plan verification comes to, without pieces where there are none to be had. -/
def plan : MatchPlan × VerificationReport :=
  verifyMatches (m := Id) w.hash w.files (w.offered deps job) ((w.pieces deps).getD (0, [])).1
    ((w.pieces deps).getD (0, [])).2 deps.policy.verificationPieces

end MatchInput

section
variable {w : MatchInput} {deps : RepairDeps} {job : RepairJob}

/-! ## The run of `match_media` -/

/-- What one source adds to what was found. -/
def MatchInput.hears (w : MatchInput) (query : CandidateQuery) (found : Lookup)
    (source : String × ℕ) : Lookup :=
  match w.find source.2 query with
  | .ok candidates => { found with candidates := found.candidates ++ candidates }
  | .error (.notImplemented d) => { found with
      stubbed := true, failures := found.failures ++ [⟨source.1, .notImplemented d⟩] }
  | .error e => { found with failures := found.failures ++ [⟨source.1, e⟩] }

theorem lookUp_answered (query : CandidateQuery) (found : Lookup) (source : String × ℕ) :
    (lookUp query found source).answered w.answer = some (w.hears query found source) := by
  unfold lookUp MatchInput.hears
  rw [M.library_bind, Prog.answered_call]
  refine (Option.bind_some (w.find source.2 query) _).trans ?_
  cases w.find source.2 query with
  | ok candidates => rfl
  | error e => cases e <;> rfl

/-- The candidates found are those offered. -/
theorem hears_candidates (query : CandidateQuery) (sources : List (String × ℕ)) (found : Lookup) :
    (sources.foldl (w.hears query) found).candidates =
      found.candidates ++ sources.flatMap (w.offers query) := by
  induction sources generalizing found with
  | nil => simp
  | cons source sources ih =>
    have hone : (w.hears query found source).candidates =
        found.candidates ++ w.offers query source := by
      unfold MatchInput.hears MatchInput.offers
      cases w.find source.2 query with
      | ok candidates => rfl
      | error e => cases e <;> simp
    rw [List.foldl_cons, ih, hone, List.flatMap_cons, List.append_assoc]

end

section
variable {C : Type} {A : C → Type} {h : (c : C) → Option (A c)}
  {ask : PathBuf → ByteRange → Prog C A (Option Digest)} {hash : PathBuf → ByteRange → Option Digest}
  {files : List TorrentFile} {pieceLength : ℕ} {pieces : List PieceHash} {verificationPieces : ℕ}

theorem checkPieces_answered (hask : ∀ path range, (ask path range).answered h = some (hash path range))
    (matched : FileMatch) (fileRange : ByteRange) (total : ℕ) : ∀ chosen : List ℕ,
    (checkPieces ask matched fileRange pieceLength pieces total chosen).answered h =
      some (checkPieces (m := Id) hash matched fileRange pieceLength pieces total chosen)
  | [] => rfl
  | k :: rest => by
    have ih := checkPieces_answered hask matched fileRange total rest
    simp only [checkPieces, Prog.answered_bind, hask, Option.bind_some]
    cases hash matched.source _ with
    | none => rfl
    | some digest =>
      dsimp only
      by_cases hpiece : decide (pieces[k]? = some ⟨digest⟩) = true
      · rw [if_pos hpiece, Prog.answered_bind, ih, Option.bind_some]
        exact congrArg some (if_pos hpiece).symm
      · rw [if_neg hpiece]
        exact congrArg some (if_neg hpiece).symm

theorem verifyMatch_answered (hask : ∀ path range, (ask path range).answered h = some (hash path range))
    {total : ℕ} (round : Round) (entry : FileMatch × ℕ) :
    (verifyMatch ask files pieceLength pieces total verificationPieces round entry).answered h =
      some (verifyMatch (m := Id) hash files pieceLength pieces total verificationPieces round
        entry) := by
  obtain ⟨matched, i⟩ := entry
  unfold verifyMatch
  dsimp only
  split
  · rfl
  · split_ifs
    · rfl
    · rw [Prog.answered_bind, checkPieces_answered hask, Option.bind_some]
      rfl

theorem verifyRounds_answered (hask : ∀ path range, (ask path range).answered h = some (hash path range))
    {total : ℕ} : ∀ (rounds : ℕ) (candidates : List Candidate) (report : VerificationReport),
    (verifyRounds ask files pieceLength pieces total verificationPieces rounds candidates
        report).answered h =
      some (verifyRounds (m := Id) hash files pieceLength pieces total verificationPieces rounds
        candidates report)
  | 0, _, _ => rfl
  | rounds + 1, candidates, report => by
    let plan := planMatches files candidates
    have hround :
        (verifyRound ask files plan pieceLength pieces total verificationPieces).answered h =
          some (verifyRound (m := Id) hash files plan pieceLength pieces total
            verificationPieces) := by
      unfold verifyRound
      rw [Prog.answered_foldlM (verifyMatch_answered hask)]
      exact congrArg some List.idRun_foldlM.symm
    simp only [verifyRounds, Prog.answered_bind]
    rw [hround, Option.bind_some]
    by_cases hrejected : (verifyRound (m := Id) hash files plan pieceLength pieces total
        verificationPieces).rejected = []
    · rw [if_pos hrejected]
      exact congrArg some (if_pos hrejected).symm
    · rw [if_neg hrejected, verifyRounds_answered hask rounds]
      exact congrArg some (if_neg hrejected).symm

/-- Verification with hashes that are asked for is verification with the hashes that are given. -/
theorem verifyMatches_answered
    (hask : ∀ path range, (ask path range).answered h = some (hash path range))
    (candidates : List Candidate) :
    (verifyMatches ask files candidates pieceLength pieces verificationPieces).answered h =
      some (verifyMatches (m := Id) hash files candidates pieceLength pieces verificationPieces) := by
  unfold verifyMatches
  split_ifs
  · rfl
  · exact verifyRounds_answered hask _ _ _

end

section
variable {w : MatchInput} {deps : RepairDeps} {job : RepairJob}

theorem torrentPieces_answered :
    (torrentPieces deps job).answered w.answer = some (w.pieces deps) := by
  unfold torrentPieces MatchInput.pieces
  rw [M.store_bind, Prog.answered_call]
  refine (Option.bind_some w.torrent _).trans ?_
  rcases w.torrent with e | _ | bytes
  · rfl
  · rfl
  · dsimp only
    cases deps.inspect bytes <;> rfl

theorem verifiedPlan_answered :
    (verifiedPlan deps job w.files (w.offered deps job)).answered w.answer =
      some (w.plan deps job) := by
  unfold verifiedPlan MatchInput.plan
  rw [Prog.answered_bind, torrentPieces_answered, Option.bind_some]
  cases w.pieces deps with
  | none => exact congrArg some (if_pos (.inr rfl)).symm
  | some pieces => exact verifyMatches_answered (fun _ _ => rfl) _

/-- A plan that advances a job was accepted. -/
theorem matchOutcome_accepted {found : Lookup} {plan : MatchPlan} {report : VerificationReport}
    {detail : Option Json} {patch : JobPatch}
    (h : (matchOutcome deps job found plan report).answered w.answer =
      some (.advance detail patch)) :
    decideMatch plan deps.policy = .accept ∧
      patch = { JobPatch.default with
        stagingDir := some job.defaultStagingDir
        files := some (matchedFiles plan) } := by
  unfold matchOutcome at h
  cases hdetail : matchDetail found plan report with
  | none =>
    -- the task dies on a path that is not text
    rw [hdetail] at h
    cases h
  | some json =>
    rw [hdetail, M.expect_some, Prog.ret_bind] at h
    cases hdecide : decideMatch plan deps.policy with
    | holdForReview reason =>
      rw [hdecide] at h
      cases h
    | accept =>
      rw [hdecide] at h
      cases h
      exact ⟨rfl, rfl⟩

/-- Matching advances a job with a plan that is accepted. -/
theorem matchMedia_accepted {detail : Option Json} {patch : JobPatch}
    (h : (matchMedia deps job).answered w.answer = some (.advance detail patch)) :
    decideMatch (w.plan deps job).1 deps.policy = .accept ∧
      patch = { JobPatch.default with
        stagingDir := some job.defaultStagingDir
        files := some (matchedFiles (w.plan deps job).1) } := by
  unfold matchMedia at h
  rw [M.store_bind, Prog.answered_call] at h
  replace h := (Option.bind_some (.ok w.planned : Except StoreError _) _).symm.trans h
  rcases hplanned : w.planned with _ | ⟨f, fs⟩
  · rw [hplanned] at h
    cases h
  · rw [hplanned] at h
    dsimp only at h
    rw [← hplanned, Prog.answered_bind, Prog.answered_foldlM (lookUp_answered _),
      Option.bind_some] at h
    have hfound : (deps.candidateSources.zipIdx.foldl
        (w.hears ⟨job.torrentName, torrentFiles w.planned⟩) ⟨[], [], false⟩).candidates =
          w.offered deps job := hears_candidates _ _ _
    have hplan : (verifiedPlan deps job (torrentFiles w.planned) (w.offered deps job)).answered
        w.answer = some (w.plan deps job) := verifiedPlan_answered
    change Prog.answered _ (if _ then _ else _) = _ at h
    split_ifs at h
    · cases h
    · cases h
    · rw [Prog.answered_bind, hfound, hplan, Option.bind_some] at h
      exact matchOutcome_accepted h

/-! ## What an accepted plan says -/

theorem MatchConfidence.not_lt_of_min {a b c : MatchConfidence} (h : ¬ a.min b < c) :
    ¬ a < c ∧ ¬ b < c := by
  have hlt : ∀ {a b : MatchConfidence}, a < b ↔ a.rank < b.rank := Iff.rfl
  unfold MatchConfidence.min at h
  split_ifs at h with hba <;> simp only [hlt] at * <;> omega

/-- No match of a plan is less sure than the weakest. -/
theorem not_lt_of_foldl_min {floor : MatchConfidence} : ∀ {ms : List FileMatch}
    {first : MatchConfidence},
    ¬ (ms.foldl (fun acc f => acc.min f.confidence) first) < floor →
      ¬ first < floor ∧ ∀ m ∈ ms, ¬ m.confidence < floor
  | [], _, h => ⟨h, by simp⟩
  | m :: ms, _, h => by
    obtain ⟨hmin, hrest⟩ := @not_lt_of_foldl_min _ ms _ h
    obtain ⟨hfirst, hm⟩ := MatchConfidence.not_lt_of_min hmin
    exact ⟨hfirst, List.forall_mem_cons.2 ⟨hm, hrest⟩⟩

theorem decideMatch_accept {plan : MatchPlan} {policy : SafetyPolicy}
    (h : decideMatch plan policy = .accept) :
    plan.unmatched = [] ∧ ∀ m ∈ plan.matched, ¬ m.confidence < policy.minMatchConfidence := by
  unfold decideMatch at h
  split at h
  · cases h
  · cases h
  · rename_i hunmatched
    refine ⟨hunmatched, ?_⟩
    unfold MatchPlan.lowestConfidence at h
    split at h
    · cases h
    · rename_i hlowest
      split_ifs at h with hfloor
      split at hlowest
      · cases hlowest
      · rename_i m ms hmatched
        cases hlowest
        obtain ⟨hm, hms⟩ := not_lt_of_foldl_min hfloor
        rw [hmatched]
        exact List.forall_mem_cons.2 ⟨hm, hms⟩

/-- The torrent's file a match is for. -/
def FileMatch.file (m : FileMatch) : TorrentFile := ⟨m.torrentPath, m.length⟩

/-- The torrent's file that was left unmatched. -/
def UnmatchedFile.file (u : UnmatchedFile) : TorrentFile := ⟨u.torrentPath, u.length⟩

/-- A plan splits the files of a torrent: none is lost, and none comes twice. -/
theorem planMatches_splits (files : List TorrentFile) (candidates : List Candidate) :
    ((planMatches files candidates).matched.map FileMatch.file ++
      (planMatches files candidates).unmatched.map UnmatchedFile.file).Perm files := by
  rw [planMatches_matched, planMatches_unmatched]
  induction files with
  | nil => exact List.Perm.refl _
  | cons f files ih =>
    cases h : planFile candidates f with
    | inl m =>
      obtain ⟨hpath, hlength, -⟩ := planFile_inl h
      have hfile : m.file = f := by rw [FileMatch.file, hpath, hlength]
      rw [List.filterMap_cons_some (by rw [h]; rfl), List.filterMap_cons_none (by rw [h]; rfl),
        List.map_cons, hfile, List.cons_append]
      exact ih.cons _
    | inr u =>
      obtain ⟨hpath, hlength⟩ := planFile_inr h
      have hfile : u.file = f := by rw [UnmatchedFile.file, hpath, hlength]
      rw [List.filterMap_cons_none (by rw [h]; rfl), List.filterMap_cons_some (by rw [h]; rfl),
        List.map_cons, hfile]
      exact List.perm_middle.trans (ih.cons _)

/-- Raising a plan changes how sure it is of its matches, and nothing else. -/
theorem raise_map {β : Type} {g : FileMatch → β} (hg : ∀ (m : FileMatch) confidence evidence,
    g { m with confidence, evidence } = g m) (plan : MatchPlan) (verified : List ℕ) :
    (plan.raise verified).matched.map g = plan.matched.map g := by
  have hsame : (g ∘ fun (x : FileMatch × ℕ) => if x.2 ∈ verified then
      { x.1 with
        confidence := .exact, evidence := { x.1.evidence with pieceVerified := true } }
      else x.1) = g ∘ Prod.fst := by
    funext x
    dsimp only [Function.comp]
    split_ifs
    · exact hg ..
    · rfl
  unfold MatchPlan.raise
  dsimp only
  rw [List.map_map, hsame, ← List.map_map, List.zipIdx_map_fst]

/-! ## What is stored of it -/

/-- The plan in the store is the torrent's file list; its lengths fit the column. -/
structure Recorded (m : TorrentMetadata) (planned : List PlannedFile) : Prop where
  files : (torrentFiles planned).Perm m.files
  lengths : ∀ f ∈ m.files, f.length ≤ i64Max

/-- A plan that can be staged: every file of the torrent once, from a candidate of its length, and
    surely enough. -/
structure WellMatched (policy : SafetyPolicy) (m : TorrentMetadata) (offered : List Candidate)
    (planned : List PlannedFile) : Prop where
  files : (torrentFiles planned).Perm m.files
  distinct : (planned.map PlannedFile.torrentPath).Nodup
  sources : ∀ f ∈ planned, ∃ c ∈ offered, f.source = some c.path ∧ c.sizeBytes = f.length
  sure : ∀ f ∈ planned, ∃ confidence, f.confidence = some confidence ∧
    ¬ confidence < policy.minMatchConfidence

/-- The stored form of a path, read back. -/
def throughText (path : PathBuf) : PathBuf := .ofString path.toStringLossy

variable (w deps job) in
/-- The candidate that is left alone for a file: it has its length and is not dropped, and every
    rival is. -/
def LeftAlone (file : TorrentFile) (c : Candidate) : Prop :=
  ∃ before after, w.offered deps job = before ++ c :: after ∧ c.sizeBytes = file.length ∧
    ¬ Dropped w.files ((w.pieces deps).getD (0, [])).1 ((w.pieces deps).getD (0, [])).2
        deps.policy.verificationPieces w.hash (w.offered deps job) c ∧
    ∀ d ∈ before ++ after, Rivals c d file →
      Dropped w.files ((w.pieces deps).getD (0, [])).1 ((w.pieces deps).getD (0, [])).2
        deps.policy.verificationPieces w.hash (w.offered deps job) d

variable (w deps job) in
/-- The text of the path of a candidate that is left alone is the path of an offered one. -/
def TextKept (m : TorrentMetadata) : Prop :=
  ∀ file ∈ m.files, ∀ c, LeftAlone w deps job file c →
    ∃ d ∈ w.offered deps job, d.path = throughText c.path ∧ d.sizeBytes = file.length

/-- A match as it is read back from the store. -/
def FileMatch.stored (id : JobId) (m : FileMatch) : PlannedFile :=
  readPlannedFile (writePlannedFile id
    ⟨m.torrentPath, m.length, some m.source, some m.confidence, some m.evidence, none, none⟩)

theorem plannedFiles_applied {id : JobId} {plan : MatchPlan} {s s' : SqliteRepairStore} {now : Time}
    {t : Transition} {u : TransitionUpdate} (hfiles : u.patch.files = some (matchedFiles plan))
    (hprogress : u.patch.fileProgress = none) (h : s.apply now id t u = .ok (.applied, s')) :
    (s'.plannedFiles id).Perm (plan.matched.map (FileMatch.stored id)) := by
  have hrows := SqliteRepairStore.fileRows_applied hfiles hprogress h
  unfold SqliteRepairStore.plannedFiles
  refine ((List.perm_insertionSort _ _).map _).trans (.of_eq ?_)
  rw [hrows, matchedFiles, List.map_map, List.map_map]
  rfl

theorem plannedFiles_nodup (s : SqliteRepairStore) (id : JobId) :
    ((s.plannedFiles id).map PlannedFile.torrentPath).Nodup := by
  unfold SqliteRepairStore.plannedFiles
  rw [List.map_map]
  exact ((List.perm_insertionSort _ _).map _).nodup_iff.2 (SqliteRepairStore.nodup_fileRows s id)

/-- The candidates left alone are those a plan is made of. -/
theorem leftAlone_iff {keep : Candidate → Bool} {file : TorrentFile} {p : PathBuf}
    (hkeep : ∀ c ∈ w.offered deps job, keep c = true ↔
      ¬ Dropped w.files ((w.pieces deps).getD (0, [])).1 ((w.pieces deps).getD (0, [])).2
        deps.policy.verificationPieces w.hash (w.offered deps job) c) :
    (∃ m, planFile ((w.offered deps job).filter keep) file = .inl m ∧ m.source = p) ↔
      ∃ c, LeftAlone w deps job file c ∧ c.path = p := by
  constructor
  · rintro ⟨m, hplan, rfl⟩
    obtain ⟨before, c, after, hsplit, hc, hsize, -, hsource, halone⟩ := planFile_filter_alone hplan
    refine ⟨c, ⟨before, after, hsplit, hsize, (hkeep c (by simp [hsplit])).1 hc, ?_⟩, hsource.symm⟩
    intro d hd hrivals
    have hmem : d ∈ w.offered deps job := by
      rw [hsplit]
      simp only [List.mem_append, List.mem_cons] at hd ⊢
      tauto
    by_contra hnot
    exact absurd ((hkeep d hmem).2 hnot) (by rw [halone d hd hrivals]; decide)
  · rintro ⟨c, ⟨before, after, hsplit, hsize, hkept, halone⟩, rfl⟩
    have hmem : ∀ d ∈ before ++ c :: after, d ∈ w.offered deps job := fun d hd => hsplit ▸ hd
    have hpool : (w.offered deps job).filter keep = before.filter keep ++ c :: after.filter keep := by
      rw [hsplit, List.filter_append,
        List.filter_cons_of_pos ((hkeep c (hmem c (by simp))).2 hkept)]
    obtain ⟨m, hplan, -, hsource⟩ := planFile_of_alone hpool hsize (fun d hd hrivals => by
      rw [← List.filter_append] at hd
      obtain ⟨hd, hdkept⟩ := List.mem_filter.1 hd
      have hdmem : d ∈ before ++ c :: after := by
        simp only [List.mem_append, List.mem_cons] at hd ⊢
        tauto
      exact (hkeep d (hmem d hdmem)).1 hdkept (halone d hd hrivals))
    exact ⟨m, hplan, hsource⟩

/-- The matches of the plan, and the candidates they are made with. -/
theorem mem_plan_iff (hunmatched : (w.plan deps job).1.unmatched = []) :
    ((w.plan deps job).1.matched.map FileMatch.file).Perm w.files ∧
      ∀ file p, (∃ x ∈ (w.plan deps job).1.matched, x.file = file ∧ x.source = p) ↔
        file ∈ w.files ∧ ∃ c, LeftAlone w deps job file c ∧ c.path = p := by
  obtain ⟨keep, verified, checks, hend, hkeep⟩ := verifyMatches_kept w.files
    ((w.pieces deps).getD (0, [])).1 ((w.pieces deps).getD (0, [])).2 deps.policy.verificationPieces
    w.hash (w.offered deps job)
  have hplan : (w.plan deps job).1 =
      (planMatches w.files ((w.offered deps job).filter keep)).raise verified :=
    congrArg Prod.fst hend
  rw [hplan] at hunmatched ⊢
  have hsplits := planMatches_splits w.files ((w.offered deps job).filter keep)
  have hnone : (planMatches w.files ((w.offered deps job).filter keep)).unmatched = [] := hunmatched
  rw [hnone, List.map_nil, List.append_nil] at hsplits
  refine ⟨(raise_map (g := FileMatch.file) (fun _ _ _ => rfl) _ _).symm ▸ hsplits, fun file p => ?_⟩
  rw [← leftAlone_iff hkeep]
  have hsame := raise_map (g := fun m => (m.file, m.source)) (fun _ _ _ => rfl)
    (planMatches w.files ((w.offered deps job).filter keep)) verified
  have hmem : ∀ plan : MatchPlan, (∃ x ∈ plan.matched, x.file = file ∧ x.source = p) ↔
      (file, p) ∈ plan.matched.map fun m => (m.file, m.source) := by
    intro plan
    simp only [List.mem_map, Prod.mk.injEq]
  rw [hmem, hsame, ← hmem, planMatches_matched]
  have hfile : ∀ {f m}, planFile ((w.offered deps job).filter keep) f = .inl m → m.file = f := by
    intro f m h
    obtain ⟨hpath, hlength, -⟩ := planFile_inl h
    rw [FileMatch.file, hpath, hlength]
  constructor
  · rintro ⟨x, hx, rfl, rfl⟩
    obtain ⟨f, hf, hplan⟩ := List.mem_filterMap.1 hx
    have hplan := Sum.getLeft?_eq_some_iff.1 hplan
    rw [hfile hplan]
    exact ⟨hf, x, hplan, rfl⟩
  · rintro ⟨hf, x, hplan, rfl⟩
    exact ⟨x, List.mem_filterMap.2 ⟨file, hf, by rw [hplan]; rfl⟩, hfile hplan, rfl⟩

/-- The stored plan of a job that matching advanced is good exactly when the paths of the candidates
    that are left alone come through the store's text; plans split the files either way. -/
theorem wellMatched_iff {m : TorrentMetadata} (hrec : Recorded m w.planned) {detail : Option Json}
    {patch : JobPatch}
    (hrun : (matchMedia deps job).answered w.answer = some (.advance detail patch))
    {s s' : SqliteRepairStore} {now : Time} {t : Transition} {u : TransitionUpdate}
    (hu : u.patch = patch) (happly : s.apply now job.id t u = .ok (.applied, s')) :
    (WellMatched deps.policy m (w.offered deps job) (s'.plannedFiles job.id) ∧
      ∀ files candidates, (files.map TorrentFile.path).Nodup →
        ((planMatches files candidates).matched.map FileMatch.file ++
          (planMatches files candidates).unmatched.map UnmatchedFile.file).Perm files) ↔
      TextKept w deps job m := by
  obtain ⟨haccept, rfl⟩ := matchMedia_accepted hrun
  obtain ⟨hunmatched, hsure⟩ := decideMatch_accept haccept
  obtain ⟨hfiles, hmatches⟩ := mem_plan_iff hunmatched
  have hstored := plannedFiles_applied (by rw [hu]) (by rw [hu]; rfl) happly
  have hlength : ∀ x ∈ (w.plan deps job).1.matched, (x.stored job.id).length = x.length := by
    intro x hx
    have hmem := (hfiles.trans hrec.files).mem_iff.1 (List.mem_map_of_mem hx)
    exact asU64_asI64 (hrec.lengths _ hmem)
  have hsources : (∀ f ∈ s'.plannedFiles job.id, ∃ c ∈ w.offered deps job,
      f.source = some c.path ∧ c.sizeBytes = f.length) ↔ TextKept w deps job m := by
    simp only [hstored.mem_iff, List.forall_mem_map]
    constructor
    · intro h file hfile c hc
      obtain ⟨x, hx, rfl, hsource⟩ :=
        (hmatches file c.path).2 ⟨hrec.files.mem_iff.2 hfile, c, hc, rfl⟩
      obtain ⟨d, hd, hpath, hsize⟩ := h x hx
      refine ⟨d, hd, ?_, hsize.trans (hlength x hx)⟩
      rw [← hsource]
      exact (Option.some.inj hpath).symm
    · intro h x hx
      obtain ⟨hfile, c, hc, hsource⟩ := (hmatches x.file x.source).1 ⟨x, hx, rfl, rfl⟩
      obtain ⟨d, hd, hpath, hsize⟩ := h x.file (hrec.files.mem_iff.1 hfile) c hc
      refine ⟨d, hd, ?_, hsize.trans (hlength x hx).symm⟩
      rw [hpath, hsource]
      rfl
  rw [← hsources]
  refine ⟨fun h => h.1.sources, fun h => ⟨⟨?_, plannedFiles_nodup s' job.id, h, ?_⟩,
    fun files candidates _ => planMatches_splits files candidates⟩⟩
  · refine ((hstored.map _).trans (.of_eq ?_)).trans (hfiles.trans hrec.files)
    rw [List.map_map]
    refine List.map_congr_left fun x hx => ?_
    rw [Function.comp, hlength x hx]
    rfl
  · intro f hf
    obtain ⟨x, hx, rfl⟩ := List.mem_map.1 (hstored.mem_iff.1 hf)
    exact ⟨x.confidence, rfl, hsure x hx⟩

end

/-! ## A path that is not text -/

/-- A torrent of the one file. -/
def pilotTorrent : TorrentMetadata where
  infoHash := ⟨Vector.replicate 20 0⟩
  name := pilot.path
  pieceLength := 5
  files := [pilot]
  pieces := []

/-- The row of the job that is to be matched. -/
def pilotRow : JobRow :=
  { discoveredRow ⟨1⟩ 0 ⟨⟨"tracker"⟩, ⟨"7"⟩, "pilot", none, 5, none⟩ with state := .torrentFetched }

/-- The store after the torrent was fetched. -/
def pilotStore : SqliteRepairStore where
  jobs := ⟨[pilotRow], by decide⟩
  files := ⟨(fetchedFiles pilotTorrent).map (writePlannedFile ⟨1⟩), by decide⟩
  transitions := []
  jobSeq := 1

/-- One source offers one file of the length. -/
def offeredAt (path : PathBuf) : MatchInput where
  planned := pilotStore.plannedFiles ⟨1⟩
  torrent := .ok none
  find _ _ := .ok [⟨path, 5, .filesystem (.ofString "/m")⟩]
  hash _ _ := none

def pilotDeps : RepairDeps where
  trackers := []
  inspect _ := .error (.malformed "")
  candidateSources := ["library"]
  stagingRoot := .ofString "/staging"
  policy := .default
  category := none

def advanceToMatched : Transition where
  fromState := .torrentFetched
  toState := .matched
  reason := .progress
  legal := ⟨none, rfl⟩

/-- Whether matching advances the job and the store takes the plan. -/
def takesPlan (path : PathBuf) : Bool :=
  match (matchMedia pilotDeps (readJob pilotRow)).answered (offeredAt path).answer with
  | some (.advance detail patch) =>
    match pilotStore.apply 0 ⟨1⟩ advanceToMatched ⟨detail, none, patch⟩ with
    | .ok (.applied, _) => true
    | _ => false
  | _ => false

theorem exists_taken {path : PathBuf} (h : takesPlan path = true) : ∃ detail patch s',
    (matchMedia pilotDeps (readJob pilotRow)).answered (offeredAt path).answer =
      some (.advance detail patch) ∧
    pilotStore.apply 0 ⟨1⟩ advanceToMatched ⟨detail, none, patch⟩ = .ok (.applied, s') := by
  unfold takesPlan at h
  split at h
  · rename_i detail patch hrun
    split at h
    · rename_i s' happly
      exact ⟨detail, patch, s', hrun, happly⟩
    · cases h
  · cases h

theorem offeredAt_recorded (path : PathBuf) : Recorded pilotTorrent (offeredAt path).planned :=
  ⟨.of_eq (show torrentFiles (pilotStore.plannedFiles ⟨1⟩) = _ by decide), by decide⟩

theorem offered_offeredAt (path : PathBuf) :
    (offeredAt path).offered pilotDeps (readJob pilotRow) =
      [⟨path, 5, .filesystem (.ofString "/m")⟩] := rfl

theorem path_of_leftAlone {path : PathBuf} {file : TorrentFile} {c : Candidate}
    (h : LeftAlone (offeredAt path) pilotDeps (readJob pilotRow) file c) : c.path = path := by
  obtain ⟨before, after, hsplit, -⟩ := h
  have hmem : c ∈ (offeredAt path).offered pilotDeps (readJob pilotRow) := by simp [hsplit]
  rw [offered_offeredAt, List.mem_singleton] at hmem
  rw [hmem]

/-- The library file in a directory whose name is text. -/
def plainPath : PathBuf := .ofString "/m/pilot.mkv"

/-- The library file in a directory whose name is the byte `ff`. -/
def brokenPath : PathBuf :=
  ⟨(PathBuf.ofString "/").bytes ++ [255] ++ (PathBuf.ofString "/pilot.mkv").bytes⟩

theorem takesPlan_plain : takesPlan plainPath = true := by decide +kernel

theorem takesPlan_broken : takesPlan brokenPath = true := by decide +kernel

/-- A path that is text is stored as it is. -/
theorem plain_matched : ∃ detail patch s',
    pilotStore.apply 0 ⟨1⟩ advanceToMatched ⟨detail, none, patch⟩ = .ok (.applied, s') ∧
    WellMatched .default pilotTorrent
      ((offeredAt plainPath).offered pilotDeps (readJob pilotRow)) (s'.plannedFiles ⟨1⟩) := by
  obtain ⟨detail, patch, s', hrun, happly⟩ := exists_taken takesPlan_plain
  refine ⟨detail, patch, s', happly,
    ((wellMatched_iff (offeredAt_recorded plainPath) hrun rfl happly).2 ?_).1⟩
  intro file hfile c hc
  rw [List.mem_singleton.1 hfile]
  refine ⟨_, List.mem_singleton_self _, ?_, rfl⟩
  rw [path_of_leftAlone hc, throughText, plainPath, PathBuf.toStringLossy_ofString]

/-- The stored plan names a file that nobody offered. -/
theorem broken_not_offered : ¬ ∀ (w : MatchInput) (deps : RepairDeps) (job : RepairJob)
    (m : TorrentMetadata) (detail : Option Json) (patch : JobPatch) (s s' : SqliteRepairStore)
    (now : Time) (t : Transition) (u : TransitionUpdate), Recorded m w.planned →
    (matchMedia deps job).answered w.answer = some (.advance detail patch) → u.patch = patch →
      s.apply now job.id t u = .ok (.applied, s') →
        WellMatched deps.policy m (w.offered deps job) (s'.plannedFiles job.id) := by
  intro hclaim
  obtain ⟨detail, patch, s', hrun, happly⟩ := exists_taken takesPlan_broken
  have hwell := hclaim _ _ _ _ _ _ _ _ _ _ _ (offeredAt_recorded brokenPath) hrun rfl happly
  have hkept := (wellMatched_iff (offeredAt_recorded brokenPath) hrun rfl happly).1
    ⟨hwell, fun files candidates _ => planMatches_splits files candidates⟩
  obtain ⟨hfiles, hmatches⟩ := mem_plan_iff (decideMatch_accept (matchMedia_accepted hrun).1).1
  obtain ⟨x, hx, hfile⟩ := List.mem_map.1 (hfiles.mem_iff.2
    ((offeredAt_recorded brokenPath).files.mem_iff.2 (List.mem_singleton_self pilot)))
  obtain ⟨-, c, hc, -⟩ := (hmatches pilot x.source).1 ⟨x, hx, hfile, rfl⟩
  obtain ⟨d, hd, hpath, -⟩ := hkept pilot (List.mem_singleton_self pilot) c hc
  rw [offered_offeredAt, List.mem_singleton] at hd
  rw [hd, path_of_leftAlone hc] at hpath
  exact absurd hpath (by decide +kernel)

end SeedMedic
