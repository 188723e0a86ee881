/-
  The pool of candidates that the files of a torrent share while they are verified: which of them
  are dropped, and what a file that is left without one can be told.
-/
import SeedMedic.Library.VerificationExact

namespace SeedMedic

open Lib

/-! ## What a file is paired with -/

/-- A candidate's name is the one a file has in the torrent. -/
def Named (c : Candidate) (file : TorrentFile) : Prop :=
  namesAgree c.fileName (wantedName file.path) = true

/-- Another candidate stands in the way of choosing one for a file: it has the file's size too, and
    a name that agrees if that of the first does. -/
def Rivals (c d : Candidate) (file : TorrentFile) : Prop :=
  d.sizeBytes = file.length ∧ (Named c file → Named d file)

theorem sizedCandidates_perm (pool : List Candidate) (file : TorrentFile) :
    (sizedCandidates pool file).Perm (pool.filter fun c => c.sizeBytes = file.length) :=
  List.perm_insertionSort _ _

/-- The candidate of the file's size whose name is the only one to agree is chosen. -/
theorem planFile_of_named {pool : List Candidate} {c : Candidate} {file : TorrentFile}
    (h : (sizedCandidates pool file).filter
      (fun c => namesAgree c.fileName (wantedName file.path)) = [c]) :
    ∃ m, planFile pool file = .inl m ∧ m.torrentPath = file.path ∧ m.source = c.path := by
  unfold planFile
  dsimp only
  rw [h]
  cases hsized : sizedCandidates pool file with
  | nil =>
    rw [hsized] at h
    cases h
  | cons a as => exact ⟨_, rfl, rfl, rfl⟩

/-- The only candidate of the file's size is chosen. -/
theorem planFile_of_only {pool : List Candidate} {c : Candidate} {file : TorrentFile}
    (h : sizedCandidates pool file = [c]) :
    ∃ m, planFile pool file = .inl m ∧ m.torrentPath = file.path ∧ m.source = c.path := by
  by_cases hnamed : Named c file
  · refine planFile_of_named ?_
    rw [h]
    exact List.filter_cons_of_pos hnamed
  · have hnone : [c].filter (fun c => namesAgree c.fileName (wantedName file.path)) = [] :=
      List.filter_cons_of_neg hnamed
    unfold planFile
    dsimp only
    rw [h, hnone]
    exact ⟨_, rfl, rfl, rfl⟩

/-- One of the two is how a file comes to its choice. -/
theorem planFile_inl_cases {pool : List Candidate} {file : TorrentFile} {m : FileMatch}
    (h : planFile pool file = .inl m) :
    ∃ c, m.torrentPath = file.path ∧ m.source = c.path ∧
      ((sizedCandidates pool file).filter
          (fun c => namesAgree c.fileName (wantedName file.path)) = [c] ∨
        sizedCandidates pool file = [c]) := by
  unfold planFile at h
  dsimp only at h
  split at h
  · cases h
  · rename_i c _ hnamed
    cases h
    exact ⟨c, rfl, rfl, .inl (by assumption)⟩
  · rename_i c hsized _
    cases h
    exact ⟨c, rfl, rfl, .inr hsized⟩
  · cases h

/-- A file is told that there is no candidate when none has its size. -/
theorem planFile_noCandidate {pool : List Candidate} {file : TorrentFile} :
    planFile pool file = .inr ⟨file.path, file.length, .noCandidate⟩ ↔
      ∀ c ∈ pool, c.sizeBytes ≠ file.length := by
  have hnone : sizedCandidates pool file = [] ↔ ∀ c ∈ pool, c.sizeBytes ≠ file.length := by
    rw [List.eq_nil_iff_forall_not_mem]
    simp only [mem_sizedCandidates, not_and, ne_eq]
  rw [← hnone]
  unfold planFile
  dsimp only
  constructor
  · intro h
    split at h
    · assumption
    · cases h
    · cases h
    · cases h
  · intro h
    rw [h]

/-- A candidate without a rival is chosen. -/
theorem planFile_of_alone {pool before after : List Candidate} {c : Candidate} {file : TorrentFile}
    (hpool : pool = before ++ c :: after) (hsize : c.sizeBytes = file.length)
    (halone : ∀ d ∈ before ++ after, ¬ Rivals c d file) :
    ∃ m, planFile pool file = .inl m ∧ m.torrentPath = file.path ∧ m.source = c.path := by
  by_cases hnamed : Named c file
  · refine planFile_of_named (List.perm_singleton.1
      (((sizedCandidates_perm pool file).filter _).trans (.of_eq ?_)))
    rw [List.filter_filter, List.filter_eq_cons_iff]
    refine ⟨before, after, hpool, ?_, ?_, List.filter_eq_nil_iff.2 ?_⟩
    · intro d hd hboth
      rw [Bool.and_eq_true, decide_eq_true_eq] at hboth
      exact halone d (List.mem_append_left _ hd) ⟨hboth.2, fun _ => hboth.1⟩
    · rw [Bool.and_eq_true, decide_eq_true_eq]
      exact ⟨hnamed, hsize⟩
    · intro d hd hboth
      rw [Bool.and_eq_true, decide_eq_true_eq] at hboth
      exact halone d (List.mem_append_right _ hd) ⟨hboth.2, fun _ => hboth.1⟩
  · refine planFile_of_only (List.perm_singleton.1
      ((sizedCandidates_perm pool file).trans (.of_eq ?_)))
    rw [List.filter_eq_cons_iff]
    refine ⟨before, after, hpool, ?_, decide_eq_true hsize, List.filter_eq_nil_iff.2 ?_⟩
    · intro d hd hdsize
      exact halone d (List.mem_append_left _ hd) ⟨of_decide_eq_true hdsize, fun h => (hnamed h).elim⟩
    · intro d hd hdsize
      exact halone d (List.mem_append_right _ hd)
        ⟨of_decide_eq_true hdsize, fun h => (hnamed h).elim⟩

/-- The choice for a file has no rival. -/
theorem planFile_inl_alone {pool : List Candidate} {file : TorrentFile} {m : FileMatch}
    (h : planFile pool file = .inl m) :
    ∃ before c after, pool = before ++ c :: after ∧ c.sizeBytes = file.length ∧
      m.torrentPath = file.path ∧ m.source = c.path ∧
      ∀ d ∈ before ++ after, ¬ Rivals c d file := by
  have hperm := sizedCandidates_perm pool file
  obtain ⟨c, hpath, hsource, hnamed | honly⟩ := planFile_inl_cases h
  · have hfilter := List.perm_singleton.1 ((hperm.filter _).symm.trans (.of_eq hnamed))
    rw [List.filter_filter] at hfilter
    obtain ⟨before, after, hpool, hbefore, hgood, hafter⟩ := List.filter_eq_cons_iff.1 hfilter
    rw [List.filter_eq_nil_iff] at hafter
    simp only [Bool.and_eq_true, decide_eq_true_eq] at hbefore hgood hafter
    refine ⟨before, c, after, hpool, hgood.2, hpath, hsource, ?_⟩
    rintro d hd ⟨hsize, hagrees⟩
    rcases List.mem_append.1 hd with hd | hd
    · exact hbefore d hd ⟨hagrees hgood.1, hsize⟩
    · exact hafter d hd ⟨hagrees hgood.1, hsize⟩
  · have hfilter := List.perm_singleton.1 (hperm.symm.trans (.of_eq honly))
    obtain ⟨before, after, hpool, hbefore, hgood, hafter⟩ := List.filter_eq_cons_iff.1 hfilter
    rw [List.filter_eq_nil_iff] at hafter
    simp only [decide_eq_true_eq] at hbefore hgood hafter
    refine ⟨before, c, after, hpool, hgood, hpath, hsource, ?_⟩
    rintro d hd ⟨hsize, -⟩
    rcases List.mem_append.1 hd with hd | hd
    · exact hbefore d hd hsize
    · exact hafter d hd hsize

/-! ## What is dropped -/

section
variable (files : List TorrentFile) (pieceLength : ℕ) (pieces : List PieceHash)
  (verificationPieces : ℕ) (hashPiece : PathBuf → ByteRange → Option Digest)

/-- A candidate's bytes have the hash of every piece that is checked of the file at a path. -/
def Passes (path : SafeRelativePath) (source : PathBuf) : Prop :=
  ∀ pieceIndex ∈ checkedPieces files pieceLength pieces verificationPieces path,
    pieceMatches files pieceLength pieces hashPiece path source pieceIndex = some true

/-- A candidate's bytes are found to be wrong for the file at a path. -/
def Fails (path : SafeRelativePath) (source : PathBuf) : Prop :=
  (outcomeOfSource files pieceLength pieces verificationPieces hashPiece path source).1 = .rejected

/-- The candidates of a list that are dropped in the end: the wrong ones for a file for which every
    rival is dropped, and whatever has the path of a dropped one. -/
inductive Dropped (candidates : List Candidate) : Candidate → Prop where
  | wrong {before after : List Candidate} {c : Candidate} {file : TorrentFile} :
      candidates = before ++ c :: after → file ∈ files → c.sizeBytes = file.length →
      (∀ d ∈ before ++ after, Rivals c d file → Dropped candidates d) →
      Fails files pieceLength pieces verificationPieces hashPiece file.path c.path →
      Dropped candidates c
  | same {c d : Candidate} :
      Dropped candidates c → d ∈ candidates → (c.path == d.path) = true → Dropped candidates d

variable {files pieceLength pieces verificationPieces hashPiece}

theorem Dropped.mem {candidates : List Candidate} {c : Candidate}
    (h : Dropped files pieceLength pieces verificationPieces hashPiece candidates c) :
    c ∈ candidates := by
  cases h with
  | wrong hcandidates => simp [hcandidates]
  | same _ hmem _ => exact hmem

/-- A path is rejected for a file it was the choice for. -/
theorem exists_fails_of_rejected {pool : List Candidate} {p : PathBuf}
    (hp : p ∈ (roundOf files pieceLength pieces verificationPieces hashPiece
      (planMatches files pool).matched).rejected) :
    ∃ file ∈ files, ∃ m, planFile pool file = .inl m ∧ m.source = p ∧
      Fails files pieceLength pieces verificationPieces hashPiece file.path p := by
  obtain ⟨m, hm, rfl⟩ := List.mem_map.1 hp
  obtain ⟨hm, hfails⟩ := List.mem_filter.1 hm
  rw [planMatches_matched] at hm
  obtain ⟨file, hfile, hplan⟩ := List.mem_filterMap.1 hm
  have hplan := Sum.getLeft?_eq_some_iff.1 hplan
  have hfails := of_decide_eq_true hfails
  rw [outcomeOfMatch, (planFile_inl hplan).1] at hfails
  exact ⟨file, hfile, m, hplan, rfl, hfails⟩

/-- The choice for a file is rejected when it fails. -/
theorem rejected_of_fails {pool : List Candidate} {file : TorrentFile} {m : FileMatch}
    (hfile : file ∈ files) (hplan : planFile pool file = .inl m)
    (hfails : Fails files pieceLength pieces verificationPieces hashPiece file.path m.source) :
    m.source ∈ (roundOf files pieceLength pieces verificationPieces hashPiece
      (planMatches files pool).matched).rejected := by
  refine List.mem_map.2 ⟨m, List.mem_filter.2 ⟨?_, decide_eq_true ?_⟩, rfl⟩
  · rw [planMatches_matched]
    exact List.mem_filterMap.2 ⟨file, hfile, by rw [hplan]; rfl⟩
  · rw [outcomeOfMatch, (planFile_inl hplan).1]
    exact hfails

/-- The choice for a file has no rival left that is kept. -/
theorem planFile_filter_alone {candidates : List Candidate} {keep : Candidate → Bool}
    {file : TorrentFile} {m : FileMatch} (h : planFile (candidates.filter keep) file = .inl m) :
    ∃ before c after, candidates = before ++ c :: after ∧ keep c = true ∧
      c.sizeBytes = file.length ∧ m.torrentPath = file.path ∧ m.source = c.path ∧
      ∀ d ∈ before ++ after, Rivals c d file → keep d = false := by
  obtain ⟨before, c, after, hpool, hsize, hpath, hsource, halone⟩ := planFile_inl_alone h
  obtain ⟨before', rest, hsplit, hbefore, hrest⟩ := List.filter_eq_append_iff.1 hpool
  obtain ⟨skipped, after', hrest', hskipped, hc, hafter⟩ := List.filter_eq_cons_iff.1 hrest
  refine ⟨before' ++ skipped, c, after', by rw [hsplit, hrest', List.append_assoc], hc, hsize, hpath,
    hsource, fun d hd hrivals => ?_⟩
  by_contra hnot
  rw [Bool.not_eq_false] at hnot
  refine halone d ?_ hrivals
  rw [← hbefore, ← hafter]
  rcases List.mem_append.1 hd with hd | hd
  · rcases List.mem_append.1 hd with hd | hd
    · exact List.mem_append_left _ (List.mem_filter.2 ⟨hd, hnot⟩)
    · exact absurd hnot (hskipped d hd)
  · exact List.mem_append_right _ (List.mem_filter.2 ⟨hd, hnot⟩)

/-- A round drops from a pool without dropped candidates only what is to be dropped. -/
theorem dropped_of_rejected {candidates : List Candidate} {keep : Candidate → Bool}
    (hkeep : ∀ d ∈ candidates, keep d = false →
      Dropped files pieceLength pieces verificationPieces hashPiece candidates d)
    {p : PathBuf} (hp : p ∈ (roundOf files pieceLength pieces verificationPieces hashPiece
      (planMatches files (candidates.filter keep)).matched).rejected)
    {d : Candidate} (hd : d ∈ candidates) (hsame : (p == d.path) = true) :
    Dropped files pieceLength pieces verificationPieces hashPiece candidates d := by
  obtain ⟨file, hfile, m, hplan, rfl, hfails⟩ := exists_fails_of_rejected hp
  obtain ⟨before, c, after, hsplit, -, hsize, -, hsource, halone⟩ := planFile_filter_alone hplan
  rw [hsource] at hfails hsame
  refine .same (.wrong hsplit hfile hsize (fun d' hd' hrivals => ?_) hfails) hd hsame
  refine hkeep d' ?_ (halone d' hd' hrivals)
  rw [hsplit]
  simp only [List.mem_append, List.mem_cons] at hd' ⊢
  tauto

/-- What rounds drop is to be dropped. -/
theorem Rounds.dropped_of_failed {k : ℕ} {pool : List Candidate} {checks : List PieceCheck}
    {plan : MatchPlan}
    (h : Rounds files pieceLength pieces verificationPieces hashPiece k pool checks plan)
    {candidates : List Candidate} :
    ∀ keep : Candidate → Bool, pool = candidates.filter keep →
      (∀ d ∈ candidates, keep d = false →
        Dropped files pieceLength pieces verificationPieces hashPiece candidates d) →
      ∀ d ∈ candidates, neverRejected checks d = false →
        Dropped files pieceLength pieces verificationPieces hashPiece candidates d := by
  induction h with
  | done hplan hround hnone =>
    intro keep hpool hkeep d hd hfailed
    subst hplan hround
    rw [neverRejected, Bool.not_eq_false', List.any_eq_true] at hfailed
    obtain ⟨check, hcheck, hfailed⟩ := hfailed
    rw [Bool.and_eq_true, Bool.not_eq_true'] at hfailed
    have hrejected := mem_roundOf_rejected.2 ⟨check, hcheck, hfailed.1, rfl⟩
    rw [hnone] at hrejected
    cases hrejected
  | @retry pool round _ checks _ hround _ _ ih =>
    intro keep hpool hkeep d hd hfailed
    have hrejected : ∀ d ∈ candidates, (round.rejected.any fun p => p == d.path) = true →
        Dropped files pieceLength pieces verificationPieces hashPiece candidates d := by
      intro d hd hany
      obtain ⟨p, hp, hsame⟩ := List.any_eq_true.1 hany
      rw [hround, hpool] at hp
      exact dropped_of_rejected hkeep hp hd hsame
    rw [neverRejected, Bool.not_eq_false', List.any_append, Bool.or_eq_true] at hfailed
    rcases hfailed with hfailed | hfailed
    · obtain ⟨check, hcheck, hfailed⟩ := List.any_eq_true.1 hfailed
      rw [Bool.and_eq_true, Bool.not_eq_true'] at hfailed
      rw [hround] at hcheck hrejected
      exact hrejected d hd (List.any_eq_true.2
        ⟨_, mem_roundOf_rejected.2 ⟨check, hcheck, hfailed.1, rfl⟩, hfailed.2⟩)
    · refine ih (fun c => (!round.rejected.any fun p => p == c.path) && keep c) ?_ ?_ d hd ?_
      · rw [hpool, List.filter_filter]
      · intro d hd hout
        rw [Bool.and_eq_false_iff, Bool.not_eq_false'] at hout
        rcases hout with hout | hout
        · exact hrejected d hd hout
        · exact hkeep d hd hout
      · rw [neverRejected, hfailed]
        rfl

/-- When nothing of a pool is wrong any more, what is to be dropped has been. -/
theorem Dropped.not_kept {candidates : List Candidate} {checks : List PieceCheck} {c : Candidate}
    (hnone : (roundOf files pieceLength pieces verificationPieces hashPiece
      (planMatches files (candidates.filter (neverRejected checks))).matched).rejected = [])
    (h : Dropped files pieceLength pieces verificationPieces hashPiece candidates c) :
    neverRejected checks c = false := by
  induction h with
  | @wrong before after c file hsplit hfile hsize _ hfails ih =>
    by_contra hkept
    rw [Bool.not_eq_false] at hkept
    have hpool : candidates.filter (neverRejected checks) =
        before.filter (neverRejected checks) ++ c :: after.filter (neverRejected checks) := by
      rw [hsplit, List.filter_append, List.filter_cons_of_pos hkept]
    obtain ⟨m, hplan, hpath, hsource⟩ := planFile_of_alone hpool hsize (fun d hd hrivals => by
      rw [← List.filter_append] at hd
      obtain ⟨hd, hdkept⟩ := List.mem_filter.1 hd
      rw [ih d hd hrivals] at hdkept
      cases hdkept)
    rw [← hsource] at hfails
    have hrejected := rejected_of_fails hfile hplan hfails
    rw [hnone] at hrejected
    cases hrejected
  | @same c d _ _ hsame ih =>
    rw [neverRejected, Bool.not_eq_false'] at ih ⊢
    obtain ⟨check, hcheck, hfailed⟩ := List.any_eq_true.1 ih
    rw [Bool.and_eq_true] at hfailed
    refine List.any_eq_true.2 ⟨check, hcheck, ?_⟩
    rw [Bool.and_eq_true]
    exact ⟨hfailed.1, PathBuf.beq_iff.2
      ((PathBuf.beq_iff.1 hfailed.2).trans (PathBuf.beq_iff.1 hsame))⟩

variable (files pieceLength pieces verificationPieces hashPiece) in
/-- Nothing is checked, and so nothing rejected or verified, where no piece is selected. -/
theorem roundOf_of_skipped (hskip : verificationPieces = 0 ∨ pieces = [])
    (matched : List FileMatch) :
    roundOf files pieceLength pieces verificationPieces hashPiece matched = ⟨[], [], []⟩ := by
  have hnone : ∀ path, checkedPieces files pieceLength pieces verificationPieces path = [] := by
    intro path
    cases hfile : files.findIdx? fun f => f.path = path with
    | none => exact checkedPieces_none hfile
    | some fileIndex =>
      rw [checkedPieces_some hfile]
      unfold selectPieces
      rw [if_pos]
      refine hskip.imp_right ?_
      rintro rfl
      rfl
  have houtcome : ∀ m, outcomeOfMatch files pieceLength pieces verificationPieces hashPiece m =
      (.unverified, []) := by
    intro m
    unfold outcomeOfMatch outcomeOfSource
    dsimp only
    rw [if_pos (hnone _)]
  simp [roundOf, houtcome]

variable (files pieceLength pieces verificationPieces hashPiece) in
/-- Verification is left with the choice among the candidates it keeps, which are those that are not
    to be dropped. -/
theorem verifyMatches_kept (candidates : List Candidate) :
    ∃ (keep : Candidate → Bool) (verified : List ℕ) (checks : List PieceCheck),
      verifyMatches (m := Id) hashPiece files candidates pieceLength pieces verificationPieces =
        ((planMatches files (candidates.filter keep)).raise verified, ⟨checks⟩) ∧
      ∀ c ∈ candidates, keep c = true ↔
        ¬ Dropped files pieceLength pieces verificationPieces hashPiece candidates c := by
  obtain ⟨k, checks, plan, hend, hrounds⟩ : ∃ k checks plan,
      verifyMatches (m := Id) hashPiece files candidates pieceLength pieces verificationPieces =
        (plan, ⟨checks⟩) ∧
      Rounds files pieceLength pieces verificationPieces hashPiece k candidates checks plan := by
    rcases verifyMatches_rounds files pieceLength pieces verificationPieces hashPiece candidates
      with ⟨hskip, hend⟩ | ⟨k, -, checks, plan, hend, hrounds⟩
    · refine ⟨1, [], _, hend, ?_⟩
      have hround := roundOf_of_skipped files pieceLength pieces verificationPieces hashPiece hskip
        (planMatches files candidates).matched
      have hrounds := Rounds.done rfl hround.symm rfl
      rwa [MatchPlan.raise_nil] at hrounds
    · exact ⟨k, checks, plan, hend, hrounds⟩
  obtain ⟨pool, rfl, rfl, hnone, -⟩ := hrounds.plan_eq
  refine ⟨neverRejected checks, _, checks, hend, fun c hc => ⟨fun hkept hdropped => ?_, fun hnot => ?_⟩⟩
  · rw [hdropped.not_kept hnone] at hkept
    cases hkept
  · by_contra hout
    refine hnot (hrounds.dropped_of_failed (fun _ => true) ?_ ?_ c hc (Bool.eq_false_iff.2 hout))
    · rw [List.filter_true]
    · intro d _ h
      cases h

variable (files pieceLength pieces verificationPieces hashPiece) in
/-- The candidates the last choice is among are those that are not to be dropped. -/
theorem verifyMatches_pool (candidates : List Candidate) : ∃ pool verified checks,
    verifyMatches (m := Id) hashPiece files candidates pieceLength pieces verificationPieces =
      ((planMatches files pool).raise verified, ⟨checks⟩) ∧
    ∀ c, c ∈ pool ↔ c ∈ candidates ∧
      ¬ Dropped files pieceLength pieces verificationPieces hashPiece candidates c := by
  obtain ⟨keep, verified, checks, hend, hkeep⟩ :=
    verifyMatches_kept files pieceLength pieces verificationPieces hashPiece candidates
  refine ⟨_, verified, checks, hend, fun c => ?_⟩
  rw [List.mem_filter]
  exact and_congr_right (hkeep c)

/-! ## Candidates whose paths have one size -/

variable (files pieceLength pieces verificationPieces hashPiece) in
/-- A candidate is the only one of its size with the name of a file it is wrong for. -/
def Misnamed (candidates : List Candidate) (c : Candidate) : Prop :=
  ∃ before after file, candidates = before ++ c :: after ∧ file ∈ files ∧
    c.sizeBytes = file.length ∧ Named c file ∧
    (∀ d ∈ before ++ after, d.sizeBytes = file.length → ¬ Named d file) ∧
    Fails files pieceLength pieces verificationPieces hashPiece file.path c.path

theorem Named.trans {c d : Candidate} {file file' : TorrentFile} (hc : Named c file)
    (hd : Named d file) (hd' : Named d file') : Named c file' := by
  unfold Named namesAgree at *
  rw [decide_eq_true_eq] at *
  exact hc.trans (hd.symm.trans hd')

/-- Of two candidates each is among the others of the other one. -/
theorem mem_others {candidates before after before' after' : List Candidate} {c d : Candidate}
    (hc : candidates = before ++ c :: after) (hd : candidates = before' ++ d :: after')
    (hother : d ∈ before ++ after) : c ∈ before' ++ after' := by
  by_cases hsame : c = d
  · subst hsame
    have hperm : (before ++ after).Perm (before' ++ after') := by
      refine (List.perm_cons c).1 (List.perm_middle.symm.trans (.trans ?_ List.perm_middle))
      rw [← hc, ← hd]
    exact hperm.mem_iff.1 hother
  · have hmem : c ∈ before' ++ d :: after' := by
      rw [← hd, hc]
      exact List.mem_append_right _ (List.mem_cons_self ..)
    simp only [List.mem_append, List.mem_cons] at hmem ⊢
    tauto

/-- Where the candidates of one path have one size, what is dropped is misnamed, or wrong and the
    only one of its size that is not misnamed. -/
theorem dropped_iff {candidates : List Candidate}
    (hsizes : ∀ c ∈ candidates, ∀ d ∈ candidates, (c.path == d.path) = true →
      c.sizeBytes = d.sizeBytes) {c : Candidate} :
    Dropped files pieceLength pieces verificationPieces hashPiece candidates c ↔
      Misnamed files pieceLength pieces verificationPieces hashPiece candidates c ∨
      ∃ before after file, candidates = before ++ c :: after ∧ file ∈ files ∧
        c.sizeBytes = file.length ∧
        (∀ d ∈ before ++ after, d.sizeBytes = file.length →
          Misnamed files pieceLength pieces verificationPieces hashPiece candidates d) ∧
        Fails files pieceLength pieces verificationPieces hashPiece file.path c.path := by
  have hmisnamed : ∀ {c}, Misnamed files pieceLength pieces verificationPieces hashPiece candidates c →
      Dropped files pieceLength pieces verificationPieces hashPiece candidates c := by
    rintro c ⟨before, after, file, hsplit, hfile, hsize, hnamed, halone, hfails⟩
    exact .wrong hsplit hfile hsize
      (fun d hd hrivals => absurd (hrivals.2 hnamed) (halone d hd hrivals.1)) hfails
  constructor
  · intro h
    induction h with
    | @wrong before after c file hsplit hfile hsize _ hfails ih =>
      have hrival : ∀ d ∈ before ++ after, Rivals c d file →
          Misnamed files pieceLength pieces verificationPieces hashPiece candidates d ∨
            Misnamed files pieceLength pieces verificationPieces hashPiece candidates c := by
        intro d hd hrivals
        rcases ih d hd hrivals with hmis | ⟨before', after', file', hsplit', -, hsize', hall, -⟩
        · exact .inl hmis
        · exact .inr (hall c (mem_others hsplit hsplit' hd)
            (hsize.trans (hrivals.1.symm.trans hsize')))
      by_cases hmis : Misnamed files pieceLength pieces verificationPieces hashPiece candidates c
      · exact .inl hmis
      by_cases hnamed : Named c file
      · -- a rival with the same name would not be misnamed, as this candidate has the name too
        refine .inl ⟨before, after, file, hsplit, hfile, hsize, hnamed, ?_, hfails⟩
        intro d hd hdsize hdnamed
        obtain ⟨before', after', file', hsplit', -, hsize', hnamed', halone', -⟩ :=
          (hrival d hd ⟨hdsize, fun _ => hdnamed⟩).resolve_right hmis
        exact halone' c (mem_others hsplit hsplit' hd) (hsize.trans (hdsize.symm.trans hsize'))
          (hnamed.trans hdnamed hnamed')
      · refine .inr ⟨before, after, file, hsplit, hfile, hsize, fun d hd hdsize => ?_, hfails⟩
        exact (hrival d hd ⟨hdsize, fun h => (hnamed h).elim⟩).resolve_right hmis
    | @same c d hc hd hsame ih =>
      have hdsize := hsizes c hc.mem d hd hsame
      have hname : c.fileName = d.fileName := by
        unfold Candidate.fileName
        rw [PathBuf.fileName_of_beq hsame]
      have hother : ∀ {before after}, candidates = before ++ c :: after →
          d = c ∨ d ∈ before ++ after := by
        intro before after hsplit
        rw [hsplit] at hd
        simp only [List.mem_append, List.mem_cons] at hd ⊢
        tauto
      rcases ih with ⟨before, after, file, hsplit, hfile, hsize, hnamed, halone, hfails⟩ |
        ⟨before, after, file, hsplit, hfile, hsize, hall, hfails⟩
      · rcases hother hsplit with rfl | hd'
        · exact .inl ⟨before, after, file, hsplit, hfile, hsize, hnamed, halone, hfails⟩
        · have hdnamed : Named d file := by
            unfold Named at hnamed ⊢
            rw [← hname]
            exact hnamed
          exact absurd hdnamed (halone d hd' (hdsize.symm.trans hsize))
      · rcases hother hsplit with rfl | hd'
        · exact .inr ⟨before, after, file, hsplit, hfile, hsize, hall, hfails⟩
        · exact .inl (hall d hd' (hdsize.symm.trans hsize))
  · rintro (hmis | ⟨before, after, file, hsplit, hfile, hsize, hall, hfails⟩)
    · exact hmisnamed hmis
    · exact .wrong hsplit hfile hsize (fun d hd hrivals => hmisnamed (hall d hd hrivals.1)) hfails

end

/-- That a file without a candidate has no correct one holds exactly when a file with a correct
    candidate keeps some candidate of its size. -/
theorem noCandidate_iff (hashPiece : PathBuf → ByteRange → Option Digest)
    (files : List TorrentFile) (candidates : List Candidate) (pieceLength : ℕ)
    (pieces : List PieceHash) (verificationPieces : ℕ) :
    (∀ unmatched ∈ (verifyMatches (m := Id) hashPiece files candidates pieceLength pieces
        verificationPieces).1.unmatched, unmatched.reason = .noCandidate →
      ∀ c ∈ candidates, c.sizeBytes = unmatched.length →
        ¬ Passes files pieceLength pieces verificationPieces hashPiece unmatched.torrentPath
          c.path) ↔
    ∀ file ∈ files, ∀ c ∈ candidates, c.sizeBytes = file.length →
      Passes files pieceLength pieces verificationPieces hashPiece file.path c.path →
        ∃ d ∈ candidates, d.sizeBytes = file.length ∧
          ¬ Dropped files pieceLength pieces verificationPieces hashPiece candidates d := by
  obtain ⟨pool, verified, checks, hend, hpool⟩ := verifyMatches_pool files pieceLength pieces
    verificationPieces hashPiece candidates
  have hunmatched : (verifyMatches (m := Id) hashPiece files candidates pieceLength pieces
      verificationPieces).1.unmatched = files.filterMap fun f => (planFile pool f).getRight? := by
    rw [hend]
    exact planMatches_unmatched files pool
  rw [hunmatched]
  constructor
  · intro hclaim file hfile c hc hsize hpasses
    by_contra hall
    have hnone : planFile pool file = .inr ⟨file.path, file.length, .noCandidate⟩ := by
      refine planFile_noCandidate.2 fun d hd hdsize => hall ?_
      obtain ⟨hd, hkept⟩ := (hpool d).1 hd
      exact ⟨d, hd, hdsize, hkept⟩
    exact hclaim ⟨file.path, file.length, .noCandidate⟩
      (List.mem_filterMap.2 ⟨file, hfile, by rw [hnone]; rfl⟩) rfl c hc hsize hpasses
  · intro hkeeps unmatched hmem hreason c hc hsize hpasses
    obtain ⟨file, hfile, hplan⟩ := List.mem_filterMap.1 hmem
    have hplan := Sum.getRight?_eq_some_iff.1 hplan
    obtain ⟨hpath, hlength⟩ := planFile_inr hplan
    obtain ⟨d, hd, hdsize, hkept⟩ := hkeeps file hfile c hc (hsize.trans hlength) (hpath ▸ hpasses)
    refine planFile_noCandidate.1 ?_ d ((hpool d).2 ⟨hd, hkept⟩) hdsize
    rw [hplan, ← hpath, ← hlength, ← hreason]

/-- A torrent of two files of five bytes, one piece each. -/
def swappedFiles : List TorrentFile :=
  [⟨.ofComponent "a.bin" (by decide), 5⟩, ⟨.ofComponent "b.bin" (by decide), 5⟩]

def swappedHashes : List PieceHash := [⟨helloHash⟩, ⟨worldHash⟩]

/-- The library's files of their size. -/
def swappedLibrary : List Candidate :=
  [⟨.ofString "/l/a.bin", 5, .filesystem (.ofString "/l")⟩,
    ⟨.ofString "/l/b.bin", 5, .filesystem (.ofString "/l")⟩]

/-- What the library has under the two names. -/
def swappedContents (path : PathBuf) : Option (List UInt8) :=
  if path = .ofString "/l/a.bin" then some world
  else if path = .ofString "/l/b.bin" then some hello
  else none

/-- Two files of one size stored under each other's names: both are told that there is no candidate,
    and each has a correct one. -/
theorem swapped_noCandidate : ¬ ∀ (sha1 : List UInt8 → Digest)
    (contents : PathBuf → Option (List UInt8)) (files : List TorrentFile)
    (candidates : List Candidate) (pieceLength : ℕ) (pieces : List PieceHash)
    (verificationPieces : ℕ),
    ∀ unmatched ∈ (verifyMatches (m := Id) (readAndHash sha1 contents) files candidates pieceLength
        pieces verificationPieces).1.unmatched, unmatched.reason = .noCandidate →
      ∀ c ∈ candidates, c.sizeBytes = unmatched.length →
        ¬ Passes files pieceLength pieces verificationPieces (readAndHash sha1 contents)
          unmatched.torrentPath c.path := by
  intro hclaim
  refine hclaim knownHash swappedContents swappedFiles swappedLibrary 5 swappedHashes 1
    ⟨.ofComponent "a.bin" (by decide), 5, .noCandidate⟩ (by decide +kernel) rfl
    ⟨.ofString "/l/b.bin", 5, .filesystem (.ofString "/l")⟩ (by decide +kernel) rfl ?_
  have hpasses : ∀ pieceIndex ∈ checkedPieces swappedFiles 5 swappedHashes 1
      (.ofComponent "a.bin" (by decide)), pieceMatches swappedFiles 5 swappedHashes
        (readAndHash knownHash swappedContents) (.ofComponent "a.bin" (by decide))
        (.ofString "/l/b.bin") pieceIndex = some true := by
    decide +kernel
  exact hpasses

end SeedMedic
