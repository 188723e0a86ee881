/-
  What a plan owes to the union of candidates it is made from: the order they are offered in, and
  entries for a file that is offered twice.
-/
import SeedMedic.Lib.Sorting
import SeedMedic.Library.VerificationPool

namespace SeedMedic

open Lib

/-! ## The four ways to decide on a file -/

instance : Std.Total fun a b : Candidate => a.path.le b.path = true :=
  ⟨fun a b => by
    simp only [PathBuf.le, decide_eq_true_eq]
    exact le_total a.path.sortKey b.path.sortKey⟩

instance : IsTrans Candidate fun a b => a.path.le b.path = true :=
  ⟨fun a b c hab hbc => by
    simp only [PathBuf.le, decide_eq_true_eq] at hab hbc ⊢
    exact hab.trans hbc⟩

/-- Neither of two paths comes before the other when they spell the same components. -/
theorem PathBuf.le_and_le_iff {p q : PathBuf} :
    p.le q = true ∧ q.le p = true ↔ (p == q) = true := by
  rw [PathBuf.beq_iff]
  simp only [PathBuf.le, decide_eq_true_eq]
  exact le_antisymm_iff.symm

/-- The candidates of the file's size whose name agrees with the file's. -/
def namedCandidates (candidates : List Candidate) (file : TorrentFile) : List Candidate :=
  (sizedCandidates candidates file).filter fun c => namesAgree c.fileName (wantedName file.path)

/-- Several candidates have the file's size, and their names do not tell which is meant. -/
def Undecided (candidates : List Candidate) (file : TorrentFile) : Prop :=
  2 ≤ (sizedCandidates candidates file).length ∧ (namedCandidates candidates file).length ≠ 1

section
variable {candidates candidates' : List Candidate} {file : TorrentFile} {c : Candidate}

/-- What is recorded of a candidate that is chosen. -/
def pick (file : TorrentFile) (c : Candidate) (confidence : MatchConfidence) (sized : ℕ) :
    FileMatch where
  torrentPath := file.path
  length := file.length
  source := c.path
  origin := c.origin
  confidence := confidence
  evidence := ⟨true, namesAgree c.fileName (wantedName file.path), sized, false⟩

theorem planFile_of_none (h : sizedCandidates candidates file = []) :
    planFile candidates file = .inr ⟨file.path, file.length, .noCandidate⟩ := by
  unfold planFile
  dsimp only
  rw [h]

theorem planFile_of_oneNamed (h : namedCandidates candidates file = [c]) :
    planFile candidates file =
      .inl (pick file c .probable (sizedCandidates candidates file).length) := by
  unfold namedCandidates at h
  unfold planFile
  dsimp only
  rw [h]
  cases hsized : sizedCandidates candidates file with
  | nil =>
    rw [hsized] at h
    cases h
  | cons a as => rfl

theorem planFile_of_oneSized (h : sizedCandidates candidates file = [c])
    (hnamed : namedCandidates candidates file = []) :
    planFile candidates file = .inl (pick file c .ambiguous 1) := by
  unfold namedCandidates at hnamed
  unfold planFile
  dsimp only
  rw [hnamed, h]
  rfl

theorem planFile_of_undecided (h : Undecided candidates file) :
    planFile candidates file = .inr ⟨file.path, file.length,
      .ambiguous ((sizedCandidates candidates file).map .ofCandidate)⟩ := by
  obtain ⟨hsized, hnamed⟩ := h
  unfold namedCandidates at hnamed
  unfold planFile
  dsimp only
  split
  · rename_i hnil
    rw [hnil] at hsized
    exact absurd hsized (by decide)
  · rename_i hone _
    rw [hone] at hnamed
    exact absurd rfl hnamed
  · rename_i honly _
    rw [honly] at hsized
    exact absurd hsized (by simp)
  · rfl

/-- One of the four is the case of every file. -/
theorem sized_cases (candidates : List Candidate) (file : TorrentFile) :
    sizedCandidates candidates file = [] ∨ (∃ c, namedCandidates candidates file = [c]) ∨
      (∃ c, sizedCandidates candidates file = [c] ∧ namedCandidates candidates file = []) ∨
      Undecided candidates file := by
  by_cases hnamed : (namedCandidates candidates file).length = 1
  · exact .inr (.inl (List.length_eq_one_iff.1 hnamed))
  match hsized : sizedCandidates candidates file with
  | [] => exact .inl rfl
  | [c] =>
    have hle : (namedCandidates candidates file).length ≤ 1 := by
      rw [namedCandidates, hsized]
      exact List.length_filter_le _ _
    exact .inr (.inr (.inl ⟨c, rfl, List.length_eq_zero_iff.1 (by omega)⟩))
  | a :: b :: cs => exact .inr (.inr (.inr ⟨by rw [hsized]; simp, hnamed⟩))

/-! ## The order of the candidates -/

theorem sizedCandidates_perm_of (h : candidates'.Perm candidates) :
    (sizedCandidates candidates' file).Perm (sizedCandidates candidates file) :=
  ((sizedCandidates_perm _ _).trans (h.filter _)).trans (sizedCandidates_perm _ _).symm

theorem namedCandidates_perm_of (h : candidates'.Perm candidates) :
    (namedCandidates candidates' file).Perm (namedCandidates candidates file) :=
  (sizedCandidates_perm_of h).filter _

theorem Undecided.perm (hundecided : Undecided candidates file) (h : candidates'.Perm candidates) :
    Undecided candidates' file := by
  unfold Undecided
  rw [(sizedCandidates_perm_of h).length_eq, (namedCandidates_perm_of h).length_eq]
  exact hundecided

/-- The order does not show in a file that is decided. -/
theorem planFile_perm (h : candidates'.Perm candidates) (hdecided : ¬ Undecided candidates file) :
    planFile candidates' file = planFile candidates file := by
  have hsized : (sizedCandidates candidates' file).Perm (sizedCandidates candidates file) :=
    sizedCandidates_perm_of h
  have hnamed : (namedCandidates candidates' file).Perm (namedCandidates candidates file) :=
    namedCandidates_perm_of h
  rcases sized_cases candidates file with hnone | ⟨c, hone⟩ | ⟨c, honly, hnil⟩ | hundecided
  · rw [planFile_of_none hnone, planFile_of_none (List.perm_nil.1 (hsized.trans (.of_eq hnone)))]
  · rw [planFile_of_oneNamed hone,
      planFile_of_oneNamed (List.perm_singleton.1 (hnamed.trans (.of_eq hone))), hsized.length_eq]
  · rw [planFile_of_oneSized honly hnil,
      planFile_of_oneSized (List.perm_singleton.1 (hsized.trans (.of_eq honly)))
        (List.perm_nil.1 (hnamed.trans (.of_eq hnil)))]
  · exact absurd hundecided hdecided

/-- The order of an undecided file's candidates shows in what is offered for it. -/
theorem planFile_perm_iff (hundecided : Undecided candidates file) :
    (∀ candidates' : List Candidate, candidates'.Perm candidates →
        planFile candidates' file = planFile candidates file) ↔
      ∀ a ∈ candidates, ∀ b ∈ candidates, a.sizeBytes = file.length → b.sizeBytes = file.length →
        (a.path == b.path) = true → CandidateSummary.ofCandidate a = .ofCandidate b := by
  have hsort := map_insertionSort_perm_iff (r := fun a b : Candidate => a.path.le b.path = true)
    (f := CandidateSummary.ofCandidate) (candidates.filter fun c => c.sizeBytes = file.length)
  have hright : (∀ a ∈ candidates, ∀ b ∈ candidates, a.sizeBytes = file.length →
      b.sizeBytes = file.length → (a.path == b.path) = true →
        CandidateSummary.ofCandidate a = .ofCandidate b) ↔
      ∀ a ∈ candidates.filter (fun c => c.sizeBytes = file.length),
        ∀ b ∈ candidates.filter (fun c => c.sizeBytes = file.length), a.path.le b.path = true →
          b.path.le a.path = true → CandidateSummary.ofCandidate a = .ofCandidate b := by
    simp only [List.mem_filter, decide_eq_true_eq, ← PathBuf.le_and_le_iff]
    exact ⟨fun h a ha b hb hab hba => h a ha.1 b hb.1 ha.2 hb.2 ⟨hab, hba⟩,
      fun h a ha b hb hasize hbsize hsame => h a ⟨ha, hasize⟩ b ⟨hb, hbsize⟩ hsame.1 hsame.2⟩
  rw [hright, ← hsort]
  constructor
  · intro h l' hl'
    -- put the entries of other sizes behind any order of those of the file's size
    let others := candidates.filter fun c => ! decide (c.sizeBytes = file.length)
    have hperm : (l' ++ others).Perm candidates :=
      (hl'.append_right others).trans (List.filter_append_perm _ candidates)
    have hsized : sizedCandidates (l' ++ others) file =
        l'.insertionSort fun a b => a.path.le b.path = true := by
      rw [sizedCandidates, List.filter_append, List.filter_eq_self.2, List.filter_eq_nil_iff.2,
        List.append_nil]
      · intro c hc
        simpa using (List.mem_filter.1 hc).2
      · intro c hc
        exact (List.mem_filter.1 (hl'.mem_iff.1 hc)).2
    have heq := h _ hperm
    rw [planFile_of_undecided hundecided, planFile_of_undecided (hundecided.perm hperm), hsized] at heq
    simpa [sizedCandidates] using heq
  · intro h candidates' hperm
    rw [planFile_of_undecided hundecided, planFile_of_undecided (hundecided.perm hperm)]
    have heq := h _ (hperm.filter fun c => c.sizeBytes = file.length)
    unfold sizedCandidates
    rw [heq]

/-- Which files are matched does not depend on the order. -/
theorem isSome_unmatched_perm (h : candidates'.Perm candidates) (file : TorrentFile) :
    (planFile candidates' file).getRight?.isSome = (planFile candidates file).getRight?.isSome := by
  by_cases hundecided : Undecided candidates file
  · rw [planFile_of_undecided hundecided, planFile_of_undecided (hundecided.perm h)]
    rfl
  · rw [planFile_perm h hundecided]

end

section
variable (files : List TorrentFile) (candidates : List Candidate)

/-- The plan does not depend on the order the candidates come in exactly when the entries of one
    path that are offered for an undecided file are offered alike. -/
theorem planMatches_perm_iff :
    (∀ candidates' : List Candidate, candidates'.Perm candidates →
        planMatches files candidates' = planMatches files candidates) ↔
      ∀ file ∈ files, Undecided candidates file → ∀ a ∈ candidates, ∀ b ∈ candidates,
        a.sizeBytes = file.length → b.sizeBytes = file.length → (a.path == b.path) = true →
          CandidateSummary.ofCandidate a = .ofCandidate b := by
  constructor
  · intro h file hfile hundecided
    refine (planFile_perm_iff hundecided).1 fun candidates' hperm => ?_
    have hunmatched := congrArg MatchPlan.unmatched (h candidates' hperm)
    rw [planMatches_unmatched, planMatches_unmatched] at hunmatched
    have hsame := (filterMap_eq_iff_of_isSome fun f _ => isSome_unmatched_perm hperm f).1
      hunmatched file hfile
    rw [planFile_of_undecided hundecided, planFile_of_undecided (hundecided.perm hperm)] at hsame ⊢
    exact congrArg Sum.inr (Option.some.inj hsame)
  · intro h candidates' hperm
    have hfile : ∀ file ∈ files, planFile candidates' file = planFile candidates file := by
      intro file hfile
      by_cases hundecided : Undecided candidates file
      · exact (planFile_perm_iff hundecided).2 (h file hfile hundecided) candidates' hperm
      · exact planFile_perm hperm hundecided
    have hmatched : files.filterMap (fun f => (planFile candidates' f).getLeft?) =
        files.filterMap fun f => (planFile candidates f).getLeft? :=
      List.filterMap_congr fun f hf => by rw [hfile f hf]
    have hunmatched : files.filterMap (fun f => (planFile candidates' f).getRight?) =
        files.filterMap fun f => (planFile candidates f).getRight? :=
      List.filterMap_congr fun f hf => by rw [hfile f hf]
    rw [planMatches, planMatches, foldl_push, foldl_push, hmatched, hunmatched]

end

/-- A file of five bytes in a torrent. -/
def pilot : TorrentFile := ⟨.ofComponent "pilot.mkv" (by decide), 5⟩

/-- The library file that two sources report. -/
def reported (origin : CandidateOrigin) : Candidate := ⟨.ofString "/m/pilot.mkv", 5, origin⟩

theorem reported_named (origin : CandidateOrigin) : Named (reported origin) pilot := by
  show namesAgree (reported (.sonarr "")).fileName (wantedName pilot.path) = true
  decide +kernel

theorem pilot_undecided (a b : CandidateOrigin) : Undecided [reported a, reported b] pilot := by
  have hsized := sizedCandidates_perm [reported a, reported b] pilot
  rw [List.filter_eq_self.2 (by simp [reported, pilot])] at hsized
  have hnamed : (namedCandidates [reported a, reported b] pilot).Perm [reported a, reported b] := by
    refine (hsized.filter _).trans (.of_eq (List.filter_eq_self.2 fun c hc => ?_))
    rcases List.mem_pair.1 hc with rfl | rfl
    · exact reported_named a
    · exact reported_named b
  refine ⟨hsized.length_eq.ge, ?_⟩
  rw [hnamed.length_eq]
  exact Nat.succ_ne_self 1

/-- The reports come in the order of the sources. -/
theorem reported_order : ¬ ∀ (files : List TorrentFile) (candidates candidates' : List Candidate),
    candidates'.Perm candidates → planMatches files candidates' = planMatches files candidates := by
  intro hclaim
  have hsame := (planMatches_perm_iff [pilot] _).1 (hclaim [pilot] _) pilot (List.mem_singleton_self _)
    (pilot_undecided (.sonarr "main") (.filesystem (.ofString "/m"))) _ (List.mem_cons_self ..) _
    (List.mem_cons_of_mem _ (List.mem_singleton_self _)) rfl rfl (PathBuf.beq_iff.2 rfl)
  cases congrArg CandidateSummary.origin hsame

/-! ## Files that are offered twice -/

/-- Further entries for library files that a list of candidates has already. -/
def Repeats (candidates extra : List Candidate) : Prop :=
  ∀ e ∈ extra, ∃ c ∈ candidates, (e.path == c.path) = true ∧ e.sizeBytes = c.sizeBytes

/-- What a file is matched with and how surely. -/
def FileMatch.choice (m : FileMatch) : SafeRelativePath × PathBuf × MatchConfidence :=
  (m.torrentPath, m.source, m.confidence)

/-- What every file of a plan is matched with. -/
def MatchPlan.choices (p : MatchPlan) : List (SafeRelativePath × PathBuf × MatchConfidence) :=
  p.matched.map FileMatch.choice

/-- What one file is matched with, if it is. -/
def choiceOf (candidates : List Candidate) (file : TorrentFile) :
    Option (SafeRelativePath × PathBuf × MatchConfidence) :=
  (planFile candidates file).getLeft?.map FileMatch.choice

/-- No further entry is for a library file that is chosen: for the only one of the file's size, or
    the only one of those whose name agrees. -/
def LeavesChoice (candidates extra : List Candidate) (file : TorrentFile) : Prop :=
  ∀ e ∈ extra, e.sizeBytes = file.length → (sizedCandidates candidates file).length ≠ 1 ∧
    ((namedCandidates candidates file).length = 1 → ¬ Named e file)

theorem choices_eq (files : List TorrentFile) (candidates : List Candidate) :
    (planMatches files candidates).choices = files.filterMap (choiceOf candidates) := by
  rw [MatchPlan.choices, planMatches_matched, List.map_filterMap]
  rfl

/-- A list with two different places in it has two entries. -/
theorem two_le_length_append {α : Type} {as bs : List α} (ha : as ≠ []) (hb : bs ≠ []) :
    2 ≤ (as ++ bs).length := by
  have := List.length_pos_iff.2 ha
  have := List.length_pos_iff.2 hb
  rw [List.length_append]
  omega

section
variable {candidates candidates' extra : List Candidate} {file : TorrentFile}

/-- The entries of a file's size are those there were and the further ones. -/
theorem sizedCandidates_append (h : candidates'.Perm (candidates ++ extra)) :
    (sizedCandidates candidates' file).Perm
      (sizedCandidates candidates file ++ sizedCandidates extra file) := by
  refine (sizedCandidates_perm_of h).trans ((sizedCandidates_perm _ _).trans ?_)
  rw [List.filter_append]
  exact (sizedCandidates_perm _ _).symm.append (sizedCandidates_perm _ _).symm

theorem namedCandidates_append (h : candidates'.Perm (candidates ++ extra)) :
    (namedCandidates candidates' file).Perm
      (namedCandidates candidates file ++ namedCandidates extra file) := by
  refine ((sizedCandidates_append h).filter _).trans (.of_eq ?_)
  rw [List.filter_append]
  rfl

/-- A further entry repeats one of its size, and its name agrees when that one's does. -/
theorem Repeats.exists_sized (h : Repeats candidates extra) {e : Candidate}
    (he : e ∈ sizedCandidates extra file) :
    ∃ c ∈ sizedCandidates candidates file, Named e file ↔ Named c file := by
  obtain ⟨hmem, hsize⟩ := mem_sizedCandidates.1 he
  obtain ⟨c, hc, hpath, hsame⟩ := h e hmem
  have hname : e.fileName = c.fileName := by
    rw [Candidate.fileName, Candidate.fileName, PathBuf.fileName_of_beq hpath]
  refine ⟨c, mem_sizedCandidates.2 ⟨hc, hsame.symm.trans hsize⟩, ?_⟩
  rw [Named, Named, hname]

theorem choiceOf_of_undecided (h : Undecided candidates file) : choiceOf candidates file = none := by
  rw [choiceOf, planFile_of_undecided h]
  rfl

theorem choiceOf_of_oneNamed {c : Candidate} (h : namedCandidates candidates file = [c]) :
    choiceOf candidates file = some (file.path, c.path, .probable) := by
  rw [choiceOf, planFile_of_oneNamed h]
  rfl

theorem choiceOf_of_oneSized {c : Candidate} (h : sizedCandidates candidates file = [c])
    (hnamed : namedCandidates candidates file = []) :
    choiceOf candidates file = some (file.path, c.path, .ambiguous) := by
  rw [choiceOf, planFile_of_oneSized h hnamed]
  rfl

theorem choiceOf_of_none (h : sizedCandidates candidates file = []) :
    choiceOf candidates file = none := by
  rw [choiceOf, planFile_of_none h]
  rfl

/-- A choice depends on the entries of the file's size, in any order. -/
theorem choiceOf_congr
    (hsized : (sizedCandidates candidates' file).Perm (sizedCandidates candidates file)) :
    choiceOf candidates' file = choiceOf candidates file := by
  have hnamed : (namedCandidates candidates' file).Perm (namedCandidates candidates file) :=
    hsized.filter _
  rcases sized_cases candidates file with hnone | ⟨c, hone⟩ | ⟨c, honly, hnil⟩ | hundecided
  · rw [choiceOf_of_none hnone, choiceOf_of_none (List.perm_nil.1 (hsized.trans (.of_eq hnone)))]
  · rw [choiceOf_of_oneNamed hone,
      choiceOf_of_oneNamed (List.perm_singleton.1 (hnamed.trans (.of_eq hone)))]
  · rw [choiceOf_of_oneSized honly hnil,
      choiceOf_of_oneSized (List.perm_singleton.1 (hsized.trans (.of_eq honly)))
        (List.perm_nil.1 (hnamed.trans (.of_eq hnil)))]
  · rw [choiceOf_of_undecided hundecided, choiceOf_of_undecided]
    exact ⟨hsized.length_eq ▸ hundecided.1, hnamed.length_eq ▸ hundecided.2⟩

/-- A further entry of the only one of the file's size and name leaves the file undecided. -/
theorem undecided_of_named {c : Candidate} (hperm : candidates'.Perm (candidates ++ extra))
    (hone : namedCandidates candidates file = [c]) (hextra : namedCandidates extra file ≠ []) :
    Undecided candidates' file := by
  have hnamed := two_le_length_append (hone ▸ List.cons_ne_nil c []) hextra
  rw [← (namedCandidates_append hperm).length_eq] at hnamed
  exact ⟨hnamed.trans (List.length_filter_le _ _), by omega⟩

/-- A further entry of the only one of the file's size leaves the file undecided, since its name
    does not agree either. -/
theorem undecided_of_sized {c : Candidate} (h : Repeats candidates extra)
    (hperm : candidates'.Perm (candidates ++ extra)) (honly : sizedCandidates candidates file = [c])
    (hnil : namedCandidates candidates file = []) (hextra : sizedCandidates extra file ≠ []) :
    Undecided candidates' file := by
  have hsized := two_le_length_append (honly ▸ List.cons_ne_nil c []) hextra
  rw [← (sizedCandidates_append hperm).length_eq] at hsized
  have hnone : namedCandidates extra file = [] := by
    refine List.eq_nil_iff_forall_not_mem.2 fun e he => ?_
    obtain ⟨hmem, hagrees⟩ := List.mem_filter.1 he
    obtain ⟨d, hd, hsame⟩ := h.exists_sized hmem
    have : d ∈ namedCandidates candidates file := List.mem_filter.2 ⟨hd, hsame.1 hagrees⟩
    rw [hnil] at this
    exact List.not_mem_nil this
  refine ⟨hsized, ?_⟩
  rw [(namedCandidates_append hperm).length_eq, hnil, hnone]
  exact Nat.zero_ne_one

/-- An undecided file stays undecided. -/
theorem Undecided.append (hundecided : Undecided candidates file) (h : Repeats candidates extra)
    (hperm : candidates'.Perm (candidates ++ extra)) : Undecided candidates' file := by
  obtain ⟨hsized, hnamed⟩ := hundecided
  rw [Undecided, (sizedCandidates_append hperm).length_eq, (namedCandidates_append hperm).length_eq,
    List.length_append, List.length_append]
  refine ⟨by omega, fun hone => hnamed ?_⟩
  -- the one whose name agrees would repeat one whose name agrees
  by_cases hextra : namedCandidates extra file = []
  · rw [hextra] at hone
    exact hone
  · obtain ⟨e, he⟩ := List.exists_mem_of_ne_nil _ hextra
    obtain ⟨hmem, hagrees⟩ := List.mem_filter.1 he
    obtain ⟨d, hd, hsame⟩ := h.exists_sized hmem
    have := List.length_pos_of_mem he
    have := List.length_pos_of_mem
      (show d ∈ namedCandidates candidates file from List.mem_filter.2 ⟨hd, hsame.1 hagrees⟩)
    omega

/-- A further entry withdraws the choice for a file or leaves it. -/
theorem choiceOf_append (h : Repeats candidates extra)
    (hperm : candidates'.Perm (candidates ++ extra)) (file : TorrentFile) :
    LeavesChoice candidates extra file ∧ choiceOf candidates' file = choiceOf candidates file ∨
      ¬ LeavesChoice candidates extra file ∧ choiceOf candidates' file = none ∧
        choiceOf candidates file ≠ none := by
  have hleaves : LeavesChoice candidates extra file ↔ ∀ e ∈ sizedCandidates extra file,
      (sizedCandidates candidates file).length ≠ 1 ∧
        ((namedCandidates candidates file).length = 1 → ¬ Named e file) := by
    simp only [LeavesChoice, mem_sizedCandidates, and_imp]
  rw [hleaves]
  by_cases hextra : sizedCandidates extra file = []
  · refine .inl ⟨by simp [hextra], choiceOf_congr ((sizedCandidates_append hperm).trans (.of_eq ?_))⟩
    rw [hextra, List.append_nil]
  obtain ⟨e, he⟩ := List.exists_mem_of_ne_nil _ hextra
  rcases sized_cases candidates file with hnone | ⟨c, hone⟩ | ⟨c, honly, hnil⟩ | hundecided
  · obtain ⟨d, hd, -⟩ := h.exists_sized he
    rw [hnone] at hd
    exact absurd hd List.not_mem_nil
  · by_cases hnamed : namedCandidates extra file = []
    · have hsame := (namedCandidates_append hperm).trans (.of_eq (by rw [hone, hnamed, List.append_nil]))
      rw [choiceOf_of_oneNamed hone, choiceOf_of_oneNamed (List.perm_singleton.1 hsame)]
      have hdisagree : ∀ e ∈ sizedCandidates extra file, ¬ Named e file :=
        fun e he => List.filter_eq_nil_iff.1 hnamed e he
      refine .inl ⟨fun e he => ⟨fun hlength => ?_, fun _ => hdisagree e he⟩, rfl⟩
      -- the only one of the size is the one whose name agrees
      obtain ⟨d, hd⟩ := List.length_eq_one_iff.1 hlength
      obtain ⟨d', hd', hagrees⟩ := h.exists_sized he
      obtain ⟨hc, hcnamed⟩ := List.mem_filter.1 (hone ▸ List.mem_singleton_self c :
        c ∈ namedCandidates candidates file)
      rw [hd, List.mem_singleton] at hc hd'
      exact hdisagree e he (hagrees.2 (by rw [hd', ← hc]; exact hcnamed))
    · obtain ⟨e, he⟩ := List.exists_mem_of_ne_nil _ hnamed
      obtain ⟨hmem, hagrees⟩ := List.mem_filter.1 he
      refine .inr ⟨fun hall => (hall e hmem).2 (by rw [hone]; rfl) hagrees, ?_, ?_⟩
      · exact choiceOf_of_undecided (undecided_of_named hperm hone hnamed)
      · rw [choiceOf_of_oneNamed hone]
        exact Option.some_ne_none _
  · refine .inr ⟨fun hall => (hall e he).1 (by rw [honly]; rfl), ?_, ?_⟩
    · exact choiceOf_of_undecided (undecided_of_sized h hperm honly hnil hextra)
    · rw [choiceOf_of_oneSized honly hnil]
      exact Option.some_ne_none _
  · have hlong := hundecided.1
    refine .inl ⟨fun e _ => ⟨by omega, fun hlength => absurd hlength hundecided.2⟩, ?_⟩
    rw [choiceOf_of_undecided hundecided, choiceOf_of_undecided (hundecided.append h hperm)]

end

/-- Entries that repeat library files leave what is matched with what, and how surely, exactly when
    they repeat none that is chosen. -/
theorem choices_append_iff {files : List TorrentFile} {candidates candidates' extra : List Candidate}
    (h : Repeats candidates extra) (hperm : candidates'.Perm (candidates ++ extra)) :
    (planMatches files candidates').choices = (planMatches files candidates).choices ↔
      ∀ file ∈ files, LeavesChoice candidates extra file := by
  rw [choices_eq, choices_eq, filterMap_eq_iff_of_withdrawn fun file _ => ?_]
  · refine forall₂_congr fun file _ => ?_
    rcases choiceOf_append h hperm file with ⟨hleaves, hsame⟩ | ⟨hnot, hnone, hsome⟩
    · exact iff_of_true hsame hleaves
    · exact iff_of_false (fun heq => hsome (heq.symm.trans hnone)) hnot
  · rcases choiceOf_append h hperm file with ⟨-, hsame⟩ | ⟨-, hnone, -⟩
    · exact .inl hsame
    · exact .inr hnone

/-- A library file of another size. -/
def bonus (origin : CandidateOrigin) : Candidate := ⟨.ofString "/m/bonus.mkv", 7, origin⟩

/-- A file of another size that two sources report stands in nobody's way. -/
theorem bonus_twice :
    (planMatches [pilot] ([reported (.sonarr "main"), bonus (.sonarr "main")] ++
      [bonus (.filesystem (.ofString "/m"))])).choices =
    (planMatches [pilot] [reported (.sonarr "main"), bonus (.sonarr "main")]).choices := by
  refine (choices_append_iff ?_ (List.Perm.refl _)).2 fun file hfile e he hsize => ?_
  · intro e he
    rw [List.mem_singleton.1 he]
    exact ⟨bonus (.sonarr "main"), by simp, PathBuf.beq_iff.2 rfl, rfl⟩
  · rw [List.mem_singleton.1 hfile, List.mem_singleton.1 he] at hsize
    exact absurd hsize (by decide)

/-- A file that two sources report is matched when only one of them does. -/
theorem reported_twice : ¬ ∀ (files : List TorrentFile) (candidates candidates' extra : List Candidate),
    Repeats candidates extra → candidates'.Perm (candidates ++ extra) →
      (planMatches files candidates').choices = (planMatches files candidates).choices := by
  intro hclaim
  have hrepeats : Repeats [reported (.sonarr "main")] [reported (.filesystem (.ofString "/m"))] := by
    intro e he
    rw [List.mem_singleton.1 he]
    exact ⟨_, List.mem_singleton_self _, PathBuf.beq_iff.2 rfl, rfl⟩
  have hsame := hclaim [pilot] _ _ _ hrepeats (List.Perm.refl _)
  have hleaves := (choices_append_iff hrepeats (List.Perm.refl _)).1 hsame pilot
    (List.mem_singleton_self _) _ (List.mem_singleton_self _) rfl
  exact hleaves.1 (sizedCandidates_perm [reported (.sonarr "main")] pilot).length_eq

end SeedMedic
