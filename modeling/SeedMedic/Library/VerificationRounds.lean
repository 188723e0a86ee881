/-
  How the rounds of a verification end: what is checked of a match, what a round comes to, and the
  pool that shrinks from round to round.
-/
import SeedMedic.Library.VerificationSpec

namespace SeedMedic

open Lib

section
variable (files : List TorrentFile) (pieceLength : ℕ) (pieces : List PieceHash)
  (verificationPieces : ℕ)

/-- The pieces that are checked of the file at a path. -/
def checkedPieces (path : SafeRelativePath) : List ℕ :=
  match files.findIdx? fun f => f.path = path with
  | none => []
  | some fileIndex =>
    selectPieces (piecesWithinFile (fileByteRange files fileIndex) pieceLength pieces.length
      (wsum (files.map (·.length)))) verificationPieces

/-- Where in a candidate for the file at a path a piece is looked for. -/
def checkedRange (path : SafeRelativePath) (pieceIndex : ℕ) : ByteRange :=
  let fileRange := fileByteRange files ((files.findIdx? fun f => f.path = path).getD 0)
  let pieceRange := pieceByteRange pieceIndex pieceLength (wsum (files.map (·.length)))
  ⟨wsub pieceRange.start fileRange.start, wsub pieceRange.stop fileRange.start⟩

variable (hashPiece : PathBuf → ByteRange → Option Digest)

/-- What the check of a piece of the file at a path says of a source; nothing when it cannot be
    read. -/
def pieceMatches (path : SafeRelativePath) (source : PathBuf) (pieceIndex : ℕ) : Option Bool :=
  (hashPiece source (checkedRange files pieceLength path pieceIndex)).map fun digest =>
    decide (pieces[pieceIndex]? = some ⟨digest⟩)

/-- How checking pieces of a source one after the other ends, with the checks that were made. -/
def checkSource (path : SafeRelativePath) (source : PathBuf) :
    List ℕ → FileOutcome × List PieceCheck
  | [] => (.verified, [])
  | pieceIndex :: rest =>
    match pieceMatches files pieceLength pieces hashPiece path source pieceIndex with
    | none => (.unverified, [])
    | some false => (.rejected, [⟨path, source, pieceIndex, false⟩])
    | some true =>
      let (outcome, checks) := checkSource path source rest
      (outcome, ⟨path, source, pieceIndex, true⟩ :: checks)

/-- What becomes of a source as the match of the file at a path. -/
def outcomeOfSource (path : SafeRelativePath) (source : PathBuf) : FileOutcome × List PieceCheck :=
  let chosen := checkedPieces files pieceLength pieces verificationPieces path
  if chosen = [] then (.unverified, [])
  else checkSource files pieceLength pieces hashPiece path source chosen

end

section
variable {files : List TorrentFile} {pieceLength : ℕ} {pieces : List PieceHash}
  {verificationPieces : ℕ} {hashPiece : PathBuf → ByteRange → Option Digest}
  {path : SafeRelativePath} {source : PathBuf}

/-! ## One source -/

theorem checkedPieces_none (hfile : (files.findIdx? fun f => f.path = path) = none) :
    checkedPieces files pieceLength pieces verificationPieces path = [] := by
  rw [checkedPieces, hfile]

theorem checkedPieces_some {fileIndex : ℕ}
    (hfile : (files.findIdx? fun f => f.path = path) = some fileIndex) :
    checkedPieces files pieceLength pieces verificationPieces path =
      selectPieces (piecesWithinFile (fileByteRange files fileIndex) pieceLength pieces.length
        (wsum (files.map (·.length)))) verificationPieces := by
  rw [checkedPieces, hfile]

theorem checkedRange_some {fileIndex pieceIndex : ℕ}
    (hfile : (files.findIdx? fun f => f.path = path) = some fileIndex) :
    checkedRange files pieceLength path pieceIndex =
      ⟨wsub (pieceByteRange pieceIndex pieceLength (wsum (files.map (·.length)))).start
          (fileByteRange files fileIndex).start,
        wsub (pieceByteRange pieceIndex pieceLength (wsum (files.map (·.length)))).stop
          (fileByteRange files fileIndex).start⟩ := by
  rw [checkedRange, hfile]
  rfl

theorem checkPieces_eq {matched : FileMatch} {fileIndex : ℕ}
    (hfile : (files.findIdx? fun f => f.path = matched.torrentPath) = some fileIndex) :
    ∀ chosen : List ℕ, checkPieces (m := Id) hashPiece matched (fileByteRange files fileIndex)
      pieceLength pieces (wsum (files.map (·.length))) chosen =
        checkSource files pieceLength pieces hashPiece matched.torrentPath matched.source chosen
  | [] => rfl
  | pieceIndex :: rest => by
    have ih := checkPieces_eq hfile rest
    simp only [checkPieces, checkSource, pieceMatches, checkedRange_some hfile, bind]
    cases hashPiece matched.source _ with
    | none => rfl
    | some digest =>
      by_cases hpiece : pieces[pieceIndex]? = some ⟨digest⟩
      · simp only [hpiece, decide_true, Option.map_some, if_true, ih]
        rfl
      · simp only [hpiece, decide_false, Option.map_some]
        rfl

/-- Every check is one of the source as the match of the file. -/
theorem checkSource_mem : ∀ {chosen : List ℕ},
    ∀ c ∈ (checkSource files pieceLength pieces hashPiece path source chosen).2,
      c.torrentPath = path ∧ c.candidate = source
  | [], c, hc => by cases hc
  | pieceIndex :: rest, c, hc => by
    unfold checkSource at hc
    split at hc
    · cases hc
    · rw [List.mem_singleton.1 hc]
      exact ⟨rfl, rfl⟩
    · rcases List.mem_cons.1 hc with rfl | hc
      · exact ⟨rfl, rfl⟩
      · exact checkSource_mem c hc

/-- A source is rejected when a check failed. -/
theorem checkSource_rejected : ∀ chosen : List ℕ,
    (checkSource files pieceLength pieces hashPiece path source chosen).1 = .rejected ↔
      ∃ c ∈ (checkSource files pieceLength pieces hashPiece path source chosen).2, c.matched = false
  | [] => by simp [checkSource]
  | pieceIndex :: rest => by
    have ih := checkSource_rejected rest
    unfold checkSource
    split
    · simp
    · simp
    · rw [ih]
      simp

/-- A source is verified when all its checks are good. -/
theorem checkSource_verified : ∀ chosen : List ℕ,
    (checkSource files pieceLength pieces hashPiece path source chosen).1 = .verified ↔
      ∀ pieceIndex ∈ chosen,
        pieceMatches files pieceLength pieces hashPiece path source pieceIndex = some true
  | [] => by simp [checkSource]
  | pieceIndex :: rest => by
    have ih := checkSource_verified rest
    rw [List.forall_mem_cons, ← ih]
    conv_lhs => unfold checkSource
    cases hpiece : pieceMatches files pieceLength pieces hashPiece path source pieceIndex with
    | none => simp
    | some good => cases good <;> simp

/-- A check says what became of one of the pieces. -/
theorem checkSource_sound : ∀ {chosen : List ℕ},
    ∀ c ∈ (checkSource files pieceLength pieces hashPiece path source chosen).2,
      c.pieceIndex ∈ chosen ∧
        pieceMatches files pieceLength pieces hashPiece path source c.pieceIndex = some c.matched
  | [], c, hc => by cases hc
  | pieceIndex :: rest, c, hc => by
    unfold checkSource at hc
    split at hc
    · cases hc
    · rename_i hfailed
      rw [List.mem_singleton.1 hc]
      exact ⟨List.mem_cons_self .., hfailed⟩
    · rename_i hgood
      rcases List.mem_cons.1 hc with rfl | hc
      · exact ⟨List.mem_cons_self .., hgood⟩
      · obtain ⟨hmem, hsays⟩ := checkSource_sound c hc
        exact ⟨List.mem_cons_of_mem _ hmem, hsays⟩

/-- Every piece of a verified source is checked. -/
theorem checkSource_complete : ∀ {chosen : List ℕ},
    (checkSource files pieceLength pieces hashPiece path source chosen).1 = .verified →
      ∀ pieceIndex ∈ chosen, ⟨path, source, pieceIndex, true⟩ ∈
        (checkSource files pieceLength pieces hashPiece path source chosen).2
  | [], _, pieceIndex, hmem => by cases hmem
  | first :: rest, h, pieceIndex, hmem => by
    unfold checkSource at h ⊢
    split at h
    · cases h
    · cases h
    · rcases List.mem_cons.1 hmem with rfl | hmem
      · exact List.mem_cons_self ..
      · exact List.mem_cons_of_mem _ (checkSource_complete h pieceIndex hmem)

/-- A rejected source fails the check of a piece. -/
theorem exists_failed_of_rejected : ∀ {chosen : List ℕ},
    (checkSource files pieceLength pieces hashPiece path source chosen).1 = .rejected →
      ∃ pieceIndex ∈ chosen,
        pieceMatches files pieceLength pieces hashPiece path source pieceIndex = some false
  | [], h => by cases h
  | pieceIndex :: rest, h => by
    unfold checkSource at h
    split at h
    · cases h
    · rename_i hfailed
      exact ⟨pieceIndex, List.mem_cons_self .., hfailed⟩
    · obtain ⟨j, hj, hfailed⟩ := exists_failed_of_rejected h
      exact ⟨j, List.mem_cons_of_mem _ hj, hfailed⟩

/-! ## One round -/

variable (files pieceLength pieces verificationPieces hashPiece) in
/-- What becomes of a match. -/
def outcomeOfMatch (m : FileMatch) : FileOutcome × List PieceCheck :=
  outcomeOfSource files pieceLength pieces verificationPieces hashPiece m.torrentPath m.source

theorem verifyMatch_eq {round : Round} {m : FileMatch} {i : ℕ} :
    verifyMatch (m := Id) hashPiece files pieceLength pieces (wsum (files.map (·.length)))
        verificationPieces round (m, i) =
      let ended := outcomeOfMatch files pieceLength pieces verificationPieces hashPiece m
      { rejected := if ended.1 = .rejected then round.rejected ++ [m.source] else round.rejected
        verified := if ended.1 = .verified then round.verified ++ [i] else round.verified
        checks := round.checks ++ ended.2 } := by
  have hkept : round = ⟨round.rejected, round.verified, round.checks ++ []⟩ := by simp
  unfold verifyMatch outcomeOfMatch outcomeOfSource
  dsimp only
  split
  · rename_i hfile
    rw [checkedPieces_none hfile]
    exact hkept
  · rename_i fileIndex hfile
    rw [checkedPieces_some hfile]
    split
    · exact hkept
    · rw [checkPieces_eq hfile]
      rfl

variable (files pieceLength pieces verificationPieces hashPiece) in
/-- What the matches of a plan come to. -/
def roundOf (matched : List FileMatch) : Round where
  rejected := (matched.filter fun m =>
    (outcomeOfMatch files pieceLength pieces verificationPieces hashPiece m).1 =
      .rejected).map (·.source)
  verified := (matched.zipIdx.filter fun e =>
    (outcomeOfMatch files pieceLength pieces verificationPieces hashPiece e.1).1 = .verified).map (·.2)
  checks := matched.flatMap fun m =>
    (outcomeOfMatch files pieceLength pieces verificationPieces hashPiece m).2

theorem verifyRound_eq {plan : MatchPlan} :
    verifyRound (m := Id) hashPiece files plan pieceLength pieces (wsum (files.map (·.length)))
        verificationPieces =
      roundOf files pieceLength pieces verificationPieces hashPiece plan.matched := by
  have hfold : ∀ (matched : List FileMatch) (k : ℕ) (round : Round),
      (matched.zipIdx k).foldlM (m := Id) (verifyMatch (m := Id) hashPiece files pieceLength pieces
        (wsum (files.map (·.length))) verificationPieces) round =
      { rejected := round.rejected ++ (matched.filter fun m => (outcomeOfMatch files pieceLength
          pieces verificationPieces hashPiece m).1 = .rejected).map (·.source)
        verified := round.verified ++ ((matched.zipIdx k).filter fun e => (outcomeOfMatch files
          pieceLength pieces verificationPieces hashPiece e.1).1 = .verified).map (·.2)
        checks := round.checks ++ matched.flatMap fun m =>
          (outcomeOfMatch files pieceLength pieces verificationPieces hashPiece m).2 } := by
    intro matched
    induction matched with
    | nil =>
      intro k round
      simp [pure]
    | cons m matched ih =>
      intro k round
      have hnext := ih (k + 1) (verifyMatch (m := Id) hashPiece files pieceLength pieces
        (wsum (files.map (·.length))) verificationPieces round (m, k))
      rw [List.zipIdx_cons]
      refine hnext.trans ?_
      rw [verifyMatch_eq]
      cases houtcome : (outcomeOfMatch files pieceLength pieces verificationPieces hashPiece m).1 <;>
        simp [houtcome]
  exact (hfold plan.matched 0 ⟨[], [], []⟩).trans (by simp [roundOf])

/-- A check of a round was made on one of the matches. -/
theorem roundOf_checks_sound {matched : List FileMatch} {c : PieceCheck}
    (hc : c ∈ (roundOf files pieceLength pieces verificationPieces hashPiece matched).checks) :
    (∃ m ∈ matched, c.torrentPath = m.torrentPath ∧ c.candidate = m.source) ∧
      c.pieceIndex ∈ checkedPieces files pieceLength pieces verificationPieces c.torrentPath ∧
      pieceMatches files pieceLength pieces hashPiece c.torrentPath c.candidate c.pieceIndex =
        some c.matched := by
  obtain ⟨m, hm, hc⟩ := List.mem_flatMap.1 hc
  unfold outcomeOfMatch outcomeOfSource at hc
  dsimp only at hc
  split_ifs at hc
  · cases hc
  · obtain ⟨hpath, hsource⟩ := checkSource_mem c hc
    obtain ⟨hchosen, hsays⟩ := checkSource_sound c hc
    rw [hpath, hsource]
    exact ⟨⟨m, hm, rfl, rfl⟩, hchosen, hsays⟩

/-- What a round verifies has every piece checked, and there are some. -/
theorem roundOf_verified {matched : List FileMatch} {m : FileMatch} {i : ℕ}
    (hentry : (m, i) ∈ matched.zipIdx)
    (hi : i ∈ (roundOf files pieceLength pieces verificationPieces hashPiece matched).verified) :
    checkedPieces files pieceLength pieces verificationPieces m.torrentPath ≠ [] ∧
      ∀ pieceIndex ∈ checkedPieces files pieceLength pieces verificationPieces m.torrentPath,
        ⟨m.torrentPath, m.source, pieceIndex, true⟩ ∈
          (roundOf files pieceLength pieces verificationPieces hashPiece matched).checks := by
  obtain ⟨⟨m', j⟩, hentry', rfl⟩ := List.mem_map.1 hi
  obtain ⟨hentry', hverified⟩ := List.mem_filter.1 hentry'
  have hsame : m' = m := by
    obtain ⟨_, hlt, hm⟩ := List.mem_zipIdx hentry
    obtain ⟨_, _, hm'⟩ := List.mem_zipIdx hentry'
    rw [hm, hm']
  subst hsame
  have hverified := of_decide_eq_true hverified
  have hmem : m' ∈ matched := List.fst_mem_of_mem_zipIdx hentry
  unfold outcomeOfMatch outcomeOfSource at hverified
  dsimp only at hverified
  split_ifs at hverified with hchosen
  refine ⟨hchosen, fun pieceIndex hpiece => List.mem_flatMap.2 ⟨m', hmem, ?_⟩⟩
  unfold outcomeOfMatch outcomeOfSource
  dsimp only
  rw [if_neg hchosen]
  exact checkSource_complete hverified pieceIndex hpiece

/-- What a round rejects are the sources of its failed checks. -/
theorem mem_roundOf_rejected {matched : List FileMatch} {p : PathBuf} :
    p ∈ (roundOf files pieceLength pieces verificationPieces hashPiece matched).rejected ↔
      ∃ c ∈ (roundOf files pieceLength pieces verificationPieces hashPiece matched).checks,
        c.matched = false ∧ c.candidate = p := by
  have hrejected : ∀ m : FileMatch, (outcomeOfMatch files pieceLength pieces verificationPieces
      hashPiece m).1 = .rejected ↔ ∃ c ∈ (outcomeOfMatch files pieceLength pieces
        verificationPieces hashPiece m).2, c.matched = false := by
    intro m
    unfold outcomeOfMatch outcomeOfSource
    dsimp only
    split_ifs
    · simp
    · exact checkSource_rejected _
  have hsource : ∀ m : FileMatch, ∀ c ∈ (outcomeOfMatch files pieceLength pieces
      verificationPieces hashPiece m).2, c.candidate = m.source := by
    intro m c hc
    unfold outcomeOfMatch outcomeOfSource at hc
    dsimp only at hc
    split_ifs at hc
    · cases hc
    · exact (checkSource_mem c hc).2
  simp only [roundOf, List.mem_map, List.mem_filter, decide_eq_true_eq, List.mem_flatMap]
  constructor
  · rintro ⟨m, ⟨hm, hm'⟩, rfl⟩
    obtain ⟨c, hc, hfailed⟩ := (hrejected m).1 hm'
    exact ⟨c, ⟨m, hm, hc⟩, hfailed, hsource m c hc⟩
  · rintro ⟨c, ⟨m, hm, hc⟩, hfailed, rfl⟩
    exact ⟨m, ⟨hm, (hrejected m).2 ⟨c, hc, hfailed⟩⟩, (hsource m c hc).symm⟩

/-- A raised plan has the same matches, some of them certain. -/
theorem mem_raise {plan : MatchPlan} {verified : List ℕ} {m : FileMatch}
    (hm : m ∈ (plan.raise verified).matched) :
    ∃ m₀ i, (m₀, i) ∈ plan.matched.zipIdx ∧ m.torrentPath = m₀.torrentPath ∧
      m.source = m₀.source ∧ m.length = m₀.length ∧
      (m = m₀ ∧ i ∉ verified ∨ m.confidence = .exact ∧ i ∈ verified) := by
  obtain ⟨⟨m₀, i⟩, hentry, rfl⟩ := List.mem_map.1 hm
  refine ⟨m₀, i, hentry, ?_⟩
  by_cases hi : i ∈ verified
  · simp only [hi, if_true]
    exact ⟨trivial, trivial, trivial, .inr ⟨trivial, trivial⟩⟩
  · simp only [hi, if_false]
    exact ⟨trivial, trivial, trivial, .inl ⟨trivial, not_false⟩⟩

/-- A match that is not raised is not certain. -/
theorem planMatches_confidence {candidates : List Candidate} {m : FileMatch}
    (hm : m ∈ (planMatches files candidates).matched) : m.confidence ≠ .exact := by
  rw [planMatches_matched] at hm
  obtain ⟨file, -, hfile⟩ := List.mem_filterMap.1 hm
  unfold planFile at hfile
  dsimp only at hfile
  split at hfile <;> simp at hfile <;> subst hfile <;> simp

/-! ## Round after round -/

/-- The paths that hashed wrong in some of the checks do not come to a candidate. -/
def neverRejected (checks : List PieceCheck) (c : Candidate) : Bool :=
  !checks.any fun check => !check.matched && check.candidate == c.path

variable (files pieceLength pieces verificationPieces hashPiece) in
/-- The rounds from a pool of candidates until one in which nothing hashes wrong: how many there
    are, the checks they make and the plan of the last. -/
inductive Rounds : ℕ → List Candidate → List PieceCheck → MatchPlan → Prop where
  | done {candidates : List Candidate} {plan : MatchPlan} {round : Round} :
      plan = planMatches files candidates →
      round = roundOf files pieceLength pieces verificationPieces hashPiece plan.matched →
      round.rejected = [] →
      Rounds 1 candidates round.checks (plan.raise round.verified)
  | retry {candidates : List Candidate} {round : Round} {rounds : ℕ} {checks : List PieceCheck}
      {plan : MatchPlan} :
      round = roundOf files pieceLength pieces verificationPieces hashPiece
        (planMatches files candidates).matched →
      round.rejected ≠ [] →
      Rounds rounds (candidates.filter fun c => !round.rejected.any fun p => p == c.path) checks
        plan →
      Rounds (rounds + 1) candidates (round.checks ++ checks) plan

/-- The loop makes these rounds when it is allowed that many. -/
theorem verifyRounds_of_rounds {k : ℕ} {candidates : List Candidate} {checks : List PieceCheck}
    {plan : MatchPlan}
    (h : Rounds files pieceLength pieces verificationPieces hashPiece k candidates checks plan) :
    ∀ (allowed : ℕ) (report : VerificationReport), k ≤ allowed →
      verifyRounds (m := Id) hashPiece files pieceLength pieces (wsum (files.map (·.length)))
        verificationPieces allowed candidates report = (plan, ⟨report.checks ++ checks⟩) := by
  induction h with
  | done hplan hround hnone =>
    rintro (_ | allowed) report hk
    · omega
    · subst hplan
      unfold verifyRounds
      simp only [bind, verifyRound_eq, ← hround, hnone, if_true]
      rfl
  | retry hround hsome _ ih =>
    rintro (_ | allowed) report hk
    · omega
    · unfold verifyRounds
      simp only [bind, verifyRound_eq, ← hround, hsome, if_false]
      rw [ih allowed _ (by omega), List.append_assoc]

/-- What a round rejects was a candidate. -/
theorem exists_rejected {candidates : List Candidate} {p : PathBuf}
    (hp : p ∈ (roundOf files pieceLength pieces verificationPieces hashPiece
      (planMatches files candidates).matched).rejected) :
    ∃ c ∈ candidates, c.path = p := by
  obtain ⟨m, hm, rfl⟩ := List.mem_map.1 hp
  have hm := List.mem_of_mem_filter hm
  rw [planMatches_matched] at hm
  obtain ⟨file, -, hfile⟩ := List.mem_filterMap.1 hm
  obtain ⟨-, -, c, hc, -, hsource, -⟩ := planFile_inl (Sum.getLeft?_eq_some_iff.1 hfile)
  exact ⟨c, hc, hsource.symm⟩

variable (files pieceLength pieces verificationPieces hashPiece) in
/-- The rounds come to an end: each one that is repeated has lost a candidate. -/
theorem exists_rounds : ∀ (n : ℕ) (candidates : List Candidate), candidates.length ≤ n →
    ∃ k checks plan, k ≤ n + 1 ∧
      Rounds files pieceLength pieces verificationPieces hashPiece k candidates checks plan
  | n, candidates, hn => by
    by_cases hnone : (roundOf files pieceLength pieces verificationPieces hashPiece
        (planMatches files candidates).matched).rejected = []
    · exact ⟨1, _, _, by omega, .done rfl rfl hnone⟩
    · obtain ⟨p, hp⟩ := List.exists_mem_of_ne_nil _ hnone
      obtain ⟨c, hc, hcp⟩ := exists_rejected hp
      have hless : (candidates.filter fun c => !(roundOf files pieceLength pieces
          verificationPieces hashPiece (planMatches files candidates).matched).rejected.any
            fun p => p == c.path).length < candidates.length := by
        refine List.length_filter_lt_length_iff_exists.2 ⟨c, hc, ?_⟩
        simp only [Bool.not_eq_true', Bool.not_eq_false]
        exact List.any_eq_true.2 ⟨p, hp, PathBuf.beq_iff.2 (by rw [hcp])⟩
      obtain ⟨n, rfl⟩ : ∃ j, n = j + 1 := ⟨n - 1, by omega⟩
      obtain ⟨k, checks, plan, hk, hrounds⟩ := exists_rounds n (candidates.filter fun c =>
        !(roundOf files pieceLength pieces verificationPieces hashPiece
          (planMatches files candidates).matched).rejected.any fun p => p == c.path) (by omega)
      exact ⟨k + 1, _, plan, by omega, .retry rfl hnone hrounds⟩

/-- The plan that is left is the choice among the candidates no check has failed on. -/
theorem Rounds.plan_eq {k : ℕ} {candidates : List Candidate} {checks : List PieceCheck}
    {plan : MatchPlan}
    (h : Rounds files pieceLength pieces verificationPieces hashPiece k candidates checks plan) :
    ∃ pool, pool = candidates.filter (neverRejected checks) ∧
      plan = (planMatches files pool).raise (roundOf files pieceLength pieces verificationPieces
        hashPiece (planMatches files pool).matched).verified ∧
      (roundOf files pieceLength pieces verificationPieces hashPiece
        (planMatches files pool).matched).rejected = [] ∧
      ∀ c ∈ (roundOf files pieceLength pieces verificationPieces hashPiece
        (planMatches files pool).matched).checks, c ∈ checks := by
  induction h with
  | @done candidates _ _ hplan hround hnone =>
    subst hplan hround
    have hall : candidates.filter (neverRejected (roundOf files pieceLength pieces
        verificationPieces hashPiece (planMatches files candidates).matched).checks) =
          candidates := by
      refine List.filter_eq_self.2 fun c _ => ?_
      unfold neverRejected
      rw [Bool.not_eq_true', List.any_eq_false]
      intro check hcheck hfailed
      simp only [Bool.and_eq_true, Bool.not_eq_true'] at hfailed
      have : check.candidate ∈ (roundOf files pieceLength pieces verificationPieces hashPiece
          (planMatches files candidates).matched).rejected :=
        mem_roundOf_rejected.2 ⟨check, hcheck, hfailed.1, rfl⟩
      rw [hnone] at this
      cases this
    rw [hall]
    exact ⟨candidates, rfl, rfl, hnone, fun c hc => hc⟩
  | @retry candidates round _ checks _ hround _ _ ih =>
    obtain ⟨pool, hpool, hplan, hnone, hlast⟩ := ih
    refine ⟨pool, ?_, hplan, hnone, fun c hc => List.mem_append_right _ (hlast c hc)⟩
    rw [hpool, List.filter_filter]
    refine List.filter_congr fun c _ => ?_
    have hround : (round.rejected.any fun p => p == c.path) =
        round.checks.any fun check => !check.matched && check.candidate == c.path := by
      rw [Bool.eq_iff_iff, List.any_eq_true, List.any_eq_true]
      subst hround
      simp only [mem_roundOf_rejected, Bool.and_eq_true, Bool.not_eq_true']
      constructor
      · rintro ⟨p, ⟨check, hcheck, hfailed, rfl⟩, hsame⟩
        exact ⟨check, hcheck, hfailed, hsame⟩
      · rintro ⟨check, hcheck, hfailed, hsame⟩
        exact ⟨_, ⟨check, hcheck, hfailed, rfl⟩, hsame⟩
    unfold neverRejected
    rw [List.any_append, hround, Bool.not_or, Bool.and_comm]

/-- Every check of the rounds says what became of a selected piece of a candidate. -/
theorem Rounds.checks_sound {k : ℕ} {candidates : List Candidate} {checks : List PieceCheck}
    {plan : MatchPlan}
    (h : Rounds files pieceLength pieces verificationPieces hashPiece k candidates checks plan) :
    ∀ c ∈ checks,
      c.pieceIndex ∈ checkedPieces files pieceLength pieces verificationPieces c.torrentPath ∧
      pieceMatches files pieceLength pieces hashPiece c.torrentPath c.candidate c.pieceIndex =
        some c.matched := by
  induction h with
  | done hplan hround _ =>
    subst hround
    exact fun c hc => (roundOf_checks_sound hc).2
  | retry hround _ _ ih =>
    subst hround
    intro c hc
    rcases List.mem_append.1 hc with hc | hc
    · exact (roundOf_checks_sound hc).2
    · exact ih c hc

theorem MatchPlan.raise_nil (plan : MatchPlan) : plan.raise [] = plan := by
  simp [MatchPlan.raise]

variable (files pieceLength pieces verificationPieces hashPiece) in
/-- Verification is skipped, or makes rounds until nothing hashes wrong. -/
theorem verifyMatches_rounds (candidates : List Candidate) :
    ((verificationPieces = 0 ∨ pieces = []) ∧
      verifyMatches (m := Id) hashPiece files candidates pieceLength pieces verificationPieces =
        (planMatches files candidates, .default)) ∨
    ∃ rounds ≤ candidates.length + 1, ∃ checks plan,
      verifyMatches (m := Id) hashPiece files candidates pieceLength pieces verificationPieces =
        (plan, ⟨checks⟩) ∧
      Rounds files pieceLength pieces verificationPieces hashPiece rounds candidates checks plan := by
  by_cases hskip : verificationPieces = 0 ∨ pieces = []
  · refine .inl ⟨hskip, ?_⟩
    unfold verifyMatches
    rw [if_pos hskip]
    rfl
  · obtain ⟨rounds, checks, plan, hle, hrounds⟩ := exists_rounds files pieceLength pieces
      verificationPieces hashPiece candidates.length candidates le_rfl
    refine .inr ⟨rounds, hle, checks, plan, ?_, hrounds⟩
    unfold verifyMatches
    rw [if_neg hskip]
    exact verifyRounds_of_rounds hrounds _ _ hle

end

/-- Verification comes to an end within a round more than there are candidates; it is left with the
    choice among the candidates no check has failed on, some of the matches raised to certainty. -/
theorem verifyMatches_settles (hashPiece : PathBuf → ByteRange → Option Digest)
    (files : List TorrentFile) (candidates : List Candidate) (pieceLength : ℕ)
    (pieces : List PieceHash) (verificationPieces : ℕ) :
    let (plan, report) := verifyMatches (m := Id) hashPiece files candidates pieceLength pieces
      verificationPieces
    ((verificationPieces = 0 ∨ pieces = []) ∧ report.checks = [] ∨
      ∃ rounds ≤ candidates.length + 1,
        Rounds files pieceLength pieces verificationPieces hashPiece rounds candidates report.checks
          plan) ∧
    (∃ verified, plan =
      (planMatches files (candidates.filter (neverRejected report.checks))).raise verified) ∧
    ∀ matched ∈ plan.matched, ∀ check ∈ report.rejected,
      (check.candidate == matched.source) = false := by
  rcases verifyMatches_rounds files pieceLength pieces verificationPieces hashPiece candidates with
    ⟨hskip, hend⟩ | ⟨rounds, hle, checks, plan, hend, hrounds⟩
  · rw [hend]
    have hall : candidates.filter (neverRejected VerificationReport.default.checks) = candidates :=
      List.filter_eq_self.2 fun c _ => rfl
    refine ⟨.inl ⟨hskip, rfl⟩, ⟨[], ?_⟩, fun m _ check hcheck => ?_⟩
    · rw [hall, MatchPlan.raise_nil]
    · cases hcheck
  · rw [hend]
    obtain ⟨pool, rfl, rfl, -, -⟩ := hrounds.plan_eq
    refine ⟨.inr ⟨rounds, hle, hrounds⟩, ⟨_, rfl⟩, fun m hm check hcheck => ?_⟩
    obtain ⟨m₀, i, hentry, -, hsource, -⟩ := mem_raise hm
    have hm₀ : m₀ ∈ (planMatches files (candidates.filter (neverRejected checks))).matched :=
      List.fst_mem_of_mem_zipIdx hentry
    rw [planMatches_matched] at hm₀
    obtain ⟨file, -, hfile⟩ := List.mem_filterMap.1 hm₀
    obtain ⟨-, -, c, hc, -, hpath, -⟩ := planFile_inl (Sum.getLeft?_eq_some_iff.1 hfile)
    have hnever := (List.mem_filter.1 hc).2
    obtain ⟨hcheck, hfailed⟩ := List.mem_filter.1 hcheck
    rw [neverRejected, Bool.not_eq_true', List.any_eq_false] at hnever
    rw [hsource, hpath, Bool.eq_false_iff]
    intro hsame
    exact hnever check hcheck (by rw [hfailed, hsame]; rfl)

end SeedMedic
