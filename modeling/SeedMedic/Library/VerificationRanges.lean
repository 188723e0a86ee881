/-
  The numbers of a torrent that piece verification computes with: which metadata keeps them all in
  64 bits, and every range that is read in order.
-/
import SeedMedic.Lib.Hoare
import SeedMedic.Library.VerificationExact
import SeedMedic.Library.VerificationPool

namespace SeedMedic

open Lib

/-- A range of a candidate that is to be hashed. -/
structure HashCall where
  source : PathBuf
  range : ByteRange

/-- Code that hashes ranges of candidates. -/
abbrev Hashing := Prog HashCall fun _ => Option Digest

/-- Ask for a hash. -/
def hashRange (source : PathBuf) (range : ByteRange) : Hashing (Option Digest) :=
  Prog.ask ⟨source, range⟩

/-- A range whose length can be computed. -/
def HashCall.Ordered (c : HashCall) : Prop := c.range.start ≤ c.range.stop

section
variable (m : TorrentMetadata)

/-- No sum, product or difference leaves the 64-bit words, and no range that is hashed is
    reversed, whatever is in the library. -/
structure InWords : Prop where
  total : (m.files.map (·.length)).sum < wordSize
  file : ∀ i (hi : i < m.files.length), ((m.files.take i).map (·.length)).sum < wordSize ∧
    ((m.files.take i).map (·.length)).sum + m.files[i].length < wordSize
  piece : ∀ k < m.pieces.length, k * m.pieceLength < wordSize ∧
    k * m.pieceLength + m.pieceLength < wordSize
  /-- Both ends of a piece inside a file are behind the file's start. -/
  relative : ∀ i < m.files.length, ∀ k ∈ piecesWithinFile (fileByteRange m.files i) m.pieceLength
      m.pieces.length m.totalLength,
    (fileByteRange m.files i).start ≤ (pieceByteRange k m.pieceLength m.totalLength).start ∧
      (fileByteRange m.files i).start ≤ (pieceByteRange k m.pieceLength m.totalLength).stop
  hashed : ∀ candidates verificationPieces, (verifyMatches hashRange m.files candidates
    m.pieceLength m.pieces verificationPieces).Only HashCall.Ordered

/-- A file that is found by its path, and ends where the torrent does. -/
def EndsTorrent (i : ℕ) : Prop :=
  (∃ f, m.files[i]? = some f ∧ m.files.findIdx? (fun g => g.path = f.path) = some i) ∧
    ((m.files.take (i + 1)).map (·.length)).sum = (m.files.map (·.length)).sum

/-- Numbers that fit each other: the lengths add up to a word, as do the pieces, and no piece starts
    behind the torrent's end, unless no file can be found there. -/
structure FitsWords : Prop where
  lengths : (m.files.map (·.length)).sum < wordSize
  pieces : m.pieces.length * m.pieceLength < wordSize
  starts : (∃ i, EndsTorrent m i) →
    ∀ k < m.pieces.length, k * m.pieceLength ≤ (m.files.map (·.length)).sum

end

/-! ## Exact ranges -/

section
variable {m : TorrentMetadata}

/-- The range of a piece, when the pieces fit. -/
theorem pieceByteRange_of_fits {pieceLength total k n : ℕ} (h : n * pieceLength < wordSize)
    (hk : k < n) : pieceByteRange k pieceLength total =
      ⟨k * pieceLength, min (k * pieceLength + pieceLength) total⟩ := by
  have hle : k * pieceLength + pieceLength ≤ n * pieceLength := by
    rw [← Nat.succ_mul]
    exact Nat.mul_le_mul_right _ hk
  exact pieceByteRange_exact (hle.trans_lt h)

theorem mem_piecesWithinFile {fileRange : ByteRange} {pieceLength n total k : ℕ} :
    k ∈ piecesWithinFile fileRange pieceLength n total ↔ k < n ∧
      fileRange.start ≤ (pieceByteRange k pieceLength total).start ∧
        (pieceByteRange k pieceLength total).stop ≤ fileRange.stop := by
  simp [piecesWithinFile]

/-- The end of a file is the sum of the lengths up to it. -/
theorem sum_take_succ {i : ℕ} {f : TorrentFile} (hf : m.files[i]? = some f) :
    ((m.files.take (i + 1)).map (·.length)).sum =
      ((m.files.take i).map (·.length)).sum + f.length := by
  rw [List.take_add_one, hf]
  simp

end

/-! ## Ranges that are hashed -/

section
variable {files : List TorrentFile} {pieceLength : ℕ} {pieces : List PieceHash} {total : ℕ}

/-- The range of a piece in its file, as it is hashed. -/
def relativeRange (fileRange : ByteRange) (pieceLength total k : ℕ) : ByteRange :=
  ⟨wsub (pieceByteRange k pieceLength total).start fileRange.start,
    wsub (pieceByteRange k pieceLength total).stop fileRange.start⟩

/-- The pieces of a file are hashed in order exactly when the range of each is in order; each may
    turn out to be what the torrent says. -/
theorem checkPieces_only_iff (matched : FileMatch) (fileRange : ByteRange) : ∀ {chosen : List ℕ},
    (∀ k ∈ chosen, k < pieces.length) →
      ((checkPieces hashRange matched fileRange pieceLength pieces total chosen).Only
        HashCall.Ordered ↔ ∀ k ∈ chosen, (relativeRange fileRange pieceLength total k).start ≤
          (relativeRange fileRange pieceLength total k).stop)
  | [], _ => iff_of_true trivial fun _ hk => absurd hk List.not_mem_nil
  | k :: rest, hchosen => by
    obtain ⟨hk, hrest⟩ := List.forall_mem_cons.1 hchosen
    have ih := checkPieces_only_iff matched fileRange hrest
    rw [List.forall_mem_cons, ← ih, checkPieces, hashRange, Prog.ask_bind, Prog.only_call]
    refine and_congr_right fun _ => ⟨fun h => ?_, fun h digest => ?_⟩
    · -- a candidate may have the very bytes
      have hmatch : pieces[k]? = some ⟨pieces[k].bytes⟩ := List.getElem?_eq_getElem hk
      have hnext := h (some pieces[k].bytes)
      simp only [hmatch, decide_true, if_true] at hnext
      exact hnext.of_bind.1
    · rcases digest with _ | digest
      · trivial
      · dsimp only
        split_ifs
        · exact h.bind fun _ => trivial
        · trivial

end

/-! ## Which files are looked at -/

section
variable {m : TorrentMetadata}

/-- Whether the ranges of one file are in order. -/
def FileOrdered (m : TorrentMetadata) (verificationPieces i : ℕ) : Prop :=
  ∀ k ∈ selectPieces (piecesWithinFile (fileByteRange m.files i) m.pieceLength m.pieces.length
      m.totalLength) verificationPieces,
    (relativeRange (fileByteRange m.files i) m.pieceLength m.totalLength k).start ≤
      (relativeRange (fileByteRange m.files i) m.pieceLength m.totalLength k).stop

theorem verifyMatch_only_iff {verificationPieces : ℕ} {round : Round} {entry : FileMatch × ℕ} :
    (verifyMatch hashRange m.files m.pieceLength m.pieces m.totalLength verificationPieces round
      entry).Only HashCall.Ordered ↔
    ∀ i, (m.files.findIdx? fun f => f.path = entry.1.torrentPath) = some i →
      FileOrdered m verificationPieces i := by
  obtain ⟨matched, matchIndex⟩ := entry
  unfold verifyMatch
  dsimp only
  cases hfile : m.files.findIdx? fun f => f.path = matched.torrentPath with
  | none => exact iff_of_true trivial nofun
  | some i =>
    dsimp only
    have hchosen : ∀ k ∈ selectPieces (piecesWithinFile (fileByteRange m.files i) m.pieceLength
        m.pieces.length m.totalLength) verificationPieces, k < m.pieces.length := fun k hk =>
      (mem_piecesWithinFile.1 (mem_selectPieces hk)).1
    have hsingle : (∀ j, some i = some j → FileOrdered m verificationPieces j) ↔
        FileOrdered m verificationPieces i :=
      ⟨fun h => h i rfl, fun h j hj => Option.some.inj hj ▸ h⟩
    rw [hsingle, FileOrdered, ← checkPieces_only_iff _ _ hchosen]
    split_ifs with hnone
    · rw [hnone]
      exact iff_of_true trivial trivial
    · exact ⟨fun h => h.of_bind.1, fun h => h.bind fun _ => trivial⟩

theorem verifyRound_only_iff {verificationPieces : ℕ} {plan : MatchPlan} :
    (verifyRound hashRange m.files plan m.pieceLength m.pieces m.totalLength
      verificationPieces).Only HashCall.Ordered ↔
    ∀ matched ∈ plan.matched, ∀ i,
      (m.files.findIdx? fun f => f.path = matched.torrentPath) = some i →
        FileOrdered m verificationPieces i := by
  have hfold : ∀ (entries : List (FileMatch × ℕ)) (round : Round),
      (entries.foldlM (verifyMatch hashRange m.files m.pieceLength m.pieces m.totalLength
        verificationPieces) round).Only HashCall.Ordered ↔
      ∀ entry ∈ entries, ∀ i, (m.files.findIdx? fun f => f.path = entry.1.torrentPath) = some i →
        FileOrdered m verificationPieces i := by
    intro entries
    induction entries with
    | nil => exact fun _ => iff_of_true trivial fun _ h => absurd h List.not_mem_nil
    | cons entry entries ih =>
      intro round
      rw [List.foldlM_cons, List.forall_mem_cons, ← verifyMatch_only_iff]
      constructor
      · intro h
        obtain ⟨hentry, round', hrest⟩ := h.of_bind
        exact ⟨hentry, (ih round').1 hrest⟩
      · rintro ⟨hentry, hrest⟩
        exact hentry.bind fun round' => (ih round').2 hrest
  rw [verifyRound, hfold]
  constructor
  · intro h matched hmatched i hi
    obtain ⟨j, hj⟩ := List.mem_iff_getElem?.1 hmatched
    exact h (matched, j) (List.mk_mem_zipIdx_iff_getElem?.2 hj) i hi
  · intro h entry hentry
    exact h entry.1 (List.fst_mem_of_mem_zipIdx hentry)

/-- A file that is found by its path. -/
def Found (m : TorrentMetadata) (i : ℕ) : Prop :=
  ∃ f, m.files[i]? = some f ∧ m.files.findIdx? (fun g => g.path = f.path) = some i

theorem found_of_findIdx? {path : SafeRelativePath} {i : ℕ}
    (h : (m.files.findIdx? fun f => f.path = path) = some i) : Found m i := by
  obtain ⟨hi, hpath, -⟩ := List.findIdx?_eq_some_iff_getElem.1 h
  refine ⟨m.files[i], List.getElem?_eq_getElem hi, ?_⟩
  rw [of_decide_eq_true hpath]
  exact h

theorem verifyRounds_only {verificationPieces : ℕ}
    (h : ∀ i, Found m i → FileOrdered m verificationPieces i) : ∀ rounds candidates report,
    (verifyRounds hashRange m.files m.pieceLength m.pieces m.totalLength verificationPieces rounds
      candidates report).Only HashCall.Ordered := by
  intro rounds
  induction rounds with
  | zero => exact fun _ _ => trivial
  | succ rounds ih =>
    intro candidates report
    unfold verifyRounds
    dsimp only
    refine (verifyRound_only_iff.2 fun matched _ i hi => h i (found_of_findIdx? hi)).bind
      fun round => ?_
    split_ifs
    · trivial
    · exact ih _ _

/-- Every file that can be found can be matched, and all its pieces hashed. -/
theorem verifyMatches_only_iff : (∀ candidates verificationPieces, (verifyMatches hashRange m.files
    candidates m.pieceLength m.pieces verificationPieces).Only HashCall.Ordered) ↔
    ∀ i, Found m i → ∀ k ∈ piecesWithinFile (fileByteRange m.files i) m.pieceLength m.pieces.length
      m.totalLength, (relativeRange (fileByteRange m.files i) m.pieceLength m.totalLength k).start ≤
        (relativeRange (fileByteRange m.files i) m.pieceLength m.totalLength k).stop := by
  constructor
  · rintro h i ⟨f, hf, hfirst⟩ k hk
    -- a library of one file of that size, and as many pieces as there are
    let available := piecesWithinFile (fileByteRange m.files i) m.pieceLength m.pieces.length
      m.totalLength
    let c : Candidate := ⟨.ofString "/m", f.length, .filesystem (.ofString "/")⟩
    have hne : available ≠ [] := List.ne_nil_of_mem hk
    have hskip : ¬(available.length = 0 ∨ m.pieces = []) := by
      rintro (hempty | hempty)
      · exact hne (List.length_eq_zero_iff.1 hempty)
      · have hlt := (mem_piecesWithinFile.1 hk).1
        rw [hempty] at hlt
        exact absurd hlt (Nat.not_lt_zero k)
    have hrun := h [c] available.length
    rw [verifyMatches, if_neg hskip, List.length_singleton, verifyRounds] at hrun
    have hround := verifyRound_only_iff.1 hrun.of_bind.1
    have hsized : sizedCandidates [c] f = [c] := by
      have hmem : [c].filter (fun c => c.sizeBytes = f.length) = [c] := by simp [c]
      rw [sizedCandidates, hmem]
      rfl
    obtain ⟨matched, hplan, hpath, -⟩ := planFile_of_only hsized
    have hmatched : matched ∈ (planMatches m.files [c]).matched := by
      rw [planMatches_matched]
      exact List.mem_filterMap.2 ⟨f, List.mem_of_getElem? hf, by rw [hplan]; rfl⟩
    have hordered := hround matched hmatched i (by rw [hpath]; exact hfirst)
    refine hordered k ?_
    rw [selectPieces, if_neg, if_pos le_rfl]
    · exact hk
    · rintro (hempty | hempty)
      · exact hskip (.inl hempty)
      · exact hne hempty
  · intro h candidates verificationPieces
    unfold verifyMatches
    split_ifs
    · trivial
    · exact verifyRounds_only (fun i hi k hk => h i hi k (mem_selectPieces hk)) _ _ _

/-- In metadata whose numbers fit, the range of a piece is in order when the piece starts in the
    torrent. -/
theorem relativeRange_ordered_iff (hlengths : (m.files.map (·.length)).sum < wordSize)
    (hpieces : m.pieces.length * m.pieceLength < wordSize) {i k : ℕ} {f : TorrentFile}
    (hf : m.files[i]? = some f) (hk : k ∈ piecesWithinFile (fileByteRange m.files i) m.pieceLength
      m.pieces.length m.totalLength) :
    (relativeRange (fileByteRange m.files i) m.pieceLength m.totalLength k).start ≤
        (relativeRange (fileByteRange m.files i) m.pieceLength m.totalLength k).stop ↔
      k * m.pieceLength ≤ (m.files.map (·.length)).sum := by
  obtain ⟨hlt, hstart, -⟩ := mem_piecesWithinFile.1 hk
  have hend := sum_take_add_le hf
  have hpiece : k * m.pieceLength + m.pieceLength ≤ m.pieces.length * m.pieceLength := by
    rw [← Nat.succ_mul]
    exact Nat.mul_le_mul_right _ hlt
  rw [pieceByteRange_of_fits hpieces hlt, fileByteRange_exact hlengths hf] at hstart
  rw [relativeRange, pieceByteRange_of_fits hpieces hlt, fileByteRange_exact hlengths hf,
    totalLength_eq hlengths]
  dsimp only at hstart ⊢
  rw [wsub_of_le hstart (by omega), wsub_of_le (by omega) (by omega)]
  omega

end

/-- The numbers of a torrent stay in range exactly when they fit each other. -/
theorem inWords_iff (m : TorrentMetadata) : InWords m ↔ FitsWords m := by
  constructor
  · intro h
    have hpieces : m.pieces.length * m.pieceLength < wordSize := by
      cases hn : m.pieces.length with
      | zero => rw [Nat.zero_mul]; decide
      | succ n =>
        rw [Nat.succ_mul]
        exact (h.piece n (by omega)).2
    refine ⟨h.total, hpieces, ?_⟩
    rintro ⟨i, ⟨f, hf, hfirst⟩, hends⟩ k hk
    by_contra hbehind
    -- a piece behind the end is cut off there, and counts as one of the last file
    have hstop := sum_take_succ hf
    have havailable : k ∈ piecesWithinFile (fileByteRange m.files i) m.pieceLength m.pieces.length
        m.totalLength := by
      rw [mem_piecesWithinFile, pieceByteRange_of_fits hpieces hk, fileByteRange_exact h.total hf,
        totalLength_eq h.total]
      dsimp only
      exact ⟨hk, by omega, by omega⟩
    exact hbehind ((relativeRange_ordered_iff h.total hpieces hf havailable).1
      (verifyMatches_only_iff.1 h.hashed i ⟨f, hf, hfirst⟩ k havailable))
  · rintro ⟨hlengths, hpieces, hstarts⟩
    refine ⟨hlengths, fun i hi => ?_, fun k hk => ?_, fun i hi k hk => ?_, ?_⟩
    · have hend := sum_take_add_le (List.getElem?_eq_getElem hi)
      exact ⟨by omega, by omega⟩
    · have hle : k * m.pieceLength + m.pieceLength ≤ m.pieces.length * m.pieceLength := by
        rw [← Nat.succ_mul]
        exact Nat.mul_le_mul_right _ hk
      exact ⟨by omega, by omega⟩
    · obtain ⟨hlt, hstart, -⟩ := mem_piecesWithinFile.1 hk
      have hf := List.getElem?_eq_getElem hi
      have hend := sum_take_add_le hf
      rw [pieceByteRange_of_fits hpieces hlt, fileByteRange_exact hlengths hf] at hstart ⊢
      rw [totalLength_eq hlengths]
      dsimp only at hstart ⊢
      exact ⟨hstart, by omega⟩
    · refine verifyMatches_only_iff.2 ?_
      rintro i ⟨f, hf, hfirst⟩ k hk
      rw [relativeRange_ordered_iff hlengths hpieces hf hk]
      by_contra hbehind
      obtain ⟨hlt, -, hinside⟩ := mem_piecesWithinFile.1 hk
      rw [pieceByteRange_of_fits hpieces hlt, fileByteRange_exact hlengths hf,
        totalLength_eq hlengths] at hinside
      have hend := sum_take_add_le hf
      have hstop := sum_take_succ hf
      dsimp only at hinside
      exact hbehind (hstarts ⟨i, ⟨f, hf, hfirst⟩, by omega⟩ k hlt)

/-- A torrent of one byte with three pieces of one byte. -/
def overlongTorrent : List UInt8 :=
  (PathBuf.ofString "d4:infod6:lengthi1e4:name1:a12:piece lengthi1e6:pieces60:").bytes ++
    List.replicate 60 0 ++ (PathBuf.ofString "ee").bytes

/-- The last piece starts behind the end of the torrent; its range is reversed. -/
theorem overlongTorrent_reversed : ¬ ∀ (sha1 : List UInt8 → Digest) (bytes : List UInt8)
    (m : TorrentMetadata), Bencode.inspect sha1 bytes = .ok m → InWords m := by
  intro hclaim
  obtain ⟨m, hm, htest⟩ := exists_inspected overlongTorrent (fun m =>
    decide (m.files.map (·.length) = [1]) && decide (m.pieces.length = 3) &&
      decide (m.pieceLength = 1)) (by decide +kernel)
  simp only [Bool.and_eq_true, decide_eq_true_eq] at htest
  obtain ⟨⟨hfiles, hpieces⟩, hlength⟩ := htest
  have hfits := (inWords_iff m).1 (hclaim knownHash overlongTorrent m hm)
  obtain ⟨f, hf⟩ : ∃ f, m.files = [f] := List.length_eq_one_iff.1 (by
    rw [← List.length_map (f := (·.length)), hfiles]
    rfl)
  have hends : EndsTorrent m 0 := by
    rw [EndsTorrent, hf]
    exact ⟨⟨f, rfl, by simp⟩, rfl⟩
  have hstart := hfits.starts ⟨0, hends⟩ 2 (by omega)
  rw [hfiles, hlength] at hstart
  exact absurd hstart (by decide)

end SeedMedic
