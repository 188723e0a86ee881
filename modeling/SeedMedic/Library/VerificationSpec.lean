/-
  What a check in a verification report says about the bytes it was made on.
-/
import SeedMedic.Library.Verification

namespace SeedMedic

open Lib

theorem mem_dedupAdjacent {a : ℕ} : ∀ {xs : List ℕ}, a ∈ dedupAdjacent xs → a ∈ xs
  | [], h => h
  | [_], h => h
  | b :: c :: xs, h => by
    unfold dedupAdjacent at h
    split_ifs at h with hbc
    · exact List.mem_cons_of_mem _ (mem_dedupAdjacent h)
    · rcases List.mem_cons.1 h with rfl | h
      · exact List.mem_cons_self ..
      · exact List.mem_cons_of_mem _ (mem_dedupAdjacent h)

/-- Only available pieces are selected. -/
theorem mem_selectPieces {available : List ℕ} {count a : ℕ} (h : a ∈ selectPieces available count) :
    a ∈ available := by
  unfold selectPieces at h
  split_ifs at h with h0 hle
  · simp at h
  · exact h
  · obtain ⟨position, hpos, rfl⟩ := List.mem_map.1 (mem_dedupAdjacent h)
    have hp : position < count := List.mem_range.1 hpos
    have hlast : position * (available.length - 1) / max (count - 1) 1 ≤ available.length - 1 := by
      refine Nat.div_le_of_le_mul ?_
      exact Nat.mul_le_mul_right _ (by omega)
    have hin : position * (available.length - 1) / max (count - 1) 1 < available.length := by
      omega
    rw [List.getElem?_eq_getElem hin]
    exact List.getElem_mem hin

section
variable (hashPiece : PathBuf → ByteRange → Option Digest) (files : List TorrentFile)
  (pieceLength : ℕ) (pieces : List PieceHash) (totalLength : ℕ)

/-- A check hashed a range that lies inside its file, and says whether the hash was the piece's. -/
def SoundCheck (c : PieceCheck) : Prop :=
  ∃ fileIndex digest,
    (files.findIdx? fun f => f.path = c.torrentPath) = some fileIndex ∧
    c.pieceIndex ∈ piecesWithinFile (fileByteRange files fileIndex) pieceLength pieces.length
      totalLength ∧
    hashPiece c.candidate
        ⟨wsub (pieceByteRange c.pieceIndex pieceLength totalLength).start
            (fileByteRange files fileIndex).start,
          wsub (pieceByteRange c.pieceIndex pieceLength totalLength).stop
            (fileByteRange files fileIndex).start⟩ = some digest ∧
    c.matched = decide (pieces[c.pieceIndex]? = some ⟨digest⟩)

variable {hashPiece files pieceLength pieces totalLength}

theorem checkPieces_sound {matched : FileMatch} {fileIndex : ℕ}
    (hfile : (files.findIdx? fun f => f.path = matched.torrentPath) = some fileIndex) :
    ∀ {chosen : List ℕ}, (∀ i ∈ chosen, i ∈ piecesWithinFile (fileByteRange files fileIndex)
        pieceLength pieces.length totalLength) →
      ∀ c ∈ (checkPieces (m := Id) hashPiece matched (fileByteRange files fileIndex) pieceLength
        pieces totalLength chosen).2, SoundCheck hashPiece files pieceLength pieces totalLength c
  | [], _, c, hc => by simp [checkPieces, pure] at hc
  | i :: rest, hin, c, hc => by
    have hi := hin i (List.mem_cons_self ..)
    simp only [checkPieces, bind] at hc
    split at hc
    · simp [pure] at hc
    · rename_i digest hdigest
      have hsound : SoundCheck hashPiece files pieceLength pieces totalLength
          ⟨matched.torrentPath, matched.source, i, decide (pieces[i]? = some ⟨digest⟩)⟩ :=
        ⟨fileIndex, digest, hfile, hi, hdigest, rfl⟩
      split_ifs at hc with hm
      · rcases List.mem_cons.1 hc with rfl | hc
        · exact hsound
        · exact checkPieces_sound hfile (fun j hj => hin j (List.mem_cons_of_mem _ hj)) c hc
      · rw [List.mem_singleton.1 hc]
        exact hsound

theorem verifyMatch_sound {verificationPieces : ℕ} {round : Round} {entry : FileMatch × ℕ}
    (h : ∀ c ∈ round.checks, SoundCheck hashPiece files pieceLength pieces totalLength c) :
    ∀ c ∈ (verifyMatch (m := Id) hashPiece files pieceLength pieces totalLength verificationPieces
      round entry).checks, SoundCheck hashPiece files pieceLength pieces totalLength c := by
  obtain ⟨matched, matchIndex⟩ := entry
  simp only [verifyMatch]
  cases hfile : files.findIdx? fun f => f.path = matched.torrentPath with
  | none => exact h
  | some fileIndex =>
    simp only
    split
    · exact h
    · intro c hc
      rcases List.mem_append.1 hc with hc | hc
      · exact h c hc
      · exact checkPieces_sound hfile (fun i hi => mem_selectPieces hi) c hc

theorem verifyRound_sound {verificationPieces : ℕ} {plan : MatchPlan} :
    ∀ c ∈ (verifyRound (m := Id) hashPiece files plan pieceLength pieces totalLength
      verificationPieces).checks, SoundCheck hashPiece files pieceLength pieces totalLength c := by
  have hfold : ∀ (entries : List (FileMatch × ℕ)) (round : Round),
      (∀ c ∈ round.checks, SoundCheck hashPiece files pieceLength pieces totalLength c) →
      ∀ c ∈ (entries.foldlM (m := Id) (verifyMatch (m := Id) hashPiece files pieceLength pieces
        totalLength verificationPieces) round).checks,
        SoundCheck hashPiece files pieceLength pieces totalLength c := by
    intro entries
    induction entries with
    | nil => intro round h; exact h
    | cons e entries ih => intro round h; exact ih _ (verifyMatch_sound h)
  exact hfold _ _ (by simp)

theorem verifyRounds_sound {verificationPieces : ℕ} :
    ∀ (rounds : ℕ) (candidates : List Candidate) (report : VerificationReport),
      (∀ c ∈ report.checks, SoundCheck hashPiece files pieceLength pieces totalLength c) →
      ∀ c ∈ (verifyRounds (m := Id) hashPiece files pieceLength pieces totalLength
        verificationPieces rounds candidates report).2.checks,
        SoundCheck hashPiece files pieceLength pieces totalLength c
  | 0, _, _, h => h
  | rounds + 1, candidates, report, h => by
    have hround : ∀ c ∈ report.checks ++ (verifyRound (m := Id) hashPiece files
        (planMatches files candidates) pieceLength pieces totalLength verificationPieces).checks,
        SoundCheck hashPiece files pieceLength pieces totalLength c := by
      intro c hc
      rcases List.mem_append.1 hc with hc | hc
      · exact h c hc
      · exact verifyRound_sound c hc
    simp only [verifyRounds, bind]
    split_ifs with hrej
    · exact hround
    · exact verifyRounds_sound rounds _ _ hround

end

/-- Every check in a report was made on a range inside its file. -/
theorem verifyMatches_sound {hashPiece : PathBuf → ByteRange → Option Digest}
    {files : List TorrentFile} {candidates : List Candidate} {pieceLength : ℕ}
    {pieces : List PieceHash} {verificationPieces : ℕ} :
    ∀ c ∈ (verifyMatches (m := Id) hashPiece files candidates pieceLength pieces
      verificationPieces).2.checks,
      SoundCheck hashPiece files pieceLength pieces (wsum (files.map (·.length))) c := by
  unfold verifyMatches
  split_ifs
  · intro c hc
    simp [VerificationReport.default, pure] at hc
  · exact verifyRounds_sound _ _ _ (by simp [VerificationReport.default])

end SeedMedic
