/-
  Piece-hash verification of a match (`library/verification.rs`).
-/
import SeedMedic.Library.Matching

namespace SeedMedic

open Lib

/-- A half-open range of bytes. -/
structure ByteRange where
  start : ℕ
  stop : ℕ
  deriving DecidableEq

/-- The range file `index` occupies in the concatenation of `files`. -/
def fileByteRange (files : List TorrentFile) (index : ℕ) : ByteRange :=
  let start := wsum ((files.take index).map (·.length))
  ⟨start, wadd start ((files[index]?.map (·.length)).getD 0)⟩

/-- The range of a piece; the last one is cut off at the total length. -/
def pieceByteRange (pieceIndex pieceLength totalLength : ℕ) : ByteRange :=
  let start := wmul pieceIndex pieceLength
  ⟨start, min (wadd start pieceLength) totalLength⟩

/-- The pieces that lie inside one file. -/
def piecesWithinFile (fileRange : ByteRange) (pieceLength pieceCount totalLength : ℕ) : List ℕ :=
  (List.range pieceCount).filter fun index =>
    let piece := pieceByteRange index pieceLength totalLength
    fileRange.start ≤ piece.start && piece.stop ≤ fileRange.stop

/-- Drop repetitions that follow one another. -/
def dedupAdjacent : List ℕ → List ℕ
  | [] => []
  | [a] => [a]
  | a :: b :: xs => if a = b then dedupAdjacent (b :: xs) else a :: dedupAdjacent (b :: xs)

/-- Up to `count` of the pieces, spread from the first to the last. -/
def selectPieces (available : List ℕ) (count : ℕ) : List ℕ :=
  if count = 0 ∨ available = [] then []
  else if available.length ≤ count then available
  else
    let last := available.length - 1
    let stepDivisor := max (count - 1) 1
    dedupAdjacent ((List.range count).map fun position =>
      (available[position * last / stepDivisor]?).getD 0)

/-- One piece hashed against a candidate. -/
structure PieceCheck where
  torrentPath : SafeRelativePath
  candidate : PathBuf
  pieceIndex : ℕ
  matched : Bool

/-- Every check made on the way to a plan. -/
structure VerificationReport where
  checks : List PieceCheck

namespace VerificationReport

def default : VerificationReport := ⟨[]⟩

def rejected (r : VerificationReport) : List PieceCheck := r.checks.filter fun c => !c.matched

end VerificationReport

/-- What became of one match in a round. -/
inductive FileOutcome where
  | verified
  /-- A piece could not be read. -/
  | unverified
  | rejected
  deriving DecidableEq

/-- A round so far. -/
structure Round where
  rejected : List PathBuf
  verified : List ℕ
  checks : List PieceCheck

section
variable {m : Type → Type} [Monad m]
/- Hash a range of a candidate's bytes; nothing when it cannot be read. -/
variable (hashPiece : PathBuf → ByteRange → m (Option Digest))

/-- Check pieces of one file until one fails. -/
def checkPieces (matched : FileMatch) (fileRange : ByteRange) (pieceLength : ℕ)
    (pieces : List PieceHash) (totalLength : ℕ) : List ℕ → m (FileOutcome × List PieceCheck)
  | [] => pure (.verified, [])
  | pieceIndex :: rest => do
    let pieceRange := pieceByteRange pieceIndex pieceLength totalLength
    let relative : ByteRange := ⟨wsub pieceRange.start fileRange.start,
      wsub pieceRange.stop fileRange.start⟩
    match ← hashPiece matched.source relative with
    | none => pure (.unverified, [])
    | some digest =>
      let pieceMatched := decide (pieces[pieceIndex]? = some ⟨digest⟩)
      let check : PieceCheck := ⟨matched.torrentPath, matched.source, pieceIndex, pieceMatched⟩
      if pieceMatched then
        let (outcome, checks) ← checkPieces matched fileRange pieceLength pieces totalLength rest
        pure (outcome, check :: checks)
      else pure (.rejected, [check])

/-- Check one match of the plan and add what came of it to the round. -/
def verifyMatch (files : List TorrentFile) (pieceLength : ℕ) (pieces : List PieceHash)
    (totalLength verificationPieces : ℕ) (round : Round) (entry : FileMatch × ℕ) : m Round := do
  let (matched, matchIndex) := entry
  match files.findIdx? fun f => f.path = matched.torrentPath with
  | none => pure round
  | some fileIndex =>
    let fileRange := fileByteRange files fileIndex
    let available := piecesWithinFile fileRange pieceLength pieces.length totalLength
    let chosen := selectPieces available verificationPieces
    if chosen = [] then pure round
    else do
      let (outcome, checks) ←
        checkPieces hashPiece matched fileRange pieceLength pieces totalLength chosen
      pure { rejected := if outcome = .rejected then round.rejected ++ [matched.source]
               else round.rejected
             verified := if outcome = .verified then round.verified ++ [matchIndex]
               else round.verified
             checks := round.checks ++ checks }

/-- Check every match of the plan. -/
def verifyRound (files : List TorrentFile) (plan : MatchPlan) (pieceLength : ℕ)
    (pieces : List PieceHash) (totalLength verificationPieces : ℕ) : m Round :=
  plan.matched.zipIdx.foldlM
    (verifyMatch hashPiece files pieceLength pieces totalLength verificationPieces) ⟨[], [], []⟩

/-- The plan with the verified matches raised to certainty. -/
def MatchPlan.raise (plan : MatchPlan) (verified : List ℕ) : MatchPlan :=
  { plan with
    matched := plan.matched.zipIdx.map fun (f, i) =>
      if i ∈ verified then
        { f with confidence := .exact, evidence := { f.evidence with pieceVerified := true } }
      else f }

/-- Rounds of selecting and checking; a candidate that hashes wrong is dropped. -/
def verifyRounds (files : List TorrentFile) (pieceLength : ℕ) (pieces : List PieceHash)
    (totalLength verificationPieces : ℕ) : ℕ → List Candidate → VerificationReport →
      m (MatchPlan × VerificationReport)
  | 0, candidates, report => pure (planMatches files candidates, report)
  | rounds + 1, candidates, report => do
    let plan := planMatches files candidates
    let round ← verifyRound hashPiece files plan pieceLength pieces totalLength verificationPieces
    let report : VerificationReport := ⟨report.checks ++ round.checks⟩
    if round.rejected = [] then pure (plan.raise round.verified, report)
    else
      verifyRounds files pieceLength pieces totalLength verificationPieces rounds
        (candidates.filter fun c => !round.rejected.any fun p => p == c.path) report

/-- Verify the choice for every file against the torrent's piece hashes. -/
def verifyMatches (files : List TorrentFile) (candidates : List Candidate) (pieceLength : ℕ)
    (pieces : List PieceHash) (verificationPieces : ℕ) : m (MatchPlan × VerificationReport) :=
  if verificationPieces = 0 ∨ pieces = [] then
    pure (planMatches files candidates, .default)
  else
    verifyRounds hashPiece files pieceLength pieces (wsum (files.map (·.length)))
      verificationPieces (candidates.length + 1) candidates .default

end

/-! ## Reading -/

/-- The largest span of bytes that can be allocated or sought to. -/
def maxSpan : ℕ := 2 ^ 63 - 1

/-- A range of a file's bytes; nothing when it does not have them all. -/
def readRange (bytes : List UInt8) (range : ByteRange) : Option (List UInt8) :=
  let len := wsub range.stop range.start
  if maxSpan < range.start ∨ maxSpan < len then none
  else if len = 0 then some []
  else if range.start + len ≤ bytes.length then some ((bytes.drop range.start).take len)
  else none

/-- Hash a range of the file at a path. -/
def readAndHash (sha1 : List UInt8 → Digest) (contents : PathBuf → Option (List UInt8))
    (path : PathBuf) (range : ByteRange) : Option Digest :=
  ((contents path).bind fun bytes => readRange bytes range).map sha1

end SeedMedic
