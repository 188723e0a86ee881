/-
  What certainty about a match rests on: when at least one of its bytes was read, and when every
  range that was read lies inside it.
-/
import SeedMedic.Library.VerificationRounds
import SeedMedic.Torrent.Bencode

namespace SeedMedic

open Lib

/-! ## Ranges that were read -/

/-- A range that could be read is not reversed, and as long as what was read. -/
theorem readRange_some {bytes read : List UInt8} {range : ByteRange}
    (hstart : range.start < wordSize) (hstop : range.stop < wordSize)
    (h : readRange bytes range = some read) :
    range.start ≤ range.stop ∧ read.length = range.stop - range.start := by
  unfold readRange at h
  dsimp only at h
  split_ifs at h with hspan hempty hinside
  all_goals
    have hword := wordSize_eq
    have hmax : maxSpan = 9223372036854775807 := by decide
    rw [not_or, not_lt, not_lt] at hspan
    have hle : range.start ≤ range.stop := by
      by_contra hreversed
      rw [wsub_of_lt (by omega) (by omega)] at hspan
      omega
    refine ⟨hle, ?_⟩
    cases h
    rw [wsub_of_le hle hstop] at *
  · simp only [List.length_nil]
    omega
  · rw [List.length_take, List.length_drop]
    omega

theorem pieceByteRange_lt (pieceIndex pieceLength : ℕ) (lengths : List ℕ) :
    (pieceByteRange pieceIndex pieceLength (wsum lengths)).start < wordSize ∧
      (pieceByteRange pieceIndex pieceLength (wsum lengths)).stop < wordSize :=
  ⟨Nat.mod_lt _ (by decide), (min_le_right _ _).trans_lt (wsum_lt _)⟩

/-- A checked range is empty when its piece is. -/
theorem checkedRange_empty {files : List TorrentFile} {pieceLength pieceIndex : ℕ}
    {path : SafeRelativePath} :
    (checkedRange files pieceLength path pieceIndex).start =
        (checkedRange files pieceLength path pieceIndex).stop ↔
      (pieceByteRange pieceIndex pieceLength (wsum (files.map (·.length)))).start =
        (pieceByteRange pieceIndex pieceLength (wsum (files.map (·.length)))).stop := by
  obtain ⟨hstart, hstop⟩ := pieceByteRange_lt pieceIndex pieceLength (files.map (·.length))
  unfold checkedRange
  dsimp only
  constructor
  · exact wsub_inj hstart hstop (wsum_lt _)
  · intro h
    rw [h]

theorem sum_take_add_le {files : List TorrentFile} {i : ℕ} {file : TorrentFile}
    (h : files[i]? = some file) :
    ((files.take i).map (·.length)).sum + file.length ≤ (files.map (·.length)).sum := by
  obtain ⟨hi, rfl⟩ := List.getElem?_eq_some_iff.1 h
  calc ((files.take i).map (·.length)).sum + files[i].length
      ≤ ((files.take i).map (·.length)).sum + ((files.drop i).map (·.length)).sum := by
        rw [List.drop_eq_getElem_cons hi, List.map_cons, List.sum_cons]
        omega
    _ = (files.map (·.length)).sum := by
        rw [← List.sum_append, ← List.map_append, List.take_append_drop]

/-! ## Ranges without overflow -/

theorem totalLength_eq {m : TorrentMetadata} (h : (m.files.map (·.length)).sum < wordSize) :
    m.totalLength = (m.files.map (·.length)).sum := wsum_of_lt h

/-- The range of a file, when the lengths fit. -/
theorem fileByteRange_exact {files : List TorrentFile}
    (h : (files.map (·.length)).sum < wordSize) {i : ℕ} {file : TorrentFile}
    (hfile : files[i]? = some file) :
    fileByteRange files i = ⟨((files.take i).map (·.length)).sum,
      ((files.take i).map (·.length)).sum + file.length⟩ := by
  have hend := sum_take_add_le hfile
  rw [fileByteRange, wsum_of_lt (by omega), hfile]
  dsimp only [Option.map_some, Option.getD_some]
  rw [wadd_of_lt (by omega)]

/-- The range of a piece, when its end fits. -/
theorem pieceByteRange_exact {k pieceLength total : ℕ}
    (h : k * pieceLength + pieceLength < wordSize) : pieceByteRange k pieceLength total =
      ⟨k * pieceLength, min (k * pieceLength + pieceLength) total⟩ := by
  rw [pieceByteRange, wmul_of_lt (by omega), wadd_of_lt h]

/-! ## Certainty -/

section
variable (sha1 : List UInt8 → Digest) (contents : PathBuf → Option (List UInt8))
  (metadata : TorrentMetadata) (verificationPieces : ℕ)

/-- A check of a match: of its source, for its file. -/
def PieceCheck.IsOf (check : PieceCheck) (matched : FileMatch) : Prop :=
  check.torrentPath = matched.torrentPath ∧ check.candidate = matched.source

/-- The range that is read for a check. -/
def rangeOf (check : PieceCheck) : ByteRange :=
  checkedRange metadata.files metadata.pieceLength check.torrentPath check.pieceIndex

/-- The bytes that are read for a check. -/
def bytesRead (check : PieceCheck) : Option (List UInt8) :=
  (contents check.candidate).bind fun bytes => readRange bytes (rangeOf metadata check)

/-- What certainty about a match is to rest on: some of its bytes, nothing from outside it or
    outside the torrent, and the hashes the torrent has for them. -/
structure WellVerified (report : VerificationReport) (matched : FileMatch) : Prop where
  someRead : ∃ check ∈ report.checks, check.IsOf matched ∧
    ∃ b bs, bytesRead contents metadata check = some (b :: bs)
  insideFile : ∀ check ∈ report.checks, check.IsOf matched →
    (rangeOf metadata check).start ≤ (rangeOf metadata check).stop ∧
      (rangeOf metadata check).stop ≤ matched.length
  insideTorrent : ∀ check ∈ report.checks, check.IsOf matched → ∀ fileIndex,
    metadata.files[fileIndex]? = some ⟨matched.torrentPath, matched.length⟩ →
      ((metadata.files.take fileIndex).map (·.length)).sum + (rangeOf metadata check).stop ≤
        (metadata.files.map (·.length)).sum
  hashed : ∀ check ∈ report.checks, check.IsOf matched → ∃ read,
    bytesRead contents metadata check = some read ∧
      metadata.pieces[check.pieceIndex]? = some ⟨sha1 read⟩

/-- The pieces that are selected of a match's file are not all empty, and none of them ends behind
    the match. -/
structure SelectionFits (matched : FileMatch) : Prop where
  notEmpty : ∃ pieceIndex ∈ checkedPieces metadata.files metadata.pieceLength metadata.pieces
      verificationPieces matched.torrentPath,
    (pieceByteRange pieceIndex metadata.pieceLength metadata.totalLength).start ≠
      (pieceByteRange pieceIndex metadata.pieceLength metadata.totalLength).stop
  fits : ∀ pieceIndex ∈ checkedPieces metadata.files metadata.pieceLength metadata.pieces
      verificationPieces matched.torrentPath,
    (checkedRange metadata.files metadata.pieceLength matched.torrentPath pieceIndex).stop ≤
      matched.length

variable {sha1 contents metadata verificationPieces}

/-- A good check has read bytes with the hash of its piece. -/
theorem bytesRead_of_matches {check : PieceCheck}
    (h : pieceMatches metadata.files metadata.pieceLength metadata.pieces
      (readAndHash sha1 contents) check.torrentPath check.candidate check.pieceIndex = some true) :
    ∃ read, bytesRead contents metadata check = some read ∧
      metadata.pieces[check.pieceIndex]? = some ⟨sha1 read⟩ := by
  unfold pieceMatches readAndHash at h
  rw [Option.map_map, Option.map_eq_some_iff] at h
  obtain ⟨read, hread, hgood⟩ := h
  exact ⟨read, hread, of_decide_eq_true hgood⟩

theorem rangeOf_read {check : PieceCheck} {read : List UInt8}
    (h : bytesRead contents metadata check = some read) :
    (rangeOf metadata check).start ≤ (rangeOf metadata check).stop ∧
      read.length = (rangeOf metadata check).stop - (rangeOf metadata check).start := by
  obtain ⟨bytes, -, hread⟩ := Option.bind_eq_some_iff.1 h
  exact readRange_some (wsub_lt _ _) (wsub_lt _ _) hread

/-- A certain match has all its pieces checked, of which there are some, and every check of it is of
    one of them. -/
theorem checks_of_exact {candidates : List Candidate} {matched : FileMatch} {plan : MatchPlan}
    {report : VerificationReport}
    (hend : verifyMatches (m := Id) (readAndHash sha1 contents) metadata.files candidates
      metadata.pieceLength metadata.pieces verificationPieces = (plan, report))
    (hmatched : matched ∈ plan.matched) (hexact : matched.confidence = .exact) :
    (∀ pieceIndex ∈ checkedPieces metadata.files metadata.pieceLength metadata.pieces
        verificationPieces matched.torrentPath,
      ⟨matched.torrentPath, matched.source, pieceIndex, true⟩ ∈ report.checks) ∧
    checkedPieces metadata.files metadata.pieceLength metadata.pieces verificationPieces
      matched.torrentPath ≠ [] ∧
    ∀ check ∈ report.checks, check.IsOf matched →
      check.pieceIndex ∈ checkedPieces metadata.files metadata.pieceLength metadata.pieces
        verificationPieces matched.torrentPath ∧
      pieceMatches metadata.files metadata.pieceLength metadata.pieces (readAndHash sha1 contents)
        check.torrentPath check.candidate check.pieceIndex = some true := by
  rcases verifyMatches_rounds metadata.files metadata.pieceLength metadata.pieces
      verificationPieces (readAndHash sha1 contents) candidates with
    ⟨-, hskipped⟩ | ⟨rounds, -, checks, plan', hended, hrounds⟩
  · obtain ⟨rfl, rfl⟩ := Prod.mk.inj (hskipped.symm.trans hend)
    exact absurd hexact (planMatches_confidence hmatched)
  · obtain ⟨rfl, rfl⟩ := Prod.mk.inj (hended.symm.trans hend)
    obtain ⟨pool, -, rfl, -, hlast⟩ := hrounds.plan_eq
    obtain ⟨m₀, i, hentry, hpath, hsource, -, hraised⟩ := mem_raise hmatched
    have hverified := by
      refine hraised.resolve_left ?_
      rintro ⟨rfl, -⟩
      exact planMatches_confidence (List.fst_mem_of_mem_zipIdx hentry) hexact
    obtain ⟨hsome, hall⟩ := roundOf_verified hentry hverified.2
    rw [← hpath, ← hsource] at hall
    rw [← hpath] at hsome
    refine ⟨fun pieceIndex hpiece => hlast _ (hall pieceIndex hpiece), hsome, ?_⟩
    rintro check hcheck ⟨hcpath, hcsource⟩
    obtain ⟨hchosen, -⟩ := hrounds.checks_sound check hcheck
    rw [hcpath] at hchosen
    rw [hcpath, hcsource]
    exact ⟨hchosen, (hrounds.checks_sound _ (hlast _ (hall _ hchosen))).2⟩

/-! ## Torrents whose pieces cut up their files -/

variable (metadata) in
/-- Pieces of some length, all of which start inside the data, and files that can be told apart. -/
structure WellFormed : Prop where
  positive : 0 < metadata.pieceLength
  distinct : (metadata.files.map (·.path)).Nodup
  addressable : (metadata.files.map (·.length)).sum + metadata.pieceLength ≤ wordSize
  inData : ∀ pieceIndex < metadata.pieces.length,
    pieceIndex * metadata.pieceLength < (metadata.files.map (·.length)).sum

theorem WellFormed.pieceByteRange_eq (h : WellFormed metadata) {pieceIndex : ℕ}
    (hpiece : pieceIndex < metadata.pieces.length) :
    pieceByteRange pieceIndex metadata.pieceLength metadata.totalLength =
      ⟨pieceIndex * metadata.pieceLength, min (pieceIndex * metadata.pieceLength +
        metadata.pieceLength) (metadata.files.map (·.length)).sum⟩ := by
  have hstart := h.inData pieceIndex hpiece
  have hfits := h.addressable
  have hpositive := h.positive
  rw [totalLength_eq (by omega), pieceByteRange_exact (by omega)]

theorem WellFormed.fileByteRange_eq (h : WellFormed metadata) {fileIndex : ℕ} {file : TorrentFile}
    (hfile : metadata.files[fileIndex]? = some file) :
    fileByteRange metadata.files fileIndex =
      ⟨((metadata.files.take fileIndex).map (·.length)).sum,
        ((metadata.files.take fileIndex).map (·.length)).sum + file.length⟩ := by
  have hfits := h.addressable
  have hpositive := h.positive
  exact fileByteRange_exact (by omega) hfile

/-- In a plan of a torrent whose files can be told apart a match is found as its own file. -/
theorem WellFormed.findIdx?_of_matched (h : WellFormed metadata) {candidates : List Candidate}
    {matched : FileMatch} (hmatched : matched ∈ (planMatches metadata.files candidates).matched) :
    ∃ fileIndex file, (metadata.files.findIdx? fun f => f.path = matched.torrentPath) =
      some fileIndex ∧ metadata.files[fileIndex]? = some file ∧ file.length = matched.length := by
  rw [planMatches_matched] at hmatched
  obtain ⟨file, hfile, hplanned⟩ := List.mem_filterMap.1 hmatched
  obtain ⟨hpath, hlength, -⟩ := planFile_inl (Sum.getLeft?_eq_some_iff.1 hplanned)
  cases hfind : metadata.files.findIdx? fun f => f.path = matched.torrentPath with
  | none =>
    rw [List.findIdx?_eq_none_iff] at hfind
    simpa [hpath] using hfind file hfile
  | some fileIndex =>
    obtain ⟨hlt, hfound, -⟩ := List.findIdx?_eq_some_iff_getElem.1 hfind
    have hsame : metadata.files[fileIndex] = file :=
      List.inj_on_of_nodup_map h.distinct (List.getElem_mem hlt) hfile
        ((of_decide_eq_true hfound).trans hpath)
    exact ⟨fileIndex, file, rfl, by rw [List.getElem?_eq_getElem hlt, hsame], hlength.symm⟩

/-- What is selected of a torrent whose pieces cut up its files fits the matches. -/
theorem WellFormed.selectionFits (h : WellFormed metadata) {candidates : List Candidate}
    {matched : FileMatch} {plan : MatchPlan} {report : VerificationReport}
    (hend : verifyMatches (m := Id) (readAndHash sha1 contents) metadata.files candidates
      metadata.pieceLength metadata.pieces verificationPieces = (plan, report))
    (hmatched : matched ∈ plan.matched) (hexact : matched.confidence = .exact) :
    SelectionFits metadata verificationPieces matched := by
  obtain ⟨-, hsome, -⟩ := checks_of_exact hend hmatched hexact
  obtain ⟨fileIndex, file, hfind, hfile, hlength⟩ : ∃ fileIndex file,
      (metadata.files.findIdx? fun f => f.path = matched.torrentPath) = some fileIndex ∧
        metadata.files[fileIndex]? = some file ∧ file.length = matched.length := by
    rcases verifyMatches_rounds metadata.files metadata.pieceLength metadata.pieces
        verificationPieces (readAndHash sha1 contents) candidates with
      ⟨-, hskipped⟩ | ⟨rounds, -, checks, plan', hended, hrounds⟩
    · obtain ⟨rfl, rfl⟩ := Prod.mk.inj (hskipped.symm.trans hend)
      exact h.findIdx?_of_matched hmatched
    · obtain ⟨rfl, rfl⟩ := Prod.mk.inj (hended.symm.trans hend)
      obtain ⟨pool, -, rfl, -, -⟩ := hrounds.plan_eq
      obtain ⟨m₀, i, hentry, hpath, -, hsize, -⟩ := mem_raise hmatched
      rw [hpath, hsize]
      exact h.findIdx?_of_matched (List.fst_mem_of_mem_zipIdx hentry)
  have hselected : ∀ pieceIndex ∈ checkedPieces metadata.files metadata.pieceLength
      metadata.pieces verificationPieces matched.torrentPath,
      pieceIndex < metadata.pieces.length ∧
      (fileByteRange metadata.files fileIndex).start ≤
        (pieceByteRange pieceIndex metadata.pieceLength metadata.totalLength).start ∧
      (pieceByteRange pieceIndex metadata.pieceLength metadata.totalLength).stop ≤
        (fileByteRange metadata.files fileIndex).stop := by
    intro pieceIndex hpiece
    rw [checkedPieces_some hfind] at hpiece
    obtain ⟨hrange, hwithin⟩ := List.mem_filter.1 (mem_selectPieces hpiece)
    obtain ⟨hstart, hstop⟩ := (Bool.and_eq_true ..).mp hwithin
    exact ⟨List.mem_range.1 hrange, of_decide_eq_true hstart, of_decide_eq_true hstop⟩
  have hpositive := h.positive
  have hsum := sum_take_add_le hfile
  have haddressable := h.addressable
  constructor
  · obtain ⟨pieceIndex, hpiece⟩ := List.exists_mem_of_ne_nil _ hsome
    refine ⟨pieceIndex, hpiece, ?_⟩
    obtain ⟨hcount, -, -⟩ := hselected pieceIndex hpiece
    have hstart := h.inData pieceIndex hcount
    rw [h.pieceByteRange_eq hcount]
    dsimp only
    omega
  · intro pieceIndex hpiece
    obtain ⟨hcount, hstart, hstop⟩ := hselected pieceIndex hpiece
    have hinData := h.inData pieceIndex hcount
    rw [h.pieceByteRange_eq hcount, h.fileByteRange_eq hfile] at hstart hstop
    rw [checkedRange_some hfind]
    change wsub (pieceByteRange pieceIndex metadata.pieceLength metadata.totalLength).stop _ ≤ _
    rw [h.pieceByteRange_eq hcount, h.fileByteRange_eq hfile]
    dsimp only at hstart hstop ⊢
    rw [wsub_of_le (by omega) (by omega)]
    omega

end

/-- Certainty about a match rests on bytes of its own exactly when the pieces selected of its file
    are not all empty and none of them ends behind it. -/
theorem exact_wellVerified_iff (sha1 : List UInt8 → Digest)
    (contents : PathBuf → Option (List UInt8)) (metadata : TorrentMetadata)
    (candidates : List Candidate) (verificationPieces : ℕ) :
    let (plan, report) := verifyMatches (m := Id) (readAndHash sha1 contents) metadata.files
      candidates metadata.pieceLength metadata.pieces verificationPieces
    ∀ matched ∈ plan.matched, matched.confidence = .exact →
      (WellVerified sha1 contents metadata report matched ↔
        SelectionFits metadata verificationPieces matched) := by
  cases hend : verifyMatches (m := Id) (readAndHash sha1 contents) metadata.files candidates
    metadata.pieceLength metadata.pieces verificationPieces with
  | mk plan report =>
    dsimp only
    intro matched hmatched hexact
    obtain ⟨hmade, -, hchecks⟩ := checks_of_exact hend hmatched hexact
    have hread := fun check hcheck hof => bytesRead_of_matches (hchecks check hcheck hof).2
    constructor
    · rintro ⟨⟨check, hcheck, ⟨hpath, hsource⟩, b, bs, hbytes⟩, hinside, -, -⟩
      refine ⟨⟨check.pieceIndex, (hchecks check hcheck ⟨hpath, hsource⟩).1, ?_⟩,
        fun pieceIndex hpiece => (hinside _ (hmade pieceIndex hpiece) ⟨rfl, rfl⟩).2⟩
      intro hempty
      have hlength := (rangeOf_read hbytes).2
      rw [rangeOf, checkedRange_empty.2 hempty, List.length_cons] at hlength
      omega
    · rintro ⟨⟨pieceIndex, hpiece, hnonempty⟩, hfits⟩
      have hinside : ∀ check ∈ report.checks, check.IsOf matched →
          (rangeOf metadata check).start ≤ (rangeOf metadata check).stop ∧
            (rangeOf metadata check).stop ≤ matched.length := by
        intro check hcheck hof
        obtain ⟨read, hbytes, -⟩ := hread check hcheck hof
        refine ⟨(rangeOf_read hbytes).1, ?_⟩
        rw [rangeOf, hof.1]
        exact hfits _ (hchecks check hcheck hof).1
      refine ⟨⟨_, hmade pieceIndex hpiece, ⟨rfl, rfl⟩, ?_⟩, hinside, ?_, hread⟩
      · obtain ⟨read, hbytes, -⟩ := hread _ (hmade pieceIndex hpiece) ⟨rfl, rfl⟩
        have hlength := (rangeOf_read hbytes).2
        cases read with
        | cons b bs => exact ⟨b, bs, hbytes⟩
        | nil =>
          have hle := (rangeOf_read hbytes).1
          rw [List.length_nil] at hlength
          exact absurd (checkedRange_empty.1 (hle.antisymm (by omega))) hnonempty
      · intro check hcheck hof fileIndex hfile
        have hsum := sum_take_add_le hfile
        have hstop := (hinside check hcheck hof).2
        dsimp only at hsum
        omega

/-! ## A few bytes and their hashes -/

/-- The digest with these bytes. -/
def digestOf (bytes : List UInt8) : Digest := Vector.ofFn fun i => bytes.getD i 0

def hello : List UInt8 := (PathBuf.ofString "hello").bytes

def world : List UInt8 := (PathBuf.ofString "world").bytes

def emptyHash : Digest :=
  digestOf [0xda, 0x39, 0xa3, 0xee, 0x5e, 0x6b, 0x4b, 0x0d, 0x32, 0x55, 0xbf, 0xef, 0x95, 0x60,
    0x18, 0x90, 0xaf, 0xd8, 0x07, 0x09]

def helloHash : Digest :=
  digestOf [0xaa, 0xf4, 0xc6, 0x1d, 0xdc, 0xc5, 0xe8, 0xa2, 0xda, 0xbe, 0xde, 0x0f, 0x3b, 0x48,
    0x2c, 0xd9, 0xae, 0xa9, 0x43, 0x4d]

def worldHash : Digest :=
  digestOf [0x7c, 0x21, 0x14, 0x33, 0xf0, 0x20, 0x71, 0x59, 0x77, 0x41, 0xe6, 0xff, 0x5a, 0x8e,
    0xa3, 0x47, 0x89, 0xab, 0xbf, 0x43]

/-- The hashes of nothing and of two words as a function. -/
def knownHash (bytes : List UInt8) : Digest :=
  if bytes = [] then emptyHash
  else if bytes = hello then helloHash
  else if bytes = world then worldHash
  else digestOf []

/-- A torrent of one file of five bytes and one piece. -/
def smallTorrent (pieceLength : String) (hash : Digest) : List UInt8 :=
  (PathBuf.ofString ("d4:infod6:lengthi5e4:name5:a.txt12:piece lengthi" ++ pieceLength ++
    "e6:pieces20:")).bytes ++ hash.toList ++ (PathBuf.ofString "ee").bytes

/-- The library has one file of its size. -/
def smallLibrary : List Candidate := [⟨.ofString "/l/a.txt", 5, .filesystem (.ofString "/l")⟩]

/-- What an accepted torrent's metadata passes. -/
theorem exists_inspected (bytes : List UInt8) (test : TorrentMetadata → Bool)
    (h : (Bencode.inspect knownHash bytes).toOption.any test = true) :
    ∃ metadata, Bencode.inspect knownHash bytes = .ok metadata ∧ test metadata = true := by
  cases hmetadata : Bencode.inspect knownHash bytes with
  | error e =>
    rw [hmetadata] at h
    cases h
  | ok metadata =>
    rw [hmetadata] at h
    exact ⟨metadata, rfl, h⟩

theorem hello_wellVerified : ∃ metadata,
    Bencode.inspect knownHash (smallTorrent "5" helloHash) = .ok metadata ∧
    let (plan, report) := verifyMatches (m := Id) (readAndHash knownHash fun _ => some hello)
      metadata.files smallLibrary metadata.pieceLength metadata.pieces 1
    ∃ matched ∈ plan.matched, matched.confidence = .exact ∧
      (WellVerified knownHash (fun _ => some hello) metadata report matched ↔
        SelectionFits metadata 1 matched) := by
  obtain ⟨metadata, hmetadata, htest⟩ := exists_inspected (smallTorrent "5" helloHash)
    (fun metadata => (verifyMatches (m := Id) (readAndHash knownHash fun _ => some hello)
      metadata.files smallLibrary metadata.pieceLength metadata.pieces 1).1.matched.any fun matched =>
        decide (matched.confidence = .exact)) (by decide +kernel)
  obtain ⟨matched, hmatched, hexact⟩ := List.any_eq_true.1 htest
  have hexact := of_decide_eq_true hexact
  exact ⟨metadata, hmetadata, matched, hmatched, hexact, exact_wellVerified_iff knownHash
    (fun _ => some hello) metadata smallLibrary 1 matched hmatched hexact⟩

/-- A torrent whose piece length is zero: its file becomes certain although nothing of it was
    read. -/
theorem hollow_not_wellVerified : ¬ ∀ (sha1 : List UInt8 → Digest) (bytes : List UInt8)
    (metadata : TorrentMetadata) (contents : PathBuf → Option (List UInt8))
    (candidates : List Candidate) (verificationPieces : ℕ),
    Bencode.inspect sha1 bytes = .ok metadata → 1 ≤ verificationPieces →
      let (plan, report) := verifyMatches (m := Id) (readAndHash sha1 contents) metadata.files
        candidates metadata.pieceLength metadata.pieces verificationPieces
      ∀ matched ∈ plan.matched, matched.confidence = .exact →
        WellVerified sha1 contents metadata report matched := by
  intro hclaim
  obtain ⟨metadata, hmetadata, htest⟩ := exists_inspected (smallTorrent "0" emptyHash)
    (fun metadata =>
      let ended := verifyMatches (m := Id) (readAndHash knownHash fun _ => some hello)
        metadata.files smallLibrary metadata.pieceLength metadata.pieces 1
      (ended.1.matched.any fun matched => decide (matched.confidence = .exact)) &&
        ended.2.checks.all fun check =>
          decide (bytesRead (fun _ => some hello) metadata check = some [])) (by decide +kernel)
  obtain ⟨hcertain, hnothing⟩ := (Bool.and_eq_true ..).mp htest
  obtain ⟨matched, hmatched, hexact⟩ := List.any_eq_true.1 hcertain
  obtain ⟨⟨check, hcheck, -, b, bs, hread⟩, -, -, -⟩ := hclaim knownHash _ metadata
    (fun _ => some hello) smallLibrary 1 hmetadata le_rfl matched hmatched
      (of_decide_eq_true hexact)
  have hempty := of_decide_eq_true (List.all_eq_true.1 hnothing check hcheck)
  rw [hempty] at hread
  cases hread

end SeedMedic
