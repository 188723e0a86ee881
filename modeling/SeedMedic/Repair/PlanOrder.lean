/-
  The order a torrent lists its files in, and the order the store gives them back in.
-/
import SeedMedic.Lib.Layout
import SeedMedic.Library.VerificationExact
import SeedMedic.Repair.Steps
import SeedMedic.Repair.StoreSpec

namespace SeedMedic

open Lib

/-! ## Ranges of files -/

/-- Where the sum fits, a file occupies what the files before it leave. -/
theorem fileByteRange_eq {files : List TorrentFile} (h : (files.map (·.length)).sum < wordSize)
    {i : ℕ} (hi : i < files.length) :
    fileByteRange files i =
      ⟨startOf (·.length) files i, startOf (·.length) files i + files[i].length⟩ :=
  fileByteRange_exact h (List.getElem?_eq_getElem hi)

/-! ## The torrent's own bytes -/

/-- Lengths and paths a torrent can be laid out by. -/
structure LaidOut (m : TorrentMetadata) : Prop where
  lengths : ∀ f ∈ m.files, f.length ≤ i64Max
  total : (m.files.map (·.length)).sum < wordSize
  nodup : (m.files.map (·.path)).Nodup

/-- The bytes of the torrent: as many as its files have, cut into pieces with the recorded
    hashes. -/
structure HasContent (sha1 : List UInt8 → Digest) (m : TorrentMetadata) (content : List UInt8) :
    Prop where
  length : content.length = (m.files.map (·.length)).sum
  pieceLength : m.pieceLength < wordSize
  pieces : ∀ i (h : i < m.pieces.length), i * m.pieceLength < content.length ∧
    m.pieces[i] = ⟨sha1 ((content.drop (i * m.pieceLength)).take m.pieceLength)⟩

/-- The torrent's bytes of one file. -/
def fileContent (m : TorrentMetadata) (content : List UInt8) (i : ℕ) : List UInt8 :=
  (content.drop (startOf (·.length) m.files i)).take ((m.files[i]?.map (·.length)).getD 0)

/-- The ranges verification uses, over the list `planned`, are the torrent's. -/
def SameRanges (m : TorrentMetadata) (planned : List TorrentFile) : Prop :=
  ∀ i (hi : i < m.files.length), ∃ j,
    (planned.findIdx? fun f => f.path = m.files[i].path) = some j ∧
    fileByteRange planned j = fileByteRange m.files i

/-- No check of a file fails on a library file that has exactly the torrent's bytes for it. -/
def NeverRejected (m : TorrentMetadata) (planned : List TorrentFile) : Prop :=
  ∀ (sha1 : List UInt8 → Digest) (content : List UInt8)
    (contents : PathBuf → Option (List UInt8)) (candidates : List Candidate)
    (verificationPieces : ℕ), HasContent sha1 m content →
    ∀ c ∈ (verifyMatches (m := Id) (readAndHash sha1 contents) planned candidates m.pieceLength
      m.pieces verificationPieces).2.checks,
    ∀ i (hi : i < m.files.length), m.files[i].path = c.torrentPath →
      contents c.candidate = some (fileContent m content i) → c.matched = true

/-- A piece read out of its file is the piece of the torrent. -/
theorem readRange_piece {content : List UInt8} {start stop i pieceLength : ℕ}
    (htotal : content.length < wordSize) (hstart : i * pieceLength < content.length)
    (hpl : pieceLength < wordSize) (hfile : start ≤ stop) (hstop : stop ≤ content.length)
    (hin1 : start ≤ (pieceByteRange i pieceLength content.length).start)
    (hin2 : (pieceByteRange i pieceLength content.length).stop ≤ stop) {bytes : List UInt8}
    (hread : readRange ((content.drop start).take (stop - start))
      ⟨wsub (pieceByteRange i pieceLength content.length).start start,
        wsub (pieceByteRange i pieceLength content.length).stop start⟩ = some bytes) :
    bytes = (content.drop (i * pieceLength)).take pieceLength := by
  have hmul : wmul i pieceLength = i * pieceLength := wmul_of_lt (hstart.trans htotal)
  simp only [pieceByteRange, hmul] at hin1 hin2 hread
  have hw := wordSize_eq
  by_cases hover : i * pieceLength + pieceLength < wordSize
  · rw [wadd_of_lt hover] at hin2 hread
    set p := i * pieceLength with hp
    have hle : p ≤ min (p + pieceLength) content.length := by omega
    rw [wsub_of_le hin1 (by omega), wsub_of_le (hin1.trans hle) (by omega)] at hread
    have hlen : wsub (min (p + pieceLength) content.length - start) (p - start) =
        min (p + pieceLength) content.length - p := by
      rw [wsub_of_le (by omega) (by omega)]
      omega
    simp only [readRange, hlen] at hread
    split_ifs at hread with h1 h2 h3
    · cases hread
      have hpl0 : pieceLength = 0 := by omega
      rw [hpl0, List.take_zero]
    · cases hread
      rw [List.drop_take, List.drop_drop, List.take_take]
      rw [show start + (p - start) = p by omega]
      refine List.take_eq_take_iff.2 ?_
      rw [List.length_drop]
      omega
  · -- the sum wraps, and what is asked for is not all in the file
    rw [wadd_of_ge (by omega) (by omega) (by omega)] at hin2 hread
    set p := i * pieceLength with hp
    have hmin : min (p + pieceLength - wordSize) content.length = p + pieceLength - wordSize := by
      omega
    rw [hmin] at hread
    rw [wsub_of_le hin1 (by omega)] at hread
    have hlen : wsub (wsub (p + pieceLength - wordSize) start) (p - start) = pieceLength := by
      unfold wsub
      rw [hw]
      rw [hw] at hover htotal hpl
      omega
    simp only [readRange, hlen] at hread
    split_ifs at hread with h1 h2 h3
    · omega
    · simp only [List.length_take, List.length_drop] at h3
      omega

/-- Where the ranges are the torrent's, the torrent's own bytes pass every check. -/
theorem neverRejected_of_sameRanges {m : TorrentMetadata} (hm : LaidOut m)
    {planned : List TorrentFile} (hperm : planned.Perm m.files) (h : SameRanges m planned) :
    NeverRejected m planned := by
  intro sha1 content contents candidates verificationPieces hcontent c hc i hi hpath hbytes
  obtain ⟨j, digest, hj, hin, hhash, hmatched⟩ := verifyMatches_sound c hc
  obtain ⟨j', hj', hrange⟩ := h i hi
  rw [hpath, hj] at hj'
  cases hj'
  have hsum : wsum (planned.map (·.length)) = content.length := by
    rw [hcontent.length, wsum_of_lt] <;> rw [(hperm.map _).sum_eq]
    exact hm.total
  have hend := startOf_add_le_sum (·.length) hi
  rw [hrange, fileByteRange_eq hm.total hi, hsum] at hin hhash
  simp only [piecesWithinFile, List.mem_filter, List.mem_range, Bool.and_eq_true,
    decide_eq_true_eq] at hin
  obtain ⟨hpiece, hin1, hin2⟩ := hin
  obtain ⟨hstart, hdigest⟩ := hcontent.pieces c.pieceIndex hpiece
  unfold readAndHash at hhash
  rw [hbytes, Option.bind_some, Option.map_eq_some_iff] at hhash
  obtain ⟨bytes, hread, rfl⟩ := hhash
  have hfile : fileContent m content i =
      (content.drop (startOf (·.length) m.files i)).take
        (startOf (·.length) m.files i + m.files[i].length - startOf (·.length) m.files i) := by
    rw [fileContent, List.getElem?_eq_getElem hi, Nat.add_sub_cancel_left]
    rfl
  rw [hfile] at hread
  have hbytes' := readRange_piece (hcontent.length ▸ hm.total) hstart hcontent.pieceLength
    (Nat.le_add_right ..) (hcontent.length ▸ hend) hin1 hin2 hread
  rw [hmatched, List.getElem?_eq_getElem hpiece, hdigest, hbytes', decide_eq_true_eq]

/-! ## The list the store gives back -/

namespace SqliteRepairStore

variable {s : SqliteRepairStore} {id : JobId} {m : TorrentMetadata}

/-- The stored plan is the torrent's, in another order. -/
theorem torrentFiles_perm (hm : LaidOut m)
    (hrows : s.fileRows id = (fetchedFiles m).map (writePlannedFile id)) :
    (torrentFiles (s.plannedFiles id)).Perm m.files := by
  have h : (torrentFiles (s.plannedFiles id)).Perm
      ((s.fileRows id).map fun r => ⟨r.torrentPath, asU64 r.lengthBytes⟩) := by
    rw [torrentFiles, plannedFiles, List.map_map]
    exact (List.perm_insertionSort _ _).map _
  refine h.trans (List.Perm.of_eq ?_)
  rw [hrows, fetchedFiles, List.map_map, List.map_map]
  refine (List.map_congr_left fun f hf => ?_).trans (List.map_id _)
  simp only [Function.comp, writePlannedFile, asU64_asI64 (hm.lengths f hf)]
  rfl

/-- The stored plan comes back in the order of its paths. -/
theorem torrentFiles_sorted (hm : LaidOut m)
    (hrows : s.fileRows id = (fetchedFiles m).map (writePlannedFile id)) :
    (torrentFiles (s.plannedFiles id)).Pairwise fun a b => a.path.str < b.path.str := by
  have hle : (torrentFiles (s.plannedFiles id)).Pairwise fun a b => a.path.str ≤ b.path.str := by
    rw [torrentFiles, plannedFiles, List.map_map, List.pairwise_map]
    exact List.pairwise_insertionSort _ _
  have hne : (torrentFiles (s.plannedFiles id)).Pairwise fun a b => a.path ≠ b.path := by
    rw [← List.pairwise_map (f := TorrentFile.path) (R := (· ≠ ·))]
    exact ((torrentFiles_perm hm hrows).map _).nodup_iff.2 hm.nodup
  exact hle.imp₂ (fun a b h hn => lt_of_le_of_ne h fun he => hn (SafeRelativePath.ext_str he)) hne

end SqliteRepairStore

/-- A file is found by its path where it stands. -/
theorem findIdx_path {files : List TorrentFile} (hn : (files.map (·.path)).Nodup) {j : ℕ}
    (hj : j < files.length) {path : SafeRelativePath} (h : files[j].path = path) :
    (files.findIdx? fun f => f.path = path) = some j := by
  refine List.findIdx?_eq_some_iff_getElem.2 ⟨hj, by simpa using h, fun k hk => ?_⟩
  intro he
  have hlen : k < files.length := hk.trans hj
  have hk' : k < (files.map (·.path)).length := by simpa using hlen
  have hj' : j < (files.map (·.path)).length := by simpa using hj
  have hkj : (files.map (·.path))[k] = (files.map (·.path))[j] := by
    simpa [h] using he
  exact absurd ((List.Nodup.getElem_inj_iff hn).1 hkj) (by omega)

/-- Ranges are the torrent's exactly when every file starts where it starts in the torrent. -/
theorem sameRanges_iff {m : TorrentMetadata} (hm : LaidOut m) {planned : List TorrentFile}
    (hperm : planned.Perm m.files) :
    SameRanges m planned ↔ ∀ i j (hi : i < m.files.length) (hj : j < planned.length),
      m.files[i] = planned[j] → startOf (·.length) m.files i = startOf (·.length) planned j := by
  have hn : (planned.map (·.path)).Nodup := (hperm.map _).nodup_iff.2 hm.nodup
  have htotal : (planned.map (·.length)).sum < wordSize := by
    rw [(hperm.map _).sum_eq]
    exact hm.total
  constructor
  · intro h i j hi hj he
    obtain ⟨j', hj', hrange⟩ := h i hi
    rw [findIdx_path hn hj (congrArg TorrentFile.path he.symm)] at hj'
    cases hj'
    rw [fileByteRange_eq htotal hj, fileByteRange_eq hm.total hi] at hrange
    exact (congrArg ByteRange.start hrange).symm
  · intro h i hi
    obtain ⟨j, hj, he⟩ := List.mem_iff_getElem.1 (hperm.symm.subset (List.getElem_mem hi))
    refine ⟨j, findIdx_path hn hj (congrArg TorrentFile.path he), ?_⟩
    rw [fileByteRange_eq htotal hj, fileByteRange_eq hm.total hi, h i j hi hj he.symm, he]

namespace SqliteRepairStore

variable {s : SqliteRepairStore} {id : JobId} {m : TorrentMetadata}

/-- The plan of a fetched torrent gives verification the torrent's ranges, and so spares the
    torrent's own bytes, exactly when the torrent lists its files in the order of their paths,
    up to empty files among themselves. -/
theorem plannedRanges_iff (hm : LaidOut m)
    (hrows : s.fileRows id = (fetchedFiles m).map (writePlannedFile id)) :
    (SameRanges m (torrentFiles (s.plannedFiles id)) ∧
      NeverRejected m (torrentFiles (s.plannedFiles id))) ↔
    m.files.Pairwise fun f g => (f.length = 0 ∧ g.length = 0) ∨ f.path.str < g.path.str := by
  have hperm := torrentFiles_perm hm hrows
  have hiff : SameRanges m (torrentFiles (s.plannedFiles id)) ↔ m.files.Pairwise
      fun f g => (f.length = 0 ∧ g.length = 0) ∨ f.path.str < g.path.str :=
    (sameRanges_iff hm hperm).trans
      (startOf_eq_iff hperm.symm (torrentFiles_sorted hm hrows))
  rw [← hiff]
  exact ⟨And.left, fun h => ⟨h, neverRejected_of_sameRanges hm hperm h⟩⟩

/-- A patch that has a plan and no progress leaves exactly the rows of the plan. -/
theorem fileRows_applied {s' : SqliteRepairStore} {now : Time} {t : Transition}
    {u : TransitionUpdate} {files : List PlannedFile} (hfiles : u.patch.files = some files)
    (hprogress : u.patch.fileProgress = none) (h : s.apply now id t u = .ok (.applied, s')) :
    s'.fileRows id = files.map (writePlannedFile id) := by
  obtain ⟨-, -, ⟨-, -, s₁, hs₁, rfl⟩ | ⟨hc, -⟩⟩ := apply_ok h
  · obtain ⟨-, s₂, hplan, hrows⟩ := applyPatch_ok hs₁
    rw [hprogress] at hrows
    rw [hfiles] at hplan
    rw [fileRows, appendTransition_files, hrows]
    exact fileRows_replaceFiles hplan
  · cases hc

/-- The step that fetches a torrent leaves exactly the torrent's files. -/
theorem fileRows_fetched {s' : SqliteRepairStore} {now : Time} {t : Transition}
    {u : TransitionUpdate} {bytes : List UInt8}
    (h : s.apply now id t { u with patch := fetchedPatch m bytes } = .ok (.applied, s')) :
    s'.fileRows id = (fetchedFiles m).map (writePlannedFile id) := fileRows_applied rfl rfl h

/-! ## A torrent that lists its files out of order -/

/-- A torrent of two files, the later path first. -/
def unsortedTorrent : TorrentMetadata where
  infoHash := ⟨Vector.replicate 20 0⟩
  name := .ofComponent "t" (by decide)
  pieceLength := 1
  files := [⟨.ofComponent "b" (by decide), 1⟩, ⟨.ofComponent "a" (by decide), 2⟩]
  pieces := []

/-- The store after the torrent was fetched. -/
def unsortedStore : SqliteRepairStore where
  jobs := ⟨[discoveredRow ⟨1⟩ 0 ⟨⟨"tracker"⟩, ⟨"7"⟩, "t", none, 3, none⟩], by decide⟩
  files := ⟨(fetchedFiles unsortedTorrent).map (writePlannedFile ⟨1⟩), by decide⟩
  transitions := []
  jobSeq := 1

theorem laidOut_unsorted : LaidOut unsortedTorrent := ⟨by decide, by decide, by decide⟩

/-- The first file is looked for behind the second. -/
theorem unsorted_ranges_differ :
    ¬SameRanges unsortedTorrent (torrentFiles (unsortedStore.plannedFiles ⟨1⟩)) := by
  intro h
  obtain ⟨j, hj, hrange⟩ := h 0 (by decide)
  have hj' : (torrentFiles (unsortedStore.plannedFiles ⟨1⟩)).findIdx?
      (fun f => f.path = .ofComponent "b" (by decide)) = some 1 := by decide
  cases hj'.symm.trans hj
  exact absurd hrange (by decide)

theorem unsorted_ranges_iff :
    (SameRanges unsortedTorrent (torrentFiles (unsortedStore.plannedFiles ⟨1⟩)) ∧
      NeverRejected unsortedTorrent (torrentFiles (unsortedStore.plannedFiles ⟨1⟩))) ↔
    unsortedTorrent.files.Pairwise
      fun f g => (f.length = 0 ∧ g.length = 0) ∨ f.path.str < g.path.str :=
  plannedRanges_iff laidOut_unsorted (by decide)

end SqliteRepairStore

end SeedMedic
