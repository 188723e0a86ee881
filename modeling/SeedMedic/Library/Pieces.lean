/-
  How a torrent's files and its pieces divide its bytes, which pieces lie inside one file, and
  which of these are checked (`library/verification.rs`).
-/
import SeedMedic.Lib.Cuts
import SeedMedic.Lib.Layout
import SeedMedic.Library.VerificationRanges

namespace SeedMedic

open Lib

/-! ## Ranges that divide the bytes -/

/-- A byte of a range. -/
def ByteRange.Has (r : ByteRange) (b : ℕ) : Prop := r.start ≤ b ∧ b < r.stop

/-- The first `n` ranges divide the bytes up to `total` in their order: every byte is in exactly
    one, none reaches farther, and each ends before the ones behind it start. -/
structure Divides (ranges : ℕ → ByteRange) (n total : ℕ) : Prop where
  ordered : ∀ i < n, (ranges i).start ≤ (ranges i).stop
  inside : ∀ i < n, (ranges i).stop ≤ total
  covers : ∀ b < total, ∃! i, i < n ∧ (ranges i).Has b
  apart : ∀ i j, i < j → j < n → (ranges i).stop ≤ (ranges j).start

/-- Ranges from one cut to the next. -/
theorem Divides.of_cuts {ranges : ℕ → ByteRange} {n total : ℕ} (cut : ℕ → ℕ)
    (hcut : Ascends cut n) (hfirst : cut 0 = 0) (hlast : cut n = total)
    (hranges : ∀ i < n, ranges i = ⟨cut i, cut (i + 1)⟩) : Divides ranges n total where
  ordered i hi := by
    rw [hranges i hi]
    exact hcut i hi
  inside i hi := by
    rw [hranges i hi, ← hlast]
    exact hcut.le hi le_rfl
  covers b hb := by
    obtain ⟨i, ⟨hi, hbetween⟩, hunique⟩ :=
      hcut.existsUnique_between (hfirst ▸ Nat.zero_le b) (hlast ▸ hb)
    refine ⟨i, ⟨hi, ?_⟩, fun j hj => hunique j ⟨hj.1, ?_⟩⟩
    · rw [hranges i hi]
      exact hbetween
    · have hhas := hj.2
      rw [hranges j hj.1] at hhas
      exact hhas
  apart i j hij hj := by
    rw [hranges i (hij.trans hj), hranges j hj]
    exact hcut.le hij hj.le

/-- How many pieces cover that many bytes. -/
def pieceCountOf (pieceLength total : ℕ) : ℕ := (total + pieceLength - 1) / pieceLength

section
variable {files : List TorrentFile} {pieceLength total k : ℕ}

theorem lt_pieceCountOf_iff (hpositive : 0 < pieceLength) :
    k < pieceCountOf pieceLength total ↔ k * pieceLength < total := by
  unfold pieceCountOf
  rw [← Nat.succ_le_iff, Nat.le_div_iff_mul_le hpositive, Nat.succ_mul]
  omega

/-- The range of a file, from where it starts to where the next one does. -/
theorem fileByteRange_cuts (htotal : (files.map (·.length)).sum < wordSize) {i : ℕ}
    (hi : i < files.length) : fileByteRange files i =
      ⟨startOf (·.length) files i, startOf (·.length) files (i + 1)⟩ := by
  rw [startOf_succ _ hi]
  exact fileByteRange_exact htotal (List.getElem?_eq_getElem hi)

theorem files_divide (htotal : (files.map (·.length)).sum < wordSize) :
    Divides (fileByteRange files) files.length (files.map (·.length)).sum := by
  refine .of_cuts (startOf (·.length) files) (fun i hi => ?_) rfl
    (startOf_length _ files) fun i hi => fileByteRange_cuts htotal hi
  exact startOf_mono _ files (Nat.le_succ i)

/-- The range of a piece: nothing overflows as long as it starts before half of what a word
    holds. -/
theorem pieceByteRange_cuts (htotal : total < 2 ^ 63) (hword : pieceLength < wordSize)
    (hk : k * pieceLength < total) : pieceByteRange k pieceLength total =
      ⟨min (k * pieceLength) total, min ((k + 1) * pieceLength) total⟩ := by
  have hsize := wordSize_eq
  have hend : k * pieceLength + pieceLength < wordSize := by
    obtain rfl | hpos := Nat.eq_zero_or_pos k
    · omega
    · have hle : pieceLength ≤ k * pieceLength := Nat.le_mul_of_pos_left _ hpos
      omega
  rw [pieceByteRange_exact hend, min_eq_left hk.le, Nat.succ_mul]

theorem pieces_divide (htotal : total < 2 ^ 63) (hpositive : 0 < pieceLength)
    (hword : pieceLength < wordSize) :
    Divides (fun k => pieceByteRange k pieceLength total) (pieceCountOf pieceLength total)
      total := by
  refine .of_cuts (fun k => min (k * pieceLength) total) (fun k _ => ?_) (by simp) ?_
    fun k hk => pieceByteRange_cuts htotal hword ((lt_pieceCountOf_iff hpositive).1 hk)
  · exact min_le_min_right total (Nat.mul_le_mul_right _ (Nat.le_succ k))
  · exact min_eq_right (not_lt.1 fun hlt => lt_irrefl _ ((lt_pieceCountOf_iff hpositive).2 hlt))

theorem pieceByteRange_nonempty (htotal : total < 2 ^ 63) (hpositive : 0 < pieceLength)
    (hword : pieceLength < wordSize) (hk : k < pieceCountOf pieceLength total) :
    (pieceByteRange k pieceLength total).start < (pieceByteRange k pieceLength total).stop := by
  have hlt := (lt_pieceCountOf_iff hpositive).1 hk
  rw [pieceByteRange_cuts htotal hword hlt]
  dsimp only
  rw [min_eq_left hlt.le, lt_min_iff, Nat.succ_mul]
  omega

/-! ## Pieces inside one file -/

/-- A range that is not empty is contained in another exactly when its ends are. -/
theorem ByteRange.contains_iff {r r' : ByteRange} (h : r.start < r.stop) :
    (∀ b, r.Has b → r'.Has b) ↔ r'.start ≤ r.start ∧ r.stop ≤ r'.stop := by
  constructor
  · intro hsub
    have hfirst := (hsub r.start ⟨le_rfl, h⟩).1
    have hlast := (hsub (r.stop - 1) ⟨by omega, by omega⟩).2
    exact ⟨hfirst, by omega⟩
  · rintro ⟨hstart, hstop⟩ b ⟨hb, hb'⟩
    exact ⟨hstart.trans hb, hb'.trans_le hstop⟩

theorem piecesWithinFile_increasing (fileRange : ByteRange) (pieceLength pieceCount total : ℕ) :
    (piecesWithinFile fileRange pieceLength pieceCount total).Pairwise (· < ·) :=
  List.pairwise_lt_range.filter _

/-- The files of a torrent and its pieces divide its bytes, each in order and without a gap, the
    pieces without an empty one; the pieces within a file are, in order, those contained in its
    range, and none is within two files. -/
theorem pieces_within_files {count : ℕ} (htotal : (files.map (·.length)).sum = total)
    (hfits : total < 2 ^ 63) (hpositive : 0 < pieceLength) (hword : pieceLength < wordSize)
    (hcount : pieceCountOf pieceLength total = count) :
    Divides (fileByteRange files) files.length total ∧
    Divides (fun k => pieceByteRange k pieceLength total) count total ∧
    (∀ k < count,
      (pieceByteRange k pieceLength total).start < (pieceByteRange k pieceLength total).stop) ∧
    (∀ i < files.length,
      (piecesWithinFile (fileByteRange files i) pieceLength count total).Pairwise (· < ·) ∧
      ∀ k, k ∈ piecesWithinFile (fileByteRange files i) pieceLength count total ↔
        k < count ∧
          ∀ b, (pieceByteRange k pieceLength total).Has b → (fileByteRange files i).Has b) ∧
    ∀ i j, i < files.length → j < files.length → i ≠ j →
      ∀ k ∈ piecesWithinFile (fileByteRange files i) pieceLength count total,
        k ∉ piecesWithinFile (fileByteRange files j) pieceLength count total := by
  subst htotal hcount
  have hfiles : Divides (fileByteRange files) files.length (files.map (·.length)).sum :=
    files_divide (hfits.trans (by decide))
  have hnonempty : ∀ k < pieceCountOf pieceLength (files.map (·.length)).sum, _ :=
    fun k hk => pieceByteRange_nonempty hfits hpositive hword hk
  refine ⟨hfiles, pieces_divide hfits hpositive hword, hnonempty, fun i hi => ⟨?_, fun k => ?_⟩,
    fun i j hi hj hij k hk hk' => ?_⟩
  · exact piecesWithinFile_increasing _ _ _ _
  · rw [mem_piecesWithinFile]
    exact and_congr_right fun hk => (ByteRange.contains_iff (hnonempty k hk)).symm
  · -- the first byte of the piece would be in both files
    rw [mem_piecesWithinFile] at hk hk'
    have hstart := hnonempty k hk.1
    obtain hlt | hlt := Nat.lt_or_gt_of_ne hij
    · have hapart := hfiles.apart i j hlt hj
      omega
    · have hapart := hfiles.apart j i hlt hi
      omega

/-- A file shorter than a piece, an empty one, and one that ends with the short last piece. -/
def threeFiles : List TorrentFile :=
  [⟨.ofComponent "cover.jpg" (by decide), 3⟩, ⟨.ofComponent "empty.nfo" (by decide), 0⟩,
    ⟨.ofComponent "film.mkv" (by decide), 14⟩]

theorem pieces_within_three_files : pieceCountOf 4 17 = 5 ∧
    piecesWithinFile (fileByteRange threeFiles 2) 4 5 17 = [1, 2, 3, 4] ∧
    ∀ i j, i < threeFiles.length → j < threeFiles.length → i ≠ j →
      ∀ k ∈ piecesWithinFile (fileByteRange threeFiles i) 4 5 17,
        k ∉ piecesWithinFile (fileByteRange threeFiles j) 4 5 17 :=
  ⟨by decide, by decide, (pieces_within_files (by decide) (by decide)
    (by decide) (by decide) (by decide)).2.2.2.2⟩

end

/-! ## Pieces that are checked -/

theorem dedupAdjacent_of_increasing : ∀ {xs : List ℕ}, xs.Pairwise (· < ·) →
    dedupAdjacent xs = xs
  | [], _ => rfl
  | [_], _ => rfl
  | a :: b :: xs, h => by
    rw [List.pairwise_cons] at h
    have hne : a ≠ b := (h.1 b List.mem_cons_self).ne
    rw [dedupAdjacent, if_neg hne, dedupAdjacent_of_increasing h.2]

/-- Places spread over a list that is longer than they are many do not meet. -/
theorem spread_lt {d last p q : ℕ} (hd : 0 < d) (hle : d ≤ last) (h : p < q) :
    p * last / d < q * last / d := by
  have hnext : p * last + d ≤ q * last := calc
    p * last + d ≤ p * last + last := Nat.add_le_add_left hle _
    _ = (p + 1) * last := (Nat.succ_mul p last).symm
    _ ≤ q * last := Nat.mul_le_mul_right _ h
  calc p * last / d < p * last / d + 1 := Nat.lt_succ_self _
    _ = (p * last + d) / d := (Nat.add_div_right _ hd).symm
    _ ≤ q * last / d := Nat.div_le_div_right hnext

section
variable {available : List ℕ} {count : ℕ}

/-- The places of a list that are selected, where not all of it is. -/
def spreadPlaces (length count : ℕ) : List ℕ :=
  (List.range count).map fun position => position * (length - 1) / max (count - 1) 1

theorem spreadPlaces_lt {length : ℕ} (hlt : count < length) :
    ∀ i ∈ spreadPlaces length count, i < length := by
  intro i hi
  obtain ⟨position, hposition, rfl⟩ := List.mem_map.1 hi
  have hle : position * (length - 1) / max (count - 1) 1 ≤ length - 1 := by
    refine Nat.div_le_of_le_mul (Nat.mul_le_mul_right _ ?_)
    have hcount := List.mem_range.1 hposition
    omega
  omega

theorem spreadPlaces_increasing {length : ℕ} (hlt : count < length) :
    (spreadPlaces length count).Pairwise (· < ·) := by
  refine List.pairwise_map.2 (List.pairwise_lt_range.imp_of_mem fun {p q} hp hq h => ?_)
  have hcount := List.mem_range.1 hq
  exact spread_lt (by omega) (by omega) h

/-- What an increasing list has at increasing places increases. -/
theorem increasing_at_places (h : available.Pairwise (· < ·)) {places : List ℕ}
    (hplaces : places.Pairwise (· < ·)) (hlt : ∀ i ∈ places, i < available.length) :
    (places.map fun i => (available[i]?).getD 0).Pairwise (· < ·) := by
  refine List.pairwise_map.2 (hplaces.imp_of_mem fun {i j} hi hj hij => ?_)
  have hi' := hlt i hi
  have hj' := hlt j hj
  rw [List.getElem?_eq_getElem hi', List.getElem?_eq_getElem hj']
  exact List.pairwise_iff_getElem.1 h i j hi' hj' hij

theorem selectPieces_eq (hpositive : 0 < count) (hlt : count < available.length)
    (h : available.Pairwise (· < ·)) : selectPieces available count =
      (spreadPlaces available.length count).map fun i => (available[i]?).getD 0 := by
  have hne : available ≠ [] := List.ne_nil_of_length_pos (by omega)
  have hincreasing := increasing_at_places h (spreadPlaces_increasing hlt) (spreadPlaces_lt hlt)
  unfold selectPieces
  rw [if_neg (by simp [hne, hpositive.ne']), if_neg (by omega)]
  dsimp only
  rw [spreadPlaces, List.map_map] at hincreasing ⊢
  exact dedupAdjacent_of_increasing hincreasing

theorem spreadPlaces_head (hpositive : 0 < count) (length : ℕ) :
    (spreadPlaces length count).head? = some 0 := by
  rw [spreadPlaces, List.head?_map, List.head?_range, if_neg hpositive.ne']
  simp

theorem spreadPlaces_getLast (htwo : 2 ≤ count) (length : ℕ) :
    (spreadPlaces length count).getLast? = some (length - 1) := by
  have hmax : max (count - 1) 1 = count - 1 := max_eq_left (by omega)
  rw [spreadPlaces, List.getLast?_map, List.getLast?_range, if_neg (by omega), Option.map_some,
    hmax, Nat.mul_div_cancel_left _ (by omega)]

/-- No product of `selectPieces` leaves a word: the pieces of a torrent of at most 10 MiB are far
    fewer than this. -/
theorem wmul_place {length position : ℕ} (hlt : count < length) (hposition : position < count)
    (hlength : length ≤ 2 ^ 32) : wmul position (length - 1) = position * (length - 1) := by
  refine wmul_of_lt ?_
  calc position * (length - 1) < 2 ^ 32 * 2 ^ 32 :=
        Nat.mul_lt_mul'' (by omega) (by omega)
    _ = wordSize := by decide

/-- The pieces checked are exactly as many as asked for or as there are, in order and without
    repetition, and reach from the first of the available ones to the last; finding their places
    in the list does not overflow. -/
theorem selectPieces_spread (h : available.Pairwise (· < ·)) (count : ℕ) :
    (selectPieces available count).Pairwise (· < ·) ∧
    (selectPieces available count).Sublist available ∧
    (selectPieces available count).length = min count available.length ∧
    (1 ≤ count → (selectPieces available count).head? = available.head?) ∧
    (2 ≤ count ∨ available.length ≤ count →
      (selectPieces available count).getLast? = available.getLast?) ∧
    (count < available.length → available.length ≤ 2 ^ 32 → ∀ position < count,
      wmul position (available.length - 1) = position * (available.length - 1)) := by
  have hplaces : count < available.length → available.length ≤ 2 ^ 32 → ∀ position < count, _ :=
    fun hlt hlength position hposition => wmul_place hlt hposition hlength
  obtain rfl | hpositive := Nat.eq_zero_or_pos count
  · have hnone : selectPieces available 0 = [] := if_pos (.inl rfl)
    rw [hnone]
    refine ⟨.nil, List.nil_sublist _, by simp, by omega, fun hlast => ?_, hplaces⟩
    have hempty : available = [] := List.eq_nil_of_length_eq_zero (by omega)
    rw [hempty]
  obtain hlt | hle := Nat.lt_or_ge count available.length
  · have heq := selectPieces_eq hpositive hlt h
    have hincreasing : (selectPieces available count).Pairwise (· < ·) :=
      heq ▸ increasing_at_places h (spreadPlaces_increasing hlt) (spreadPlaces_lt hlt)
    refine ⟨hincreasing, ?_, ?_, fun _ => ?_, fun hlast => ?_, hplaces⟩
    · have hnodup := hincreasing.imp (fun {a b} hab => Nat.ne_of_lt hab)
      exact List.sublist_of_subperm_of_pairwise
        (List.subperm_of_subset hnodup fun _ => mem_selectPieces) hincreasing h
    · rw [heq, List.length_map, spreadPlaces, List.length_map, List.length_range,
        min_eq_left hlt.le]
    · rw [heq, List.head?_map, spreadPlaces_head hpositive, List.head?_eq_getElem?]
      simp [List.getElem?_eq_getElem (show 0 < available.length by omega)]
    · have htwo : 2 ≤ count := hlast.resolve_right (by omega)
      rw [heq, List.getLast?_map, spreadPlaces_getLast htwo, List.getLast?_eq_getElem?]
      simp [List.getElem?_eq_getElem (show available.length - 1 < available.length by omega)]
  · have hall : selectPieces available count = available := by
      unfold selectPieces
      obtain rfl | hne := eq_or_ne available []
      · exact if_pos (.inr rfl)
      · rw [if_neg (by simp [hne, hpositive.ne']), if_pos hle]
    rw [hall]
    exact ⟨h, .refl _, (min_eq_right hle).symm, fun _ => rfl, fun _ => rfl, hplaces⟩

/-- Three of seven pieces. -/
theorem three_of_seven_spread : [2, 3, 5, 7, 8, 9, 11].Pairwise (· < ·) ∧
    selectPieces [2, 3, 5, 7, 8, 9, 11] 3 = [2, 7, 11] ∧
    (selectPieces [2, 3, 5, 7, 8, 9, 11] 3).length = 3 :=
  ⟨by decide, by decide, (selectPieces_spread (by decide) 3).2.2.1⟩

end

end SeedMedic
