/-
  What a search among the jobs finds (`repair/adapters/sqlite.rs`).
-/
import SeedMedic.Repair.JobFilter
import SeedMedic.Torrent.InfoHash

namespace SeedMedic

open Lib

/-! ## Hashes and their texts -/

theorem digitIn_hexDigit (n : ℕ) : digitIn 16 (hexDigit n) = some (n % 16) := by
  have hlt : n % 16 < 16 := Nat.mod_lt _ (by decide)
  rw [hexDigit]
  interval_cases n % 16 <;> rfl

theorem hexText_injective : Function.Injective hexText := by
  intro xs
  induction xs with
  | nil =>
    intro ys h
    cases ys with
    | nil => rfl
    | cons y ys => cases h
  | cons x xs ih =>
    intro ys h
    cases ys with
    | nil => cases h
    | cons y ys =>
      obtain ⟨hhigh, hlow, hrest⟩ : hexDigit (x.toNat / 16) = hexDigit (y.toNat / 16) ∧
          hexDigit x.toNat = hexDigit y.toNat ∧ hexText xs = hexText ys := by
        simpa [hexText] using h
      have hhigh' := congrArg (digitIn 16) hhigh
      have hlow' := congrArg (digitIn 16) hlow
      rw [digitIn_hexDigit, digitIn_hexDigit, Option.some.injEq] at hhigh' hlow'
      have hx := x.toNat_lt
      have hy := y.toNat_lt
      have hxy : x = y := UInt8.toNat_inj.1 (by omega)
      rw [hxy, ih hrest]

/-- A hash is written as no other is. -/
theorem InfoHash.toHex_injective : Function.Injective InfoHash.toHex := by
  rintro ⟨x⟩ ⟨y⟩ h
  have htext : hexText x.toList = hexText y.toList := String.ofList_injective h
  rw [InfoHash.mk.injEq, ← Vector.toList_inj]
  exact hexText_injective htext

/-- Forty digits are read as the hash that is written as they are, in lowercase. -/
theorem parseHex_of_isHex {s : String} (h : IsHex s) : ∃ hash, InfoHash.parseHex s = some (.ok hash) ∧
    hash.toHex = String.ofList (s.toList.map Char.toLower) := by
  have hbytes := byteLen_of_digits h.2
  have hsize : s.utf8ByteSize = 40 := by rw [utf8ByteSize_eq, hbytes, h.1]
  have hpairs := pairs_of_digits (by rw [hbytes, h.1]) h.2
  have hplus : '+' ∉ s.toList := fun hplus => not_isHexDigit_plus (h.2 _ hplus)
  have hrest : byteLen s.toList = 20 * 2 := by rw [hbytes, h.1]
  rcases @parseBytes_cases s 20 0 [] s.toList rfl rfl hrest with
    ⟨-, bytes, hread, htext⟩ | ⟨hcut, -⟩ | ⟨hno, -⟩
  · refine ⟨⟨bytes⟩, ?_, congrArg String.ofList (htext hplus)⟩
    rw [InfoHash.parseHex, if_neg (by simp [hsize]), hread]
    rfl
  · exact absurd hcut (not_cut_of_pairs hpairs)
  · exact absurd hpairs hno

/-! ## Searches -/

/-- What a filter asks for besides its search. -/
def JobFilter.narrows (f : JobFilter) (r : JobRow) : Bool :=
  among (f.states.map RepairState.asStr) (some r.state.asStr) &&
    among (f.reviewReasons.map ReviewReason.asStr) (r.reviewReason.map ReviewReason.asStr) &&
    among (f.trackers.map TrackerId.str) (some r.trackerId.str)

/-- The `WHERE` clause, with the database's `LIKE ... ESCAPE '\'`. -/
def JobFilter.selects (likeEscape : String → String → Bool) (f : JobFilter) (r : JobRow) : Bool :=
  let (name, hash) := splitSearch f.search
  f.narrows r && (name.all fun pattern => likeEscape pattern r.torrentName) &&
    hash.all fun hash => (r.infoHash.map InfoHash.toHex) = some hash

/-- A database that reads texts up to their first null character admits what it selects. -/
theorem JobFilter.admits_eq_selects (f : JobFilter) (r : JobRow) :
    f.admits r = f.selects (fun pattern text => like (sqlText pattern) (sqlText text)) r := rfl

/-- A name contains a term as it stands, but for the case of letters of ASCII. -/
def ContainsTerm (name term : String) : Prop :=
  ∃ before found after, name.toList = before ++ found ++ after ∧
    found.map Char.toLower = term.toList.map Char.toLower

/-- The search's part in what a filter selects. -/
theorem splitSearch_eq {search : String} (hterm : trim search ≠ "") :
    splitSearch (some search) =
      if (trim search).utf8ByteSize = 40 ∧
          (trim search).toList.all fun c => (digitIn 16 c).isSome then
        (none, some (String.ofList ((trim search).toList.map Char.toLower)))
      else (some (String.ofList ('%' :: escapeLike (trim search).toList ++ ['%'])), none) := by
  have hfilter : ((some search).map trim).filter (fun term => decide (term ≠ "")) =
      some (trim search) := Option.filter_some_pos (decide_eq_true hterm)
  rw [splitSearch, hfilter]

theorem isHex_iff (s : String) :
    IsHex s ↔ s.utf8ByteSize = 40 ∧ (s.toList.all fun c => (digitIn 16 c).isSome) = true := by
  rw [utf8ByteSize_eq, List.all_eq_true]
  constructor
  · rintro ⟨hlength, hdigits⟩
    exact ⟨(byteLen_of_digits hdigits).trans hlength, hdigits⟩
  · rintro ⟨hsize, hdigits⟩
    exact ⟨(byteLen_of_digits hdigits).symm.trans hsize, hdigits⟩

/-- A job whose name has a wildcard in it. -/
def wildcardRow : JobRow := discoveredRow ⟨1⟩ 0 ⟨⟨"tracker"⟩, ⟨"7"⟩, "100%_wild", none, 10, none⟩

end SeedMedic
