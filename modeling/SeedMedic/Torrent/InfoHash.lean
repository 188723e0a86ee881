/-
  Info-hashes as text (`torrent/domain.rs`).
-/
import SeedMedic.Lib.Text
import SeedMedic.Torrent.Domain

namespace SeedMedic

open Lib

inductive InfoHashError where
  | length (len : ℕ)
  | notHex
  deriving DecidableEq

def InfoHashError.toText : InfoHashError → String
  | length n => "info-hash must be 40 hex characters, got " ++ toString n
  | notHex => "info-hash contains a non-hex character"

namespace InfoHash

/-- The byte two characters spell, those at `index * 2` and the next; nothing where the slice
    panics. -/
def parseByte (value : String) (index : ℕ) : Option (Except InfoHashError UInt8) :=
  (byteSlice value (index * 2) (index * 2 + 2)).map fun pair =>
    match fromStrRadix 16 255 pair with
    | some n => .ok (UInt8.ofNat n)
    | none => .error .notHex

/-- The next `n` bytes, from `index`; nothing where a slice panics. -/
def parseBytes (value : String) (index : ℕ) :
    (n : ℕ) → Option (Except InfoHashError (Vector UInt8 n))
  | 0 => some (.ok #v[])
  | n + 1 =>
    match parseByte value index with
    | none => none
    | some (.error e) => some (.error e)
    | some (.ok byte) =>
      (parseBytes value (index + 1) n).map fun rest =>
        rest.map fun bytes => ⟨(byte :: bytes.toList).toArray, by simp⟩

/-- Read a hash from hexadecimal; nothing where the program panics. -/
def parseHex (value : String) : Option (Except InfoHashError InfoHash) :=
  if value.utf8ByteSize ≠ 40 then some (.error (.length value.utf8ByteSize))
  else (parseBytes value 0 20).map fun bytes => bytes.map InfoHash.mk

end InfoHash

/-! ## What two characters spell -/

def IsHexDigit (c : Char) : Prop := (digitIn 16 c).isSome = true

/-- A hexadecimal digit is a digit or one of six letters, large or small. -/
theorem isHexDigit_iff {c : Char} : IsHexDigit c ↔ (48 ≤ c.toNat ∧ c.toNat ≤ 57) ∨
    (97 ≤ c.toNat ∧ c.toNat ≤ 102) ∨ (65 ≤ c.toNat ∧ c.toNat ≤ 70) := by
  unfold IsHexDigit digitIn
  dsimp only
  split_ifs <;> simp <;> omega

theorem utf8Size_eq_one {c : Char} (h : c.toNat < 128) : c.utf8Size = 1 :=
  Char.utf8Size_eq_one_iff.2 (UInt32.le_iff_toNat_le.2 (Nat.le_of_lt_succ h))

theorem IsHexDigit.utf8Size {c : Char} (h : IsHexDigit c) : c.utf8Size = 1 :=
  utf8Size_eq_one (by rcases isHexDigit_iff.1 h with h | h | h <;> omega)

/-- A digit is written as it was read, in lowercase. -/
theorem hexDigit_digitIn {c : Char} {d : ℕ} (h : digitIn 16 c = some d) :
    hexDigit d = c.toLower := by
  have hascii : ∀ n < 128, ∀ d ∈ digitIn 16 (Char.ofNat n), hexDigit d = (Char.ofNat n).toLower := by
    decide
  have hlt : c.toNat < 128 := by
    rcases isHexDigit_iff.1 (Option.isSome_iff_exists.2 ⟨d, h⟩) with h | h | h <;> omega
  have hc := hascii c.toNat hlt d
  rw [c.ofNat_toNat] at hc
  exact hc h

/-- Two characters that the number parser takes: two digits, or a plus sign and a digit. -/
def IsPair (a b : Char) : Prop := (IsHexDigit a ∨ a = '+') ∧ IsHexDigit b

/-- Characters in such pairs. -/
def Pairs : List Char → Prop
  | [] => True
  | [_] => False
  | a :: b :: cs => IsPair a b ∧ Pairs cs

/-- Behind such pairs, two bytes that end inside a character. -/
def Cut : List Char → Prop
  | [] => False
  | [a] => 2 < a.utf8Size
  | a :: b :: cs => 2 < a.utf8Size ∨ (a.utf8Size = 1 ∧ 1 < b.utf8Size) ∨ (IsPair a b ∧ Cut cs)

theorem fromDigits_two {a b : Char} : fromDigits 16 255 0 [a, b] =
    (digitIn 16 a).bind fun x => (digitIn 16 b).map fun y => x * 16 + y := by
  cases ha : digitIn 16 a with
  | none => simp [fromDigits, ha]
  | some x =>
    have hx := digitIn_lt ha
    cases hb : digitIn 16 b with
    | none => simp [fromDigits, ha, hb]
    | some y =>
      have hy := digitIn_lt hb
      have hbound : x ≤ 255 := by omega
      have hbound' : x * 16 + y ≤ 255 := by omega
      simp [fromDigits, ha, hb, hbound, hbound']

theorem fromStrRadix_plus (b : Char) : fromStrRadix 16 255 ['+', b] = digitIn 16 b := by
  have hplus : fromStrRadix 16 255 ['+', b] = fromDigits 16 255 0 [b] := rfl
  rw [hplus]
  cases hb : digitIn 16 b with
  | none => simp [fromDigits, hb]
  | some y =>
    have hy := digitIn_lt hb
    simp [fromDigits, hb, show y ≤ 255 by omega]

theorem fromStrRadix_two {a b : Char} (ha : a ≠ '+') : fromStrRadix 16 255 [a, b] =
    (digitIn 16 a).bind fun x => (digitIn 16 b).map fun y => x * 16 + y := by
  rw [← fromDigits_two]
  unfold fromStrRadix
  split
  · simp_all
  · simp_all
  · simp_all
  · simp_all
  · rfl

/-- The pairs that the number parser takes. -/
theorem fromStrRadix_pair {a b : Char} :
    (fromStrRadix 16 255 [a, b]).isSome = true ↔ IsPair a b := by
  by_cases ha : a = '+'
  · subst ha
    rw [fromStrRadix_plus]
    exact (and_iff_right (.inr rfl)).symm
  · rw [fromStrRadix_two ha, IsPair, or_iff_left ha, IsHexDigit, IsHexDigit]
    cases digitIn 16 a <;> cases digitIn 16 b <;> simp

theorem IsPair.utf8Size {a b : Char} (h : IsPair a b) : a.utf8Size = 1 ∧ b.utf8Size = 1 :=
  ⟨h.1.elim IsHexDigit.utf8Size fun ha => ha ▸ rfl, h.2.utf8Size⟩

/-- A character of more than one byte spells no number. -/
theorem fromStrRadix_single {a : Char} (h : 1 < a.utf8Size) : fromStrRadix 16 255 [a] = none := by
  have hdigit : digitIn 16 a = none := by
    refine Option.eq_none_iff_forall_ne_some.2 fun d hd => ?_
    have hsize := IsHexDigit.utf8Size (Option.isSome_iff_exists.2 ⟨d, hd⟩)
    omega
  have hplus : a ≠ '+' := by
    rintro rfl
    exact absurd h (by decide)
  unfold fromStrRadix
  split <;> simp_all [fromDigits]

/-! ## What the whole text is read as -/

/-- The text of some bytes. -/
def hexText (bytes : List UInt8) : List Char :=
  bytes.flatMap fun b => [hexDigit (b.toNat / 16), hexDigit b.toNat]

/-- A pair of digits is written as it was read, in lowercase. -/
theorem hexText_pair {a b : Char} {n : ℕ} (ha : a ≠ '+')
    (h : fromStrRadix 16 255 [a, b] = some n) :
    [hexDigit ((UInt8.ofNat n).toNat / 16), hexDigit (UInt8.ofNat n).toNat] = [a.toLower, b.toLower] := by
  rw [fromStrRadix_two ha] at h
  obtain ⟨x, hx, hrest⟩ := Option.bind_eq_some_iff.1 h
  obtain ⟨y, hy, rfl⟩ := Option.map_eq_some_iff.1 hrest
  have hx16 := digitIn_lt hx
  have hy16 := digitIn_lt hy
  have hnat : (UInt8.ofNat (x * 16 + y)).toNat = x * 16 + y := by
    rw [UInt8.toNat_ofNat']
    omega
  have hlow : hexDigit (x * 16 + y) = hexDigit y := by
    rw [hexDigit, hexDigit]
    congr 1
    omega
  rw [hnat, hlow, show (x * 16 + y) / 16 = x by omega, hexDigit_digitIn hx, hexDigit_digitIn hy]

/-- The loop from byte `index * 2` on: it reads pairs to the end, or panics where two bytes end
    inside a character, or stops at two bytes that are no pair. -/
theorem parseBytes_cases {value : String} : ∀ {n index : ℕ} {before rest : List Char},
    value.toList = before ++ rest → byteLen before = index * 2 → byteLen rest = n * 2 →
      (Pairs rest ∧ ∃ bytes, InfoHash.parseBytes value index n = some (.ok bytes) ∧
        ('+' ∉ rest → hexText bytes.toList = rest.map Char.toLower)) ∨
      (Cut rest ∧ InfoHash.parseBytes value index n = none) ∨
      (¬Pairs rest ∧ ¬Cut rest ∧ ∃ e, InfoHash.parseBytes value index n = some (.error e)) := by
  intro n
  induction n with
  | zero =>
    intro index before rest hvalue hbefore hrest
    rcases rest with _ | ⟨a, rest⟩
    · exact .inl ⟨trivial, _, rfl, fun _ => rfl⟩
    · have hsize := a.utf8Size_pos
      rw [byteLen_cons] at hrest
      omega
  | succ n ih =>
    intro index before rest hvalue hbefore hrest
    have hslice : byteSlice value (index * 2) (index * 2 + 2) = takeBytes 2 rest := by
      rw [← hbefore, byteSlice_append hvalue, Nat.add_sub_cancel_left]
    rcases rest with _ | ⟨a, tail⟩
    · rw [byteLen_nil] at hrest
      omega
    have hpos := a.utf8Size_pos
    by_cases hlarge : 2 < a.utf8Size
    · -- the two bytes end inside the first character
      have htake : takeBytes 2 (a :: tail) = none := by rw [takeBytes, if_neg (by omega)]
      refine .inr (.inl ⟨?_, ?_⟩)
      · cases tail with
        | nil => exact hlarge
        | cons b cs => exact .inl hlarge
      · simp [InfoHash.parseBytes, InfoHash.parseByte, hslice, htake]
    by_cases htwo : a.utf8Size = 2
    · -- they are one character, which is no digit
      have htake : takeBytes 2 (a :: tail) = some [a] := by
        rw [takeBytes, if_pos (by omega), htwo, takeBytes_zero]
        rfl
      have hpair : ∀ b, ¬IsPair a b := fun b h => by
        have hone := h.utf8Size.1
        omega
      refine .inr (.inr ⟨?_, ?_, .notHex, ?_⟩)
      · cases tail with
        | nil => exact id
        | cons b cs => exact fun h => hpair b h.1
      · cases tail with
        | nil => exact fun h => hlarge h
        | cons b cs =>
          rintro (h | h | h)
          · exact hlarge h
          · omega
          · exact hpair b h.1
      · simp [InfoHash.parseBytes, InfoHash.parseByte, hslice, htake,
          fromStrRadix_single (show 1 < a.utf8Size by omega)]
    have hone : a.utf8Size = 1 := by omega
    rcases tail with _ | ⟨b, cs⟩
    · rw [byteLen_cons, byteLen_nil] at hrest
      omega
    have hposb := b.utf8Size_pos
    by_cases hcut : 1 < b.utf8Size
    · -- they end inside the second character
      have htake : takeBytes 2 (a :: b :: cs) = none := by
        rw [takeBytes, if_pos (by omega), hone, takeBytes, if_neg (by omega)]
        rfl
      exact .inr (.inl ⟨.inr (.inl ⟨hone, hcut⟩), by
        simp [InfoHash.parseBytes, InfoHash.parseByte, hslice, htake]⟩)
    have honeb : b.utf8Size = 1 := by omega
    have htake : takeBytes 2 (a :: b :: cs) = some [a, b] := by
      rw [takeBytes, if_pos (by omega), hone, takeBytes, if_pos (by omega), honeb, takeBytes_zero]
      rfl
    cases hread : fromStrRadix 16 255 [a, b] with
    | none =>
      have hpair : ¬IsPair a b := fun h => by
        rw [← fromStrRadix_pair, hread] at h
        cases h
      refine .inr (.inr ⟨fun h => hpair h.1, ?_, .notHex, ?_⟩)
      · rintro (h | h | h)
        · omega
        · omega
        · exact hpair h.1
      · simp [InfoHash.parseBytes, InfoHash.parseByte, hslice, htake, hread]
    | some byte =>
      have hpair : IsPair a b := fromStrRadix_pair.1 (by rw [hread]; rfl)
      have hparse : InfoHash.parseByte value index = some (.ok (UInt8.ofNat byte)) := by
        simp [InfoHash.parseByte, hslice, htake, hread]
      have hvalue' : value.toList = (before ++ [a, b]) ++ cs := by simpa using hvalue
      have hbefore' : byteLen (before ++ [a, b]) = (index + 1) * 2 := by
        simp [hbefore, hone, honeb]
        omega
      have hrest' : byteLen cs = n * 2 := by
        simp [hone, honeb] at hrest
        omega
      rcases ih hvalue' hbefore' hrest' with ⟨hpairs, bytes, hbytes, htext⟩ | ⟨hcs, hbytes⟩ |
        ⟨hpairs, hcs, e, hbytes⟩
      · have hcons : InfoHash.parseBytes value index (n + 1) =
            some (.ok ⟨(UInt8.ofNat byte :: bytes.toList).toArray, by simp⟩) := by
          simp [InfoHash.parseBytes, hparse, hbytes, Except.map]
        refine .inl ⟨⟨hpair, hpairs⟩, _, hcons, fun hplus => ?_⟩
        simp only [List.mem_cons, not_or] at hplus
        have hnow := hexText_pair (Ne.symm hplus.1) hread
        have hlater := htext hplus.2.2
        simp only [hexText, List.flatMap_cons, Vector.toList_mk] at hlater ⊢
        rw [hnow, hlater]
        rfl
      · exact .inr (.inl ⟨.inr (.inr ⟨hpair, hcs⟩), by
          simp [InfoHash.parseBytes, hparse, hbytes]⟩)
      · refine .inr (.inr ⟨fun h => hpairs h.2, ?_, e, by
          simp [InfoHash.parseBytes, hparse, hbytes, Except.map]⟩)
        rintro (h | h | h)
        · omega
        · omega
        · exact hcs h.2

/-- Forty hexadecimal digits. -/
def IsHex (s : String) : Prop := s.toList.length = 40 ∧ ∀ c ∈ s.toList, IsHexDigit c

/-- The hash of a text of forty digits is read, and written as that text in lowercase; of any other
    text there is an error. -/
def ReadsHex (s : String) : Prop :=
  (IsHex s → ∃ h, InfoHash.parseHex s = some (.ok h) ∧
    h.toHex = String.ofList (s.toList.map Char.toLower)) ∧
  (¬IsHex s → ∃ e, InfoHash.parseHex s = some (.error e))

theorem byteLen_of_digits {cs : List Char} (h : ∀ c ∈ cs, IsHexDigit c) : byteLen cs = cs.length := by
  induction cs with
  | nil => rfl
  | cons c cs ih =>
    obtain ⟨hc, hcs⟩ := List.forall_mem_cons.1 h
    rw [byteLen_cons, ih hcs, hc.utf8Size, List.length_cons, Nat.add_comm]

theorem pairs_of_digits : ∀ {cs : List Char}, byteLen cs % 2 = 0 → (∀ c ∈ cs, IsHexDigit c) → Pairs cs
  | [], _, _ => trivial
  | [a], heven, h => by
    have ha := (h a (List.mem_singleton_self a)).utf8Size
    simp [ha] at heven
  | a :: b :: cs, heven, h => by
    obtain ⟨ha, hb, hcs⟩ := List.forall_mem_cons.1 h |>.imp id List.forall_mem_cons.1
    rw [byteLen_cons, byteLen_cons, ha.utf8Size, hb.utf8Size] at heven
    exact ⟨⟨.inl ha, hb⟩, pairs_of_digits (by omega) hcs⟩

theorem digits_of_pairs : ∀ {cs : List Char}, Pairs cs → '+' ∉ cs → ∀ c ∈ cs, IsHexDigit c
  | [], _, _ => fun c hc => absurd hc List.not_mem_nil
  | [a], h, _ => h.elim
  | a :: b :: cs, h, hplus => by
    simp only [List.mem_cons, not_or] at hplus
    refine List.forall_mem_cons.2 ⟨h.1.1.resolve_right (Ne.symm hplus.1), ?_⟩
    exact List.forall_mem_cons.2 ⟨h.1.2, digits_of_pairs h.2 hplus.2.2⟩

theorem not_isHexDigit_plus : ¬IsHexDigit '+' := by
  rw [isHexDigit_iff]
  decide

theorem not_cut_of_pairs : ∀ {cs : List Char}, Pairs cs → ¬Cut cs
  | [], _ => id
  | [a], h => h.elim
  | a :: b :: cs, h => by
    obtain ⟨ha, hb⟩ := h.1.utf8Size
    rintro (hc | hc | hc)
    · omega
    · omega
    · exact not_cut_of_pairs h.2 hc.2

/-- Texts that are read as the bytes of a hash are: all but those of forty bytes that are pairs with
    a plus sign among them, or that two bytes behind such pairs end inside a character of. -/
theorem readsHex_iff (s : String) : ReadsHex s ↔
    ¬(s.utf8ByteSize = 40 ∧ (Cut s.toList ∨ (Pairs s.toList ∧ '+' ∈ s.toList))) := by
  have hhex : IsHex s ↔ s.utf8ByteSize = 40 ∧ Pairs s.toList ∧ '+' ∉ s.toList := by
    rw [utf8ByteSize_eq]
    constructor
    · rintro ⟨hlength, hdigits⟩
      have hsize := byteLen_of_digits hdigits
      exact ⟨by omega, pairs_of_digits (by omega) hdigits,
        fun hplus => not_isHexDigit_plus (hdigits _ hplus)⟩
    · rintro ⟨hsize, hpairs, hplus⟩
      have hdigits := digits_of_pairs hpairs hplus
      exact ⟨by rw [← byteLen_of_digits hdigits, hsize], hdigits⟩
  by_cases hsize : s.utf8ByteSize = 40
  · have hparse : InfoHash.parseHex s =
        (InfoHash.parseBytes s 0 20).map fun bytes => bytes.map InfoHash.mk := by
      rw [InfoHash.parseHex, if_neg (by simp [hsize])]
    have hrest : byteLen s.toList = 20 * 2 := by rw [← utf8ByteSize_eq, hsize]
    have hzero : byteLen [] = 0 * 2 := rfl
    rcases parseBytes_cases (List.nil_append s.toList).symm hzero hrest with
      ⟨hpairs, bytes, hbytes, htext⟩ | ⟨hcut, hbytes⟩ | ⟨hpairs, hcut, e, hbytes⟩
    · by_cases hplus : '+' ∈ s.toList
      · refine iff_of_false ?_ fun h => h ⟨hsize, .inr ⟨hpairs, hplus⟩⟩
        rintro ⟨-, h⟩
        obtain ⟨e, he⟩ := h fun hs => (hhex.1 hs).2.2 hplus
        rw [hparse, hbytes] at he
        cases he
      · refine iff_of_true ⟨fun _ => ⟨⟨bytes⟩, ?_, ?_⟩, fun h => ?_⟩ ?_
        · rw [hparse, hbytes]
          rfl
        · exact congrArg String.ofList (htext hplus)
        · exact absurd (hhex.2 ⟨hsize, hpairs, hplus⟩) h
        · rintro ⟨-, hcut | hp⟩
          · exact not_cut_of_pairs hpairs hcut
          · exact hplus hp.2
    · refine iff_of_false ?_ fun h => h ⟨hsize, .inl hcut⟩
      rintro ⟨-, h⟩
      obtain ⟨e, he⟩ := h fun hs => not_cut_of_pairs (hhex.1 hs).2.1 hcut
      rw [hparse, hbytes] at he
      cases he
    · refine iff_of_true ⟨fun hs => absurd (hhex.1 hs).2.1 hpairs, fun _ => ⟨e, ?_⟩⟩ ?_
      · rw [hparse, hbytes]
        rfl
      · rintro ⟨-, h | h⟩
        · exact hcut h
        · exact hpairs h.1
  · refine iff_of_true ⟨fun hs => absurd (hhex.1 hs).1 hsize, fun _ => ?_⟩ fun h => hsize h.1
    exact ⟨_, if_pos hsize⟩

/-- Twenty signs, each before a digit, are read as a hash. -/
theorem signed_text_is_read : ¬ReadsHex "+1+2+3+4+5+6+7+8+9+a+b+c+d+e+f+0+1+2+3+4" := by
  intro h
  obtain ⟨e, he⟩ := h.2 fun hs => not_isHexDigit_plus (hs.2 '+' (by decide))
  revert he
  have hparse : (InfoHash.parseHex "+1+2+3+4+5+6+7+8+9+a+b+c+d+e+f+0+1+2+3+4").map
      Except.toBool = some true := by decide
  intro he
  rw [he] at hparse
  cases hparse

end SeedMedic
