/-
  Numbers written in decimal, as bytes of ASCII.
-/
import Mathlib.Data.Nat.Digits.Lemmas

namespace Lib

def isDigit (b : UInt8) : Bool := 48 ≤ b && b ≤ 57

def digitByte (d : ℕ) : UInt8 := UInt8.ofNat (48 + d)

def digitValue (b : UInt8) : ℕ := b.toNat - 48

/-- The digits of a number, without leading zeros. -/
def decimal (n : ℕ) : List UInt8 :=
  if n = 0 then [48] else ((Nat.digits 10 n).map digitByte).reverse

def decimalInt : ℤ → List UInt8
  | .ofNat n => decimal n
  | .negSucc n => 45 :: decimal (n + 1)

/-- The number that digits spell behind those of `acc`. -/
def spelled (acc : ℕ) (bs : List UInt8) : ℕ := bs.foldl (fun n b => n * 10 + digitValue b) acc

theorem isDigit_digitByte {d : ℕ} (h : d < 10) : isDigit (digitByte d) = true := by
  interval_cases d <;> decide

theorem digitValue_digitByte {d : ℕ} (h : d < 10) : digitValue (digitByte d) = d := by
  interval_cases d <;> decide

theorem isDigit_iff {b : UInt8} : isDigit b = true ↔ 48 ≤ b.toNat ∧ b.toNat ≤ 57 := by
  simp [isDigit, UInt8.le_iff_toNat_le]

theorem digitByte_digitValue {b : UInt8} (h : isDigit b = true) : digitByte (digitValue b) = b := by
  obtain ⟨hlo, hhi⟩ := isDigit_iff.1 h
  apply UInt8.toNat_inj.1
  simp only [digitByte, digitValue, UInt8.toNat_ofNat']
  omega

theorem digitValue_lt {b : UInt8} (h : isDigit b = true) : digitValue b < 10 := by
  obtain ⟨hlo, hhi⟩ := isDigit_iff.1 h
  unfold digitValue
  omega

theorem spelled_zero (bs : List UInt8) :
    spelled 0 bs = Nat.ofDigits 10 (bs.reverse.map digitValue) := by
  rw [spelled, List.foldl_eq_foldr_reverse, Nat.ofDigits_eq_foldr, List.foldr_map]
  congr
  funext b n
  simp only [Nat.cast_id]
  ring

/-! ## Writing and reading back -/

theorem isDigit_decimal {n : ℕ} : ∀ b ∈ decimal n, isDigit b = true := by
  unfold decimal
  split_ifs with h
  · simp [isDigit]
  · intro b hb
    rw [List.mem_reverse, List.mem_map] at hb
    obtain ⟨d, hd, rfl⟩ := hb
    exact isDigit_digitByte (Nat.digits_lt_base (by decide) hd)

theorem decimal_ne_nil (n : ℕ) : decimal n ≠ [] := by
  unfold decimal
  split_ifs with h
  · exact List.cons_ne_nil _ _
  · rw [Ne, List.reverse_eq_nil_iff, List.map_eq_nil_iff]
    exact Nat.digits_ne_nil_iff_ne_zero.2 h

/-- What is written spells the number. -/
theorem spelled_decimal (n : ℕ) : spelled 0 (decimal n) = n := by
  unfold decimal
  split_ifs with h
  · rw [h]
    rfl
  · rw [spelled_zero, List.reverse_reverse, List.map_map]
    have hsame : (Nat.digits 10 n).map (digitValue ∘ digitByte) = Nat.digits 10 n := by
      conv_rhs => rw [← List.map_id (Nat.digits 10 n)]
      exact List.map_congr_left fun d hd =>
        digitValue_digitByte (Nat.digits_lt_base (by decide) hd)
    rw [hsame, Nat.ofDigits_digits]

/-- Only the number zero is written with a zero in front. -/
theorem decimal_head {n : ℕ} (h : (decimal n).head? = some 48) : n = 0 := by
  by_contra hn
  rw [decimal, if_neg hn, List.head?_reverse, List.getLast?_map] at h
  obtain ⟨d, hd, hzero⟩ := Option.map_eq_some_iff.1 h
  have hlast := List.getLast?_eq_some_getLast (Nat.digits_ne_nil_iff_ne_zero (b := 10).2 hn)
  rw [hlast] at hd
  have hlt : d < 10 := Nat.digits_lt_base (by decide) (List.mem_of_getLast? (hlast.trans hd))
  have hne : d ≠ 0 := fun h0 => Nat.getLast_digit_ne_zero 10 hn ((Option.some.inj hd).trans h0)
  have hval := digitValue_digitByte hlt
  rw [hzero] at hval
  exact hne hval.symm

/-- A number is written in one way: digits without a leading zero are what is written of the
    number they spell. -/
theorem decimal_spelled {bs : List UInt8} (hne : bs ≠ []) (hdigits : ∀ b ∈ bs, isDigit b = true)
    (hlead : bs = [48] ∨ bs.head? ≠ some 48) : decimal (spelled 0 bs) = bs := by
  rcases hlead with rfl | hlead
  · rfl
  have hlast : ∀ h : bs.reverse.map digitValue ≠ [], (bs.reverse.map digitValue).getLast h ≠ 0 := by
    intro h hzero
    obtain ⟨b, bs', rfl⟩ := List.exists_cons_of_ne_nil hne
    have hb : digitValue b = 0 := by simpa using hzero
    have hback := digitByte_digitValue (hdigits b (List.mem_cons_self ..))
    rw [hb] at hback
    exact hlead (by rw [← hback]; rfl)
  have hback : Nat.digits 10 (spelled 0 bs) = bs.reverse.map digitValue := by
    rw [spelled_zero]
    refine Nat.digits_ofDigits 10 (by decide) _ (fun d hd => ?_) hlast
    obtain ⟨b, hb, rfl⟩ := List.mem_map.1 hd
    exact digitValue_lt (hdigits b (List.mem_reverse.1 hb))
  have hpos : spelled 0 bs ≠ 0 := by
    rw [← Nat.digits_ne_nil_iff_ne_zero (b := 10), hback]
    simpa using hne
  rw [decimal, if_neg hpos, hback, List.map_map, ← List.map_reverse, List.reverse_reverse]
  conv_rhs => rw [← List.map_id bs]
  exact List.map_congr_left fun b hb => digitByte_digitValue (hdigits b hb)

end Lib
