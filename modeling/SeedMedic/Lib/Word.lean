/-
  Unsigned 64-bit arithmetic on natural numbers, wrapping as a release build does.
-/
import Mathlib.Data.List.Induction
import Mathlib.Tactic.Ring

namespace Lib

/-- The number of 64-bit words. -/
def wordSize : ℕ := 2 ^ 64

def wadd (a b : ℕ) : ℕ := (a + b) % wordSize

def wsub (a b : ℕ) : ℕ := (a + wordSize - b) % wordSize

def wmul (a b : ℕ) : ℕ := a * b % wordSize

/-- The sum of a list of words. -/
def wsum (xs : List ℕ) : ℕ := xs.foldl wadd 0

theorem wordSize_eq : wordSize = 18446744073709551616 := by decide

theorem wadd_of_lt {a b : ℕ} (h : a + b < wordSize) : wadd a b = a + b := Nat.mod_eq_of_lt h

theorem wmul_of_lt {a b : ℕ} (h : a * b < wordSize) : wmul a b = a * b := Nat.mod_eq_of_lt h

theorem wsub_of_le {a b : ℕ} (h : b ≤ a) (ha : a < wordSize) : wsub a b = a - b := by
  unfold wsub
  rw [show a + wordSize - b = a - b + wordSize by omega, Nat.add_mod_right]
  exact Nat.mod_eq_of_lt (by omega)

/-- Subtracting more than there is wraps round once. -/
theorem wsub_of_lt {a b : ℕ} (h : a < b) (hb : b ≤ wordSize) : wsub a b = a + wordSize - b :=
  Nat.mod_eq_of_lt (by omega)

/-- An addition that overflows loses exactly one word. -/
theorem wadd_of_ge {a b : ℕ} (h : wordSize ≤ a + b) (ha : a < wordSize) (hb : b < wordSize) :
    wadd a b = a + b - wordSize := by
  unfold wadd
  rw [Nat.mod_eq_sub_mod h]
  exact Nat.mod_eq_of_lt (by omega)

theorem foldl_wadd_of_lt (xs : List ℕ) :
    ∀ acc : ℕ, acc + xs.sum < wordSize → xs.foldl wadd acc = acc + xs.sum := by
  induction xs with
  | nil => intro acc _; simp
  | cons x xs ih =>
    intro acc h
    rw [List.sum_cons] at h
    rw [List.foldl_cons, wadd_of_lt (by omega), ih (acc + x) (by omega), List.sum_cons, add_assoc]

/-- A sum that fits is the sum. -/
theorem wsum_of_lt {xs : List ℕ} (h : xs.sum < wordSize) : wsum xs = xs.sum := by
  rw [wsum, foldl_wadd_of_lt xs 0 (by omega), Nat.zero_add]

theorem wsub_lt (a b : ℕ) : wsub a b < wordSize := Nat.mod_lt _ (by decide)

theorem wsub_inj {a b c : ℕ} (ha : a < wordSize) (hb : b < wordSize) (hc : c < wordSize)
    (h : wsub a c = wsub b c) : a = b := by
  rcases Nat.lt_or_ge a c with hac | hac <;> rcases Nat.lt_or_ge b c with hbc | hbc
  · rw [wsub_of_lt hac hc.le, wsub_of_lt hbc hc.le] at h
    omega
  · rw [wsub_of_lt hac hc.le, wsub_of_le hbc hb] at h
    omega
  · rw [wsub_of_le hac ha, wsub_of_lt hbc hc.le] at h
    omega
  · rw [wsub_of_le hac ha, wsub_of_le hbc hb] at h
    omega

theorem wsum_lt (xs : List ℕ) : wsum xs < wordSize := by
  unfold wsum
  induction xs using List.reverseRecOn with
  | nil => decide
  | append_singleton xs x _ =>
    rw [List.foldl_append]
    exact Nat.mod_lt _ (by decide)

end Lib
