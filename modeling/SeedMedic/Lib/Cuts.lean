/-
  A line cut in places that follow one another: where between two cuts a point lies.
-/
import Mathlib.Order.Defs.LinearOrder
import Mathlib.Order.Lattice
import Mathlib.Logic.ExistsUnique
import Mathlib.Data.Nat.Init

namespace Lib

variable {α : Type} [LinearOrder α] {cut : ℕ → α} {n : ℕ} {x : α}

/-- Cuts that never go back, up to the `n`-th. -/
def Ascends (cut : ℕ → α) (n : ℕ) : Prop := ∀ i < n, cut i ≤ cut (i + 1)

theorem Ascends.le (h : Ascends cut n) {i j : ℕ} (hij : i ≤ j) (hj : j ≤ n) : cut i ≤ cut j := by
  induction j, hij using Nat.le_induction with
  | base => exact le_rfl
  | succ j _ ih => exact (ih (by omega)).trans (h j (by omega))

/-- A point from the first cut to the last lies between two of them. -/
theorem Ascends.exists_between (hfirst : cut 0 ≤ x) (hlast : x < cut n) :
    ∃ i < n, cut i ≤ x ∧ x < cut (i + 1) := by
  induction n with
  | zero => exact absurd hlast (not_lt.2 hfirst)
  | succ n ih =>
    by_cases hx : x < cut n
    · obtain ⟨i, hi, hbetween⟩ := ih hx
      exact ⟨i, hi.trans (Nat.lt_succ_self n), hbetween⟩
    · exact ⟨n, Nat.lt_succ_self n, not_lt.1 hx, hlast⟩

/-- It does so once. -/
theorem Ascends.existsUnique_between (h : Ascends cut n) (hfirst : cut 0 ≤ x) (hlast : x < cut n) :
    ∃! i, i < n ∧ cut i ≤ x ∧ x < cut (i + 1) := by
  obtain ⟨i, hi, hstart, hstop⟩ := exists_between hfirst hlast
  refine ⟨i, ⟨hi, hstart, hstop⟩, ?_⟩
  rintro j ⟨hj, hstart', hstop'⟩
  obtain hlt | rfl | hlt := lt_trichotomy j i
  · exact absurd ((h.le hlt hi.le).trans hstart) (not_le.2 hstop')
  · rfl
  · exact absurd ((h.le hlt hj.le).trans hstart') (not_le.2 hstop)

end Lib
