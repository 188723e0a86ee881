/-
  Things laid out back to back: where each starts, and when a reordering moves none.
-/
import Mathlib.Algebra.GroupWithZero.Nat
import Mathlib.Algebra.Order.BigOperators.Group.List
import Mathlib.Algebra.Order.Group.Nat
import Mathlib.Data.List.Nodup
import Mathlib.Order.Defs.LinearOrder

namespace Lib

variable {α κ : Type}

section
variable (len : α → ℕ)

/-- Where the element at place `i` starts. -/
def startOf (xs : List α) (i : ℕ) : ℕ := ((xs.take i).map len).sum

theorem startOf_succ {xs : List α} {i : ℕ} (hi : i < xs.length) :
    startOf len xs (i + 1) = startOf len xs i + len xs[i] := by
  unfold startOf
  rw [List.take_succ_eq_append_getElem hi, List.map_append, List.sum_append]
  simp

theorem startOf_mono (xs : List α) {i j : ℕ} (h : i ≤ j) : startOf len xs i ≤ startOf len xs j := by
  unfold startOf
  exact ((List.take_sublist_take_left h).map len).sum_le_sum fun _ _ => Nat.zero_le _

theorem startOf_length (xs : List α) : startOf len xs xs.length = (xs.map len).sum := by
  rw [startOf, List.take_length]

/-- An earlier element ends before a later one starts. -/
theorem startOf_add_le {xs : List α} {i j : ℕ} (hij : i < j) (hi : i < xs.length) :
    startOf len xs i + len xs[i] ≤ startOf len xs j := by
  rw [← startOf_succ len hi]
  exact startOf_mono len xs hij

/-- Every element ends within the whole. -/
theorem startOf_add_le_sum {xs : List α} {i : ℕ} (hi : i < xs.length) :
    startOf len xs i + len xs[i] ≤ (xs.map len).sum := by
  rw [← startOf_succ len hi, ← startOf_length]
  exact startOf_mono len xs hi

/-- Only the elements that take up room count for a start. -/
theorem startOf_eq_filter (xs : List α) (i : ℕ) :
    startOf len xs i = (((xs.take i).filter fun a => len a ≠ 0).map len).sum := by
  unfold startOf
  induction xs.take i with
  | nil => rfl
  | cons a ys ih =>
    by_cases h : len a = 0
    · simp [h, ih]
    · simp [h, ih]

end

theorem mem_take_iff {xs : List α} (hn : xs.Nodup) {i j : ℕ} (hi : i < xs.length) :
    xs[i] ∈ xs.take j ↔ i < j := by
  constructor
  · intro h
    obtain ⟨k, hk, he⟩ := List.mem_iff_getElem.1 h
    rw [List.length_take] at hk
    rw [List.getElem_take] at he
    have hki : k = i := (List.Nodup.getElem_inj_iff hn).1 he
    omega
  · intro h
    exact List.mem_take_iff_getElem.2 ⟨i, by omega, rfl⟩

variable {len : α → ℕ} {key : α → κ} [LinearOrder κ] {xs ys : List α}

/-- Elements laid out in the order of their keys start where they start in `xs` exactly when
    `xs` has them in that order, up to elements that take up no room. -/
theorem startOf_eq_iff (hp : xs.Perm ys) (hs : ys.Pairwise fun a b => key a < key b) :
    (∀ i j (hi : i < xs.length) (hj : j < ys.length), xs[i] = ys[j] →
      startOf len xs i = startOf len ys j) ↔
    xs.Pairwise fun a b => (len a = 0 ∧ len b = 0) ∨ key a < key b := by
  have hny : ys.Nodup := hs.imp fun h he => absurd (he ▸ h) (lt_irrefl _)
  have hnx : xs.Nodup := hp.nodup_iff.2 hny
  have hlt : ∀ {i j : ℕ} (hi : i < ys.length) (hj : j < ys.length), i < j → key ys[i] < key ys[j] :=
    fun hi hj h => List.pairwise_iff_getElem.1 hs _ _ hi hj h
  -- where an element of the one list stands in the other
  have hplace : ∀ {i : ℕ} (hi : i < xs.length), ∃ j, ∃ hj : j < ys.length, ys[j] = xs[i] :=
    fun hi => List.mem_iff_getElem.1 (hp.subset (List.getElem_mem hi))
  rw [List.pairwise_iff_getElem]
  constructor
  · intro heq i j hi hj hij
    obtain ⟨i', hi', hie⟩ := hplace hi
    obtain ⟨j', hj', hje⟩ := hplace hj
    rcases lt_trichotomy i' j' with h | h | h
    · exact .inr (by rw [← hie, ← hje]; exact hlt hi' hj' h)
    · subst h
      exact absurd ((List.Nodup.getElem_inj_iff hnx).1 (hie.symm.trans hje)) (by omega)
    · -- the two ends bound each other, so neither takes up room
      have h1 := startOf_add_le len hij hi
      have h2 := startOf_add_le len h hj'
      rw [heq i i' hi hi' hie.symm, heq j j' hj hj' hje.symm] at h1
      rw [hje] at h2
      omega
  · intro hpair i j hi hj he
    rw [startOf_eq_filter len xs, startOf_eq_filter len ys]
    refine (List.Perm.map len ?_).sum_eq
    refine (List.perm_ext_iff_of_nodup ((hnx.sublist (List.take_sublist ..)).filter _)
      ((hny.sublist (List.take_sublist ..)).filter _)).2 fun a => ?_
    simp only [List.mem_filter, ne_eq, decide_not, Bool.not_eq_eq_eq_not, Bool.not_true,
      decide_eq_false_iff_not, and_congr_left_iff]
    intro ha
    by_cases hax : a ∈ xs
    · obtain ⟨k, hk, rfl⟩ := List.mem_iff_getElem.1 hax
      obtain ⟨k', hk', hke⟩ := hplace hk
      rw [mem_take_iff hnx hk, ← hke, mem_take_iff hny hk']
      constructor
      · intro hki
        rcases hpair k i hk hi hki with ⟨h0, -⟩ | hkey
        · exact absurd h0 ha
        · by_contra hle
          rcases Nat.lt_or_eq_of_le (not_lt.1 hle) with h | h
          · have := hlt hj hk' h
            rw [hke, ← he] at this
            exact absurd hkey (not_lt.2 this.le)
          · subst h
            rw [he, hke] at hkey
            exact lt_irrefl _ hkey
      · intro hkj
        have hkey := hlt hk' hj hkj
        rw [hke, ← he] at hkey
        by_contra hle
        rcases Nat.lt_or_eq_of_le (not_lt.1 hle) with h | h
        · rcases hpair i k hi hk h with ⟨-, h0⟩ | h'
          · exact ha h0
          · exact absurd hkey (not_lt.2 h'.le)
        · subst h
          exact lt_irrefl _ hkey
    · exact iff_of_false (fun h => hax (List.mem_of_mem_take h))
        fun h => hax (hp.symm.subset (List.mem_of_mem_take h))

end Lib
