/-
  Runs of like entries at the head of a log, newest first.
-/
import Mathlib.Data.List.TakeWhile

namespace Lib

variable {α : Type} {p : α → Bool} {a : α} {log : List α} {n : ℕ}

/-- How many of the newest entries satisfy `p`, up to the first that does not. -/
def streak (p : α → Bool) (log : List α) : ℕ := (log.takeWhile p).length

@[simp] theorem streak_nil : streak p [] = 0 := rfl

theorem streak_hit (h : p a = true) : streak p (a :: log) = streak p log + 1 := by
  simp [streak, h]

theorem streak_miss (h : p a = false) : streak p (a :: log) = 0 := by
  simp [streak, h]

/-- A streak of `n` is `n` entries that all satisfy the predicate. -/
theorem le_streak_iff : n ≤ streak p log ↔ n ≤ log.length ∧ ∀ a ∈ log.take n, p a = true := by
  induction log generalizing n with
  | nil => cases n <;> simp
  | cons b log ih =>
    cases n with
    | zero => simp
    | succ n =>
      cases hb : p b with
      | true => simp [streak_hit hb, ih, hb]
      | false => simp [streak_miss hb, hb]

/-- A counter that is no higher than the streak it counts, or whose streak is over. -/
def Tallies (n k : ℕ) : Prop := n ≤ k ∨ k = 0

theorem Tallies.mono {n' k : ℕ} (h : Tallies n k) (hn : n' ≤ n) : Tallies n' k := h.imp_left hn.trans

theorem Tallies.zero (k : ℕ) : Tallies 0 k := .inl k.zero_le

/-- A counter of a running streak is no higher than it. -/
theorem Tallies.running {k : ℕ} (h : Tallies n k) (hk : 0 < k) : n ≤ k := h.resolve_right hk.ne'

/-- A counter stays backed when an entry is added, unless it counts entries before the streak. -/
theorem Tallies.cons (h : Tallies n (streak p log)) (hfresh : streak p log = 0 → p a = true → n ≤ 1) :
    Tallies n (streak p (a :: log)) := by
  cases ha : p a with
  | false => exact .inr (streak_miss ha)
  | true =>
    rw [streak_hit ha]
    rcases h with h | h
    · exact .inl (by omega)
    · exact .inl (by have := hfresh h ha; omega)

end Lib
