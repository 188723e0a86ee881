/-
  Relational tables: rows with a primary key, and the statements that read and
  change them.
-/
import Mathlib.Data.List.Nodup
import Mathlib.Data.List.Basic

namespace Lib

/-- Rows of `α` whose primary key `key` is unique. -/
structure Table (α κ : Type) (key : α → κ) where
  rows : List α
  nodup : (rows.map key).Nodup

namespace Table

variable {α κ : Type} {key : α → κ}

theorem ext_rows {t t' : Table α κ key} (h : t.rows = t'.rows) : t = t' := by
  cases t; cases t'; cases h; rfl

/-- The table without rows. -/
def empty : Table α κ key := ⟨[], List.nodup_nil⟩

/-- The statement `UPDATE … SET f WHERE p`, for an `f` that leaves the key alone. -/
def update (t : Table α κ key) (p : α → Bool) (f : α → α) (hf : ∀ a, key (f a) = key a) :
    Table α κ key where
  rows := t.rows.map fun a => if p a then f a else a
  nodup := by
    have h : (key ∘ fun a => if p a then f a else a) = key := by
      funext a; by_cases hp : p a <;> simp [hp, hf]
    rw [List.map_map, h]; exact t.nodup

theorem mem_update {t : Table α κ key} {p : α → Bool} {f : α → α}
    {hf : ∀ a, key (f a) = key a} {b : α} :
    b ∈ (t.update p f hf).rows ↔ ∃ a ∈ t.rows, (if p a then f a else a) = b := by
  simp [update]

/-- The statement `DELETE … WHERE p`. -/
def delete (t : Table α κ key) (p : α → Bool) : Table α κ key where
  rows := t.rows.filter fun a => !p a
  nodup := t.nodup.sublist (List.filter_sublist.map key)

variable [DecidableEq κ]

/-- The row with primary key `k`. -/
def get? (t : Table α κ key) (k : κ) : Option α := t.rows.find? fun a => key a = k

/-- The statement `INSERT`, refused when the primary key is taken. -/
def insert? (t : Table α κ key) (a : α) : Option (Table α κ key) :=
  if h : key a ∈ t.rows.map key then none
  else some ⟨t.rows ++ [a], by
    rw [List.map_append, List.map_singleton]
    exact t.nodup.append (List.nodup_singleton _) (by simpa using h)⟩

theorem get?_some {t : Table α κ key} {k : κ} {a : α} (h : t.get? k = some a) :
    a ∈ t.rows ∧ key a = k := by
  have := List.find?_some h
  exact ⟨List.mem_of_find?_eq_some h, by simpa using this⟩

theorem get?_eq_some {t : Table α κ key} {a : α} (h : a ∈ t.rows) : t.get? (key a) = some a := by
  obtain ⟨rows, hn⟩ := t
  simp only [get?] at h ⊢
  induction rows with
  | nil => simp at h
  | cons b rows ih =>
    rw [List.map_cons, List.nodup_cons] at hn
    rcases List.mem_cons.1 h with rfl | h
    · simp
    · have hne : key b ≠ key a := fun he => hn.1 (he ▸ List.mem_map_of_mem h)
      rw [List.find?_cons_of_neg (by simpa using hne)]
      exact ih hn.2 h

theorem get?_eq_none {t : Table α κ key} {k : κ} :
    t.get? k = none ↔ ∀ a ∈ t.rows, key a ≠ k := by
  simp [get?, List.find?_eq_none]

/-- What `UPDATE` does to one row. -/
theorem get?_update (t : Table α κ key) (p : α → Bool) (f : α → α) (hf : ∀ a, key (f a) = key a)
    (k : κ) : (t.update p f hf).get? k = (t.get? k).map fun a => if p a then f a else a := by
  simp only [get?, update, List.find?_map]
  congr 1
  refine congrArg (fun q => t.rows.find? q) (funext fun a => ?_)
  by_cases hp : p a <;> simp [hp, hf]

/-- What goes in had no row before. -/
theorem free_of_insert {t t' : Table α κ key} {a : α} (h : t.insert? a = some t') :
    t.get? (key a) = none := by
  unfold insert? at h
  split_ifs at h with hk
  rw [get?_eq_none]
  exact fun b hb he => hk (he ▸ List.mem_map_of_mem hb)

theorem get?_insert {t t' : Table α κ key} {a : α} (h : t.insert? a = some t') (k : κ) :
    t'.get? k = if key a = k then some a else t.get? k := by
  unfold insert? at h
  split_ifs at h with hk
  cases h
  simp only [get?, List.find?_append, List.find?_singleton, decide_eq_true_eq]
  split_ifs with hka
  · have : t.rows.find? (fun b => decide (key b = k)) = none := by
      simp only [List.find?_eq_none, decide_eq_true_eq]
      exact fun b hb he => hk (hka ▸ he ▸ List.mem_map_of_mem hb)
    rw [this]; rfl
  · simp

end Table

end Lib
