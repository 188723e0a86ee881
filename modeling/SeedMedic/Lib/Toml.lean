/-
  TOML documents as trees: the items a key can hold, and tables as keys with what they hold.
-/
import Mathlib.Data.Int.Notation
import Mathlib.Data.List.Basic
import Mathlib.Tactic.Tauto

namespace Lib.Toml

/-- What a key can hold. -/
inductive Item where
  | str (s : String)
  | int (n : ℤ)
  | float (text : String)
  | bool (b : Bool)
  | datetime (text : String)
  | array (xs : List Item)
  | inlineTable (fields : List (String × Item))
  | table (fields : List (String × Item))
  | arrayOfTables (rows : List (List (String × Item)))

/-- Keys with what they hold, in order. -/
abbrev Table := List (String × Item)

namespace Table

def get (t : Table) (k : String) : Option Item := (t.find? fun e => e.1 = k).map (·.2)

/-- Put an item at a key: in its place where the key is there, else at the end. -/
def insert (t : Table) (k : String) (item : Item) : Table :=
  match t with
  | [] => [(k, item)]
  | e :: t => if e.1 = k then (k, item) :: t else e :: insert t k item

def remove (t : Table) (k : String) : Table := t.filter fun e => e.1 ≠ k

def keys (t : Table) : List String := t.map (·.1)

@[simp] theorem get_insert_self (t : Table) (k : String) (item : Item) :
    (t.insert k item).get k = some item := by
  induction t with
  | nil => simp [insert, get]
  | cons e t ih =>
    by_cases he : e.1 = k
    · simp [insert, get, he]
    · simpa [insert, get, he] using ih

theorem get_insert_of_ne (t : Table) {k k' : String} (item : Item) (h : k' ≠ k) :
    (t.insert k item).get k' = t.get k' := by
  induction t with
  | nil => simp [insert, get, h.symm]
  | cons e t ih =>
    by_cases he : e.1 = k
    · have hne : e.1 ≠ k' := fun he' => h (he' ▸ he)
      simp [insert, get, he, h.symm]
    · by_cases he' : e.1 = k'
      · subst he'
        simp [insert, get, he]
      · simpa [insert, get, he, he'] using ih

@[simp] theorem get_remove_self (t : Table) (k : String) : (t.remove k).get k = none := by
  simp [remove, get]

theorem get_remove_of_ne (t : Table) {k k' : String} (h : k' ≠ k) :
    (t.remove k).get k' = t.get k' := by
  simp only [remove, get, List.find?_filter]
  congr 2
  funext e
  by_cases he : e.1 = k'
  · simp [he, h]
  · simp [he]

/-- What is there already is put there without a change. -/
theorem insert_of_get {t : Table} {k : String} {item : Item} (h : t.get k = some item) :
    t.insert k item = t := by
  induction t with
  | nil => cases h
  | cons e t ih =>
    by_cases he : e.1 = k
    · simp only [get, List.find?_cons, he, decide_true, Option.map_some, Option.some.injEq] at h
      subst he h
      simp [insert]
    · have ht : get t k = some item := by simpa [get, he] using h
      simp [insert, he, ih ht]

/-- A key that is not there is removed without a change. -/
theorem remove_of_get {t : Table} {k : String} (h : t.get k = none) : t.remove k = t := by
  simp only [get, Option.map_eq_none_iff, List.find?_eq_none, decide_eq_true_eq] at h
  simpa [remove] using h

/-- A key is there when something is read at it. -/
theorem mem_keys_iff (t : Table) (k : String) : k ∈ t.keys ↔ t.get k ≠ none := by
  simp [keys, get, List.find?_eq_none]

end Table

namespace Item

/-- The table an item is, written out or inline. -/
def asTableLike : Item → Option Table
  | table t | inlineTable t => some t
  | _ => none

/-- The same kind of table, holding something else. -/
def withTable (t : Table) : Item → Item
  | inlineTable _ => inlineTable t
  | _ => table t

def asArrayOfTables : Item → Option (List Table)
  | arrayOfTables rows => some rows
  | _ => none

def asBool : Item → Option Bool
  | bool b => some b
  | _ => none

def asStr : Item → Option String
  | str s => some s
  | _ => none

def asInteger : Item → Option ℤ
  | int n => some n
  | _ => none

def asArray : Item → Option (List Item)
  | array xs => some xs
  | _ => none

@[simp] theorem asTableLike_withTable (item : Item) (t : Table) :
    (item.withTable t).asTableLike = some t := by
  cases item <;> rfl

end Item

end Lib.Toml
