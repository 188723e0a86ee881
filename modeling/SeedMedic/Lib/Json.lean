/-
  JSON values, as far as a program builds them and looks into them.
-/
import Mathlib.Data.Rat.Defs

namespace Lib

inductive Json where
  | null
  | bool (b : Bool)
  | num (q : ℚ)
  | str (s : String)
  | arr (xs : List Json)
  | obj (fields : List (String × Json))

namespace Json

/-- The value of field `k` of an object. -/
def get (j : Json) (k : String) : Option Json :=
  match j with
  | obj fields => (fields.find? fun f => f.1 = k).map (·.2)
  | _ => none

def asArray : Json → Option (List Json)
  | arr xs => some xs
  | _ => none

def asStr : Json → Option String
  | str s => some s
  | _ => none

def asBool : Json → Option Bool
  | bool b => some b
  | _ => none

/-- A number that counts something. -/
def asNat : Json → Option ℕ
  | num q => if q.den = 1 ∧ 0 ≤ q.num then some q.num.toNat else none
  | _ => none

def ofNat (n : ℕ) : Json := num n

@[simp] theorem asNat_ofNat (n : ℕ) : (ofNat n).asNat = some n := by
  simp [ofNat, asNat]

/-- What `f` builds, or null where there is nothing. -/
def ofOption {α : Type} (f : α → Json) : Option α → Json
  | some a => f a
  | none => null

/-! ## Equality -/

mutual

/-- Whether two values are the same. -/
def decEq : (a b : Json) → Decidable (a = b)
  | null, null => isTrue rfl
  | bool x, bool y => decidable_of_iff (x = y) (by simp)
  | num x, num y => decidable_of_iff (x = y) (by simp)
  | str x, str y => decidable_of_iff (x = y) (by simp)
  | arr xs, arr ys =>
    match decEqAll xs ys with
    | isTrue h => isTrue (congrArg arr h)
    | isFalse h => isFalse fun he => h (arr.inj he)
  | obj xs, obj ys =>
    match decEqFields xs ys with
    | isTrue h => isTrue (congrArg obj h)
    | isFalse h => isFalse fun he => h (obj.inj he)
  | null, bool _ | null, num _ | null, str _ | null, arr _ | null, obj _
  | bool _, null | bool _, num _ | bool _, str _ | bool _, arr _ | bool _, obj _
  | num _, null | num _, bool _ | num _, str _ | num _, arr _ | num _, obj _
  | str _, null | str _, bool _ | str _, num _ | str _, arr _ | str _, obj _
  | arr _, null | arr _, bool _ | arr _, num _ | arr _, str _ | arr _, obj _
  | obj _, null | obj _, bool _ | obj _, num _ | obj _, str _ | obj _, arr _ => isFalse nofun

def decEqAll : (xs ys : List Json) → Decidable (xs = ys)
  | [], [] => isTrue rfl
  | [], _ :: _ | _ :: _, [] => isFalse nofun
  | x :: xs, y :: ys =>
    match decEq x y, decEqAll xs ys with
    | isTrue h, isTrue h' => isTrue (by rw [h, h'])
    | isFalse h, _ => isFalse fun he => h (List.cons.inj he).1
    | _, isFalse h => isFalse fun he => h (List.cons.inj he).2

def decEqFields : (xs ys : List (String × Json)) → Decidable (xs = ys)
  | [], [] => isTrue rfl
  | [], _ :: _ | _ :: _, [] => isFalse nofun
  | (k, x) :: xs, (l, y) :: ys =>
    match decEq x y, decEqFields xs ys with
    | isTrue h, isTrue h' => decidable_of_iff (k = l) (by simp [h, h'])
    | isFalse h, _ => isFalse fun he => h (Prod.mk.inj (List.cons.inj he).1).2
    | _, isFalse h => isFalse fun he => h (List.cons.inj he).2

end

instance : DecidableEq Json := decEq

end Json

end Lib
