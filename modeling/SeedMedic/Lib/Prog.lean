/-
  Interaction programs: sequential code that reaches its surroundings one call at
  a time, and what a run of such code can do.
-/
import Mathlib.Data.List.Basic

namespace Lib

/-- Code that either returns or makes a call of `C`, answered in `A`. -/
inductive Prog (C : Type) (A : C → Type) (α : Type) : Type
  | ret (a : α)
  | call (c : C) (k : A c → Prog C A α)

namespace Prog

variable {C : Type} {A : C → Type} {α β γ σ : Type}

/-- Run `p`, then `f` on what it returns. -/
def bind : Prog C A α → (α → Prog C A β) → Prog C A β
  | ret a, f => f a
  | call c k, f => call c fun r => (k r).bind f

instance : Monad (Prog C A) where
  pure := ret
  bind := bind

/-- One call, returning its answer. -/
def ask (c : C) : Prog C A (A c) := call c ret

@[simp] theorem pure_eq (a : α) : (Pure.pure a : Prog C A α) = ret a := rfl

@[simp] theorem ret_bind (a : α) (f : α → Prog C A β) : (ret a >>= f) = f a := rfl

@[simp] theorem call_bind (c : C) (k : A c → Prog C A α) (f : α → Prog C A β) :
    (call c k >>= f) = call c fun r => k r >>= f := rfl

@[simp] theorem ask_bind (c : C) (f : A c → Prog C A β) : (ask c >>= f) = call c f := rfl

theorem bind_ret (p : Prog C A α) : (p >>= ret) = p := by
  induction p with
  | ret a => rfl
  | call c k ih => rw [call_bind]; exact congrArg _ (funext ih)

theorem bind_assoc (p : Prog C A α) (f : α → Prog C A β) (g : β → Prog C A γ) :
    (p >>= f >>= g) = (p >>= fun a => f a >>= g) := by
  induction p with
  | ret a => rfl
  | call c k ih => simp only [call_bind]; exact congrArg _ (funext ih)

/-- The rest of a program once a call was answered; all of it where it waits for another call. -/
def follow [DecidableEq C] : Prog C A α → (c : C) → A c → Prog C A α
  | ret a, _, _ => ret a
  | call c k, c', r => if h : c' = c then k (h ▸ r) else call c k

@[simp] theorem follow_call [DecidableEq C] (c : C) (k : A c → Prog C A α) (r : A c) :
    (call c k).follow c r = k r := by
  simp [follow]

/-! ## Programs against surroundings that answer by a function -/

/-- The result when call `c` is always answered by `h c`. -/
def eval (h : (c : C) → A c) : Prog C A α → α
  | ret a => a
  | call c k => (k (h c)).eval h

@[simp] theorem eval_ret (h : (c : C) → A c) (a : α) : (ret a : Prog C A α).eval h = a := rfl

@[simp] theorem eval_call (h : (c : C) → A c) (c : C) (k : A c → Prog C A α) :
    (call c k).eval h = (k (h c)).eval h := rfl

@[simp] theorem eval_bind (h : (c : C) → A c) (p : Prog C A α) (f : α → Prog C A β) :
    (p >>= f).eval h = (f (p.eval h)).eval h := by
  induction p with
  | ret a => rfl
  | call c k ih => rw [call_bind, eval_call, ih, eval_call]

/-- The result when a call `c` is always answered by `h c`; none when one is not answered. -/
def answered (h : (c : C) → Option (A c)) : Prog C A α → Option α
  | ret a => some a
  | call c k => (h c).bind fun r => (k r).answered h

@[simp] theorem answered_ret (h : (c : C) → Option (A c)) (a : α) :
    (ret a : Prog C A α).answered h = some a := rfl

@[simp] theorem answered_call (h : (c : C) → Option (A c)) (c : C) (k : A c → Prog C A α) :
    (call c k).answered h = (h c).bind fun r => (k r).answered h := rfl

@[simp] theorem answered_bind (h : (c : C) → Option (A c)) (p : Prog C A α) (f : α → Prog C A β) :
    (p >>= f).answered h = (p.answered h).bind fun a => (f a).answered h := by
  induction p with
  | ret a => rfl
  | call c k ih =>
    rw [call_bind, answered_call, answered_call, Option.bind_assoc]
    exact congrArg _ (funext ih)

/-- A loop whose steps all come to a result comes to the result of the loop over these. -/
theorem answered_foldlM {h : (c : C) → Option (A c)} {f : β → α → Prog C A β} {g : β → α → β}
    (hf : ∀ b a, (f b a).answered h = some (g b a)) (l : List α) :
    ∀ b, (l.foldlM f b).answered h = some (l.foldl g b) := by
  induction l with
  | nil => exact fun b => rfl
  | cons a l ih =>
    intro b
    rw [List.foldlM_cons, answered_bind, hf, List.foldl_cons]
    exact ih (g b a)

/-- The result and the final state when each call acts on a state. -/
def run (h : (c : C) → σ → A c × σ) : Prog C A α → σ → α × σ
  | ret a, s => (a, s)
  | call c k, s => (k (h c s).1).run h (h c s).2

@[simp] theorem run_ret (h : (c : C) → σ → A c × σ) (a : α) (s : σ) :
    (ret a : Prog C A α).run h s = (a, s) := rfl

@[simp] theorem run_call (h : (c : C) → σ → A c × σ) (c : C) (k : A c → Prog C A α) (s : σ) :
    (call c k).run h s = (k (h c s).1).run h (h c s).2 := rfl

@[simp] theorem run_bind (h : (c : C) → σ → A c × σ) (p : Prog C A α) (f : α → Prog C A β)
    (s : σ) : (p >>= f).run h s = (f (p.run h s).1).run h (p.run h s).2 := by
  induction p generalizing s with
  | ret a => rfl
  | call c k ih => rw [call_bind, run_call, ih, run_call]

/-- The result and the final state when a call may also go unanswered; none when one does. -/
def exec (h : (c : C) → σ → Option (A c × σ)) : Prog C A α → σ → Option (α × σ)
  | ret a, s => some (a, s)
  | call c k, s => (h c s).bind fun r => (k r.1).exec h r.2

@[simp] theorem exec_ret (h : (c : C) → σ → Option (A c × σ)) (a : α) (s : σ) :
    (ret a : Prog C A α).exec h s = some (a, s) := rfl

@[simp] theorem exec_call (h : (c : C) → σ → Option (A c × σ)) (c : C) (k : A c → Prog C A α)
    (s : σ) : (call c k).exec h s = (h c s).bind fun r => (k r.1).exec h r.2 := rfl

@[simp] theorem exec_bind (h : (c : C) → σ → Option (A c × σ)) (p : Prog C A α)
    (f : α → Prog C A β) (s : σ) :
    (p >>= f).exec h s = (p.exec h s).bind fun r => (f r.1).exec h r.2 := by
  induction p generalizing s with
  | ret a => rfl
  | call c k ih =>
    rw [call_bind, exec_call, exec_call, Option.bind_assoc]
    exact congrArg _ (funext fun r => ih r.1 r.2)

/-! ## Runs to the end -/

/-- The calls of a run to its end with their answers, and what it returns. -/
def Completes : Prog C A α → List (Σ c, A c) → α → Prop
  | ret a, log, b => log = [] ∧ b = a
  | call c k, log, b => ∃ r rest, log = ⟨c, r⟩ :: rest ∧ (k r).Completes rest b

@[simp] theorem completes_ret {a b : α} {log : List (Σ c, A c)} :
    (ret a : Prog C A α).Completes log b ↔ log = [] ∧ b = a := Iff.rfl

@[simp] theorem completes_call {c : C} {k : A c → Prog C A α} {log : List (Σ c, A c)} {b : α} :
    (call c k).Completes log b ↔ ∃ r rest, log = ⟨c, r⟩ :: rest ∧ (k r).Completes rest b := Iff.rfl

/-- A run of a sequence is a run of its first part and one of its second. -/
theorem completes_bind {p : Prog C A α} {f : α → Prog C A β} {log : List (Σ c, A c)} {b : β} :
    (p >>= f).Completes log b ↔
      ∃ a first second, log = first ++ second ∧ p.Completes first a ∧ (f a).Completes second b := by
  induction p generalizing log with
  | ret a =>
    constructor
    · exact fun h => ⟨a, [], log, rfl, ⟨rfl, rfl⟩, h⟩
    · rintro ⟨a', first, second, rfl, ⟨rfl, rfl⟩, h⟩
      exact h
  | call c k ih =>
    constructor
    · rintro ⟨r, rest, rfl, h⟩
      obtain ⟨a, first, second, rfl, hp, hf⟩ := (ih r).1 h
      exact ⟨a, ⟨c, r⟩ :: first, second, rfl, ⟨r, first, rfl, hp⟩, hf⟩
    · rintro ⟨a, first, second, rfl, ⟨r, rest, rfl, hp⟩, hf⟩
      exact ⟨r, rest ++ second, rfl, (ih r).2 ⟨a, rest, second, rfl, hp, hf⟩⟩

end Prog

end Lib
