/-
  Rules for what a program calls: which calls a local state permits, and what an
  answer teaches.
-/
import SeedMedic.Lib.Prog
import Mathlib.Order.Basic

namespace Lib

/-- Permissions of a program in a local state of `L`, and the local states an answer leads to. -/
structure Rules (C : Type) (A : C → Type) (L : Type) where
  may : C → L → Prop
  next : (c : C) → A c → L → L → Prop

/-- Two sets of rules side by side, each with a local state of its own. -/
def Rules.prod {C : Type} {A : C → Type} {L L' : Type} (R : Rules C A L) (R' : Rules C A L') :
    Rules C A (L × L') where
  may c l := R.may c l.1 ∧ R'.may c l.2
  next c r l l' := R.next c r l.1 l'.1 ∧ R'.next c r l.2 l'.2

/-- The rules for the runs whose calls all satisfy `G`. -/
def Rules.given {C : Type} {A : C → Type} {L : Type} (R : Rules C A L) (G : C → L → Prop) :
    Rules C A L where
  may c l := G c l → R.may c l
  next c r l l' := G c l ∧ R.next c r l l'

namespace Prog

variable {C : Type} {A : C → Type} {L α β : Type}

/-- Every call of `p` from local state `l` is permitted whatever was answered before it, and
    what it returns satisfies `Q`. -/
def Obeys (R : Rules C A L) : Prog C A α → L → (α → L → Prop) → Prop
  | ret a, l, Q => Q a l
  | call c k, l, Q => R.may c l ∧ ∀ r l', R.next c r l l' → (k r).Obeys R l' Q

section
variable {R : Rules C A L} {l : L} {Q Q' : α → L → Prop}

@[simp] theorem obeys_ret {a : α} : (ret a : Prog C A α).Obeys R l Q ↔ Q a l := Iff.rfl

@[simp] theorem obeys_call {c : C} {k : A c → Prog C A α} :
    (call c k).Obeys R l Q ↔ R.may c l ∧ ∀ r l', R.next c r l l' → (k r).Obeys R l' Q := Iff.rfl

/-- A weaker conclusion. -/
theorem Obeys.mono {p : Prog C A α} (h : p.Obeys R l Q) (hQ : ∀ a l, Q a l → Q' a l) :
    p.Obeys R l Q' := by
  induction p generalizing l with
  | ret a => exact hQ a l h
  | call c k ih => exact ⟨h.1, fun r l' hn => ih r (h.2 r l' hn)⟩

/-- One program after another. -/
theorem obeys_bind {p : Prog C A α} {f : α → Prog C A β} {P : β → L → Prop} :
    (p >>= f).Obeys R l P ↔ p.Obeys R l fun a l => (f a).Obeys R l P := by
  induction p generalizing l with
  | ret a => rfl
  | call c k ih =>
    rw [call_bind, obeys_call, obeys_call]
    exact and_congr_right fun _ => forall₂_congr fun r l' => imp_congr_right fun _ => ih r

/-- The sequence rule. -/
theorem Obeys.bind {p : Prog C A α} {f : α → Prog C A β} {P : β → L → Prop}
    (h : p.Obeys R l Q) (hf : ∀ a l, Q a l → (f a).Obeys R l P) : (p >>= f).Obeys R l P :=
  obeys_bind.2 (h.mono hf)

/-- A program that obeys two sets of rules obeys them side by side. -/
theorem Obeys.prod {L' : Type} {R' : Rules C A L'} {l' : L'} {P : α → L' → Prop} {p : Prog C A α}
    (h : p.Obeys R l Q) (h' : p.Obeys R' l' P) :
    p.Obeys (R.prod R') (l, l') fun a m => Q a m.1 ∧ P a m.2 := by
  induction p generalizing l l' with
  | ret a => exact ⟨h, h'⟩
  | call c k ih =>
    exact ⟨⟨h.1, h'.1⟩, fun r m hn => ih r (h.2 r m.1 hn.1) (h'.2 r m.2 hn.2)⟩

/-- Two conclusions about the same run. -/
theorem Obeys.both {p : Prog C A α} (h : p.Obeys R l Q) (h' : p.Obeys R l Q') :
    p.Obeys R l fun a l => Q a l ∧ Q' a l := by
  induction p generalizing l with
  | ret a => exact ⟨h, h'⟩
  | call c k ih => exact ⟨h.1, fun r l' hn => ih r (h.2 r l' hn) (h'.2 r l' hn)⟩

/-- What one call keeps a whole run keeps. -/
theorem Obeys.invariant {I : L → Prop} {p : Prog C A α} (h : p.Obeys R l Q) (hl : I l)
    (hI : ∀ c r l l', R.may c l → R.next c r l l' → I l → I l') :
    p.Obeys R l fun a l' => Q a l' ∧ I l' := by
  induction p generalizing l with
  | ret a => exact ⟨h, hl⟩
  | call c k ih =>
    exact ⟨h.1, fun r l' hn => ih r (h.2 r l' hn) (hI c r l l' h.1 hn hl)⟩

/-- Less is permitted. -/
theorem Obeys.permits {G : C → L → Prop} {p : Prog C A α} (h : p.Obeys R l Q)
    (hG : ∀ c l, R.may c l → G c l) : p.Obeys ⟨G, R.next⟩ l Q := by
  induction p generalizing l with
  | ret a => exact h
  | call c k ih => exact ⟨hG c l h.1, fun r l' hn => ih r (h.2 r l' hn)⟩

/-- The assumption about the calls holds in every run. -/
theorem Obeys.of_given {G : C → L → Prop} {P : α → L → Prop} {p : Prog C A α}
    (h : p.Obeys (R.given G) l Q) (hG : p.Obeys ⟨G, R.next⟩ l P) : p.Obeys R l Q := by
  induction p generalizing l with
  | ret a => exact h
  | call c k ih =>
    exact ⟨h.1 hG.1, fun r l' hn => ih r (h.2 r l' ⟨hG.1, hn⟩) (hG.2 r l' hn)⟩

end

/-- Rules that permit everything and keep what was answered. -/
def tracing (C : Type) (A : C → Type) : Rules C A (List (Σ c, A c)) where
  may _ _ := True
  next c r seen seen' := seen' = seen ++ [⟨c, r⟩]

/-! ## Programs told apart by the calls they make -/

/-- Every call of the program satisfies `P`, whatever was answered before it. -/
def Only (P : C → Prop) : Prog C A α → Prop
  | ret _ => True
  | call c k => P c ∧ ∀ r, (k r).Only P

section
variable {P P' : C → Prop}

@[simp] theorem only_ret {a : α} : (ret a : Prog C A α).Only P ↔ True := Iff.rfl

@[simp] theorem only_call {c : C} {k : A c → Prog C A α} :
    (call c k).Only P ↔ P c ∧ ∀ r, (k r).Only P := Iff.rfl

theorem Only.mono {p : Prog C A α} (h : p.Only P) (hP : ∀ c, P c → P' c) : p.Only P' := by
  induction p with
  | ret a => trivial
  | call c k ih => exact ⟨hP c h.1, fun r => ih r (h.2 r)⟩

theorem Only.bind {p : Prog C A α} {f : α → Prog C A β} (h : p.Only P) (hf : ∀ a, (f a).Only P) :
    (p >>= f).Only P := by
  induction p with
  | ret a => exact hf a
  | call c k ih => exact ⟨h.1, fun r => ih r (h.2 r)⟩

/-- A run to the end makes such calls. -/
theorem Only.completes {p : Prog C A α} {log : List (Σ c, A c)} {a : α} (h : p.Only P)
    (hp : p.Completes log a) : ∀ e ∈ log, P e.1 := by
  induction p generalizing log with
  | ret a => simp [hp.1]
  | call c k ih =>
    obtain ⟨r, rest, rfl, hrest⟩ := hp
    exact List.forall_mem_cons.2 ⟨h.1, ih r (h.2 r) hrest⟩

/-- The calls of a sequence are those of its parts; where every call has an answer, the first part
    returns something. -/
theorem Only.of_bind [∀ c, Nonempty (A c)] {p : Prog C A α} {f : α → Prog C A β}
    (h : (p >>= f).Only P) : p.Only P ∧ ∃ a, (f a).Only P := by
  induction p with
  | ret a => exact ⟨trivial, a, h⟩
  | call c k ih =>
    obtain ⟨r⟩ := (inferInstance : Nonempty (A c))
    exact ⟨⟨h.1, fun r => (ih r (h.2 r)).1⟩, (ih r (h.2 r)).2⟩

/-- Calls that are always permitted and keep an invariant of the local state. -/
theorem Only.obeys {R : Rules C A L} {I : L → Prop} {p : Prog C A α} {l : L} (h : p.Only P)
    (hl : I l) (hP : ∀ c l, P c → I l → R.may c l ∧ ∀ r l', R.next c r l l' → I l') :
    p.Obeys R l fun _ l' => I l' := by
  induction p generalizing l with
  | ret a => exact hl
  | call c k ih =>
    obtain ⟨hmay, hnext⟩ := hP c l h.1 hl
    exact ⟨hmay, fun r l' hn => ih r (h.2 r) (hnext r l' hn)⟩

end

/-! ## What a program returns -/

/-- Whatever is answered, what the program returns satisfies `Q`. -/
def Returns (Q : α → Prop) : Prog C A α → Prop
  | ret a => Q a
  | call _ k => ∀ r, (k r).Returns Q

section
variable {Q : α → Prop}

@[simp] theorem returns_ret {a : α} : (ret a : Prog C A α).Returns Q ↔ Q a := Iff.rfl

@[simp] theorem returns_call {c : C} {k : A c → Prog C A α} :
    (call c k).Returns Q ↔ ∀ r, (k r).Returns Q := Iff.rfl

theorem Returns.all (p : Prog C A α) : p.Returns fun _ => True := by
  induction p with
  | ret a => trivial
  | call c k ih => exact ih

theorem Returns.bind {P : α → Prop} {Q : β → Prop} {p : Prog C A α} {f : α → Prog C A β}
    (h : p.Returns P) (hf : ∀ a, P a → (f a).Returns Q) : (p >>= f).Returns Q := by
  induction p with
  | ret a => exact hf a h
  | call c k ih => exact fun r => ih r (h r)

/-- What always holds of the result holds of it under rules that permit everything. -/
theorem Returns.obeys {R : Rules C A L} {Q : α → Prop} {p : Prog C A α} (h : p.Returns Q)
    (hmay : ∀ c l, R.may c l) (l : L) : p.Obeys R l fun a _ => Q a := by
  induction p generalizing l with
  | ret a => exact h
  | call c k ih => exact ⟨hmay c l, fun r l' _ => ih r (h r) l'⟩

/-- A run that obeys rules that let every answer through shows what it returns. -/
theorem Obeys.returns {R : Rules C A L} {P : α → L → Prop} {Q : α → Prop} {p : Prog C A α} {l : L}
    (h : p.Obeys R l P) (hnext : ∀ c r l, ∃ l', R.next c r l l') (hQ : ∀ a l', P a l' → Q a) :
    p.Returns Q := by
  induction p generalizing l with
  | ret a => exact hQ a l h
  | call c k ih =>
    intro r
    obtain ⟨l', hl'⟩ := hnext c r l
    exact ih r (h.2 r l' hl')

/-- Two things that always hold of the result. -/
theorem Returns.and {P Q : α → Prop} {p : Prog C A α} (h : p.Returns P) (h' : p.Returns Q) :
    p.Returns fun a => P a ∧ Q a := by
  induction p with
  | ret a => exact ⟨h, h'⟩
  | call c k ih => exact fun r => ih r (h r) (h' r)

theorem Returns.completes {Q : α → Prop} {p : Prog C A α} {log : List (Σ c, A c)} {a : α}
    (h : p.Returns Q) (hp : p.Completes log a) : Q a := by
  induction p generalizing log with
  | ret a =>
    obtain ⟨-, rfl⟩ := hp
    exact h
  | call c k ih =>
    obtain ⟨r, rest, -, hrest⟩ := hp
    exact ih r (h r) hrest

/-- A run in which a call is always answered alike, as the rules have it, shows what is returned. -/
theorem Obeys.eval {R : Rules C A L} {Q : α → L → Prop} {h : (c : C) → A c} {p : Prog C A α} {l : L}
    (hp : p.Obeys R l Q) (hnext : ∀ c, R.next c (h c) l l) : Q (p.eval h) l := by
  induction p with
  | ret a => exact hp
  | call c k ih => exact ih (h c) (hp.2 (h c) l (hnext c))

/-- A run whose calls act on the state as the rules have it shows what is returned. -/
theorem Obeys.run {R : Rules C A L} {Q : α → L → Prop} {h : (c : C) → L → A c × L}
    {p : Prog C A α} {l : L} (hp : p.Obeys R l Q)
    (hnext : ∀ c l, R.next c (h c l).1 l (h c l).2) : Q (p.run h l).1 (p.run h l).2 := by
  induction p generalizing l with
  | ret a => exact hp
  | call c k ih => exact ih (h c l).1 (hp.2 (h c l).1 (h c l).2 (hnext c l))

/-- What always holds of the result holds of it after a run that obeys rules. -/
theorem Obeys.and {R : Rules C A L} {P : α → L → Prop} {p : Prog C A α} {l : L}
    (h : p.Obeys R l P) (hQ : p.Returns Q) : p.Obeys R l fun a l' => P a l' ∧ Q a := by
  induction p generalizing l with
  | ret a => exact ⟨h, hQ⟩
  | call c k ih => exact ⟨h.1, fun r l' hn => ih r (h.2 r l' hn) (hQ r)⟩

end

/-! ## What a complete run leaves behind -/

/-- The answers that are considered, and what is noted of a call and its answer. -/
structure Recorder (C : Type) (A : C → Type) (E : Type) where
  answers : (c : C) → A c → Prop
  note : (c : C) → A c → E

/-- What a complete run returns, and the notes of its calls in order, satisfy `Q`. -/
def Logs {E : Type} (R : Recorder C A E) : Prog C A α → (α → List E → Prop) → Prop
  | ret a, Q => Q a []
  | call c k, Q => ∀ r, R.answers c r → (k r).Logs R fun a log => Q a (R.note c r :: log)

section
variable {E : Type} {R : Recorder C A E}

@[simp] theorem logs_ret {a : α} {Q : α → List E → Prop} :
    (ret a : Prog C A α).Logs R Q ↔ Q a [] := Iff.rfl

@[simp] theorem logs_call {c : C} {k : A c → Prog C A α} {Q : α → List E → Prop} :
    (call c k).Logs R Q ↔
      ∀ r, R.answers c r → (k r).Logs R fun a log => Q a (R.note c r :: log) := Iff.rfl

theorem Logs.mono {p : Prog C A α} {Q Q' : α → List E → Prop} (h : p.Logs R Q)
    (hQ : ∀ a log, Q a log → Q' a log) : p.Logs R Q' := by
  induction p generalizing Q Q' with
  | ret a => exact hQ a [] h
  | call c k ih => exact fun r hr => ih r (h r hr) fun a log => hQ a _

/-- The sequence rule: the notes of the second part follow those of the first. -/
theorem Logs.bind {p : Prog C A α} {f : α → Prog C A β} {Q : α → List E → Prop}
    {P : β → List E → Prop} (h : p.Logs R Q)
    (hf : ∀ a log, Q a log → (f a).Logs R fun b log' => P b (log ++ log')) :
    (p >>= f).Logs R P := by
  induction p generalizing Q P with
  | ret a => exact hf a [] h
  | call c k ih => exact fun r hr => ih r (h r hr) fun a log hQ => hf a _ hQ

/-- The notes of a run in which a call is always answered alike; none where one is not answered. -/
def replay (R : Recorder C A E) (h : (c : C) → Option (A c)) : Prog C A α → Option (α × List E)
  | ret a => some (a, [])
  | call c k => (h c).bind fun r =>
    ((k r).replay R h).map fun (a, log) => (a, R.note c r :: log)

theorem Logs.of_replay {h : (c : C) → Option (A c)} {p : Prog C A α} {Q : α → List E → Prop}
    {a : α} {log : List E} (hp : p.Logs R Q) (ha : ∀ c r, h c = some r → R.answers c r)
    (hrun : p.replay R h = some (a, log)) : Q a log := by
  induction p generalizing Q a log with
  | ret b =>
    cases hrun
    exact hp
  | call c k ih =>
    obtain ⟨r, hr, hrest⟩ := Option.bind_eq_some_iff.1 hrun
    obtain ⟨⟨b, log'⟩, hlog, heq⟩ := Option.map_eq_some_iff.1 hrest
    cases heq
    exact ih r (Q := fun a log => Q a (R.note c r :: log)) (hp r (ha c r hr)) hlog

/-- Notes of everything. -/
def Recorder.whole (C : Type) (A : C → Type) : Recorder C A (Σ c, A c) where
  answers _ _ := True
  note c r := ⟨c, r⟩

theorem completes_of_replay {h : (c : C) → Option (A c)} {p : Prog C A α} {a : α}
    {log : List (Σ c, A c)} (hrun : p.replay (Recorder.whole C A) h = some (a, log)) :
    p.Completes log a := by
  induction p generalizing log with
  | ret b =>
    cases hrun
    exact ⟨rfl, rfl⟩
  | call c k ih =>
    obtain ⟨r, -, hrest⟩ := Option.bind_eq_some_iff.1 hrun
    obtain ⟨⟨b, log'⟩, hlog, heq⟩ := Option.map_eq_some_iff.1 hrest
    cases heq
    exact ⟨r, log', rfl, ih r hlog⟩

/-- Calls that are all noted alike. -/
theorem Only.logs {P : C → Prop} {N : E → Prop} {p : Prog C A α} (h : p.Only P)
    (hP : ∀ c r, P c → N (R.note c r)) : p.Logs R fun _ log => ∀ e ∈ log, N e := by
  induction p with
  | ret a => exact fun e he => nomatch he
  | call c k ih =>
    intro r hr
    refine (ih r (h.2 r)).mono fun a log hlog => ?_
    rintro e (_ | ⟨_, he⟩)
    · exact hP c r h.1
    · exact hlog e he

end

end Prog

end Lib
