/-
  Programs running side by side on one world, interleaved at their calls, and an
  invariant rule for all their runs.
-/
import SeedMedic.Lib.Hoare
import Mathlib.Logic.Function.Basic
import Mathlib.Logic.Relation

namespace Lib

/-- A world of `W` in which threads named by `ι` run. -/
structure System (ι C : Type) (A : C → Type) (W : Type) where
  /-- How a call of a thread may be answered, and the world it leaves. -/
  answers : ι → (c : C) → W → A c → W → Prop
  /-- What happens without any thread. -/
  moves : W → W → Prop
  /-- The programs a thread may start with. -/
  starts : ι → Prog C A Unit → Prop

/-- A world with the threads running in it. -/
structure Config (ι C : Type) (A : C → Type) (W : Type) where
  world : W
  threads : ι → Option (Prog C A Unit)

namespace System

variable {ι C : Type} {A : C → Type} {W L : Type} [DecidableEq ι]

/-- One step: a call is answered, the world moves, a thread starts, or a thread ends or dies. -/
inductive Step (S : System ι C A W) : Config ι C A W → Config ι C A W → Prop
  | call {s : Config ι C A W} {i : ι} {c : C} {k : A c → Prog C A Unit} {r : A c} {w : W}
      (running : s.threads i = some (.call c k)) (answered : S.answers i c s.world r w) :
      Step S s ⟨w, Function.update s.threads i (some (k r))⟩
  | move {s : Config ι C A W} {w : W} (moved : S.moves s.world w) : Step S s ⟨w, s.threads⟩
  | start {s : Config ι C A W} {i : ι} {p : Prog C A Unit} (free : s.threads i = none)
      (started : S.starts i p) : Step S s ⟨s.world, Function.update s.threads i (some p)⟩
  | stop {s : Config ι C A W} (i : ι) : Step S s ⟨s.world, Function.update s.threads i none⟩

/-- The configurations runs lead to from a world without threads. -/
def Reach (S : System ι C A W) (w : W) : Config ι C A W → Prop :=
  Relation.ReflTransGen S.Step ⟨w, fun _ => none⟩

/-- The runs whose calls all meet a condition on the world they are made in. -/
def restrict (S : System ι C A W) (ok : ι → C → W → Prop) : System ι C A W :=
  { S with answers := fun i c w r w' => ok i c w ∧ S.answers i c w r w' }

/-- The runs whose calls and answers all meet a condition on the world they are made in. -/
def within (S : System ι C A W) (ok : ι → (c : C) → A c → W → Prop) : System ι C A W :=
  { S with answers := fun i c w r w' => ok i c r w ∧ S.answers i c w r w' }

/-- The runs whose programs, calls and moves all meet a condition. -/
def confine (S : System ι C A W) (programs : ι → Prog C A Unit → Prop) (calls : ι → C → W → Prop)
    (moves : W → W → Prop) : System ι C A W where
  answers i c w r w' := calls i c w ∧ S.answers i c w r w'
  moves w w' := moves w w' ∧ S.moves w w'
  starts i p := programs i p ∧ S.starts i p

/-- Every thread obeys its rules from a local state that is true of the world. -/
structure Supported (R : ι → Rules C A L) (Inv : W → Prop) (Rel : ι → L → W → Prop)
    (s : Config ι C A W) : Prop where
  inv : Inv s.world
  threads : ∀ i p, s.threads i = some p → ∃ l, Rel i l s.world ∧ p.Obeys (R i) l fun _ _ => True

/-- What the calls of the threads and the moves of the world must keep. -/
structure Sound (S : System ι C A W) (R : ι → Rules C A L) (Inv : W → Prop)
    (Rel : ι → L → W → Prop) : Prop where
  start : ∀ i p w, Inv w → S.starts i p →
    ∃ l, Rel i l w ∧ p.Obeys (R i) l fun _ _ => True
  call : ∀ i c w r w' l, Inv w → Rel i l w → (R i).may c l → S.answers i c w r w' →
    Inv w' ∧ (∃ l', (R i).next c r l l' ∧ Rel i l' w') ∧
      ∀ j, j ≠ i → ∀ m, Rel j m w → Rel j m w'
  move : ∀ w w', Inv w → S.moves w w' → Inv w' ∧ ∀ j m, Rel j m w → Rel j m w'

variable {S : System ι C A W} {R : ι → Rules C A L} {Inv : W → Prop} {Rel : ι → L → W → Prop}

/-- One step keeps every thread supported. -/
theorem Sound.step (h : S.Sound R Inv Rel) {s s' : Config ι C A W} (hs : Supported R Inv Rel s)
    (hstep : S.Step s s') : Supported R Inv Rel s' := by
  cases hstep with
  | @call i c k r w running answered =>
    obtain ⟨l, hl, hmay, hk⟩ := hs.threads i _ running
    obtain ⟨hinv, ⟨l', hn, hl'⟩, hothers⟩ := h.call i c s.world r w l hs.inv hl hmay answered
    refine ⟨hinv, fun j p hp => ?_⟩
    by_cases hj : j = i
    · subst hj
      simp only [Function.update_self, Option.some.injEq] at hp
      subst hp
      exact ⟨l', hl', hk r l' hn⟩
    · simp only [Function.update_of_ne hj] at hp
      obtain ⟨m, hm, hobeys⟩ := hs.threads j p hp
      exact ⟨m, hothers j hj m hm, hobeys⟩
  | @move w moved =>
    obtain ⟨hinv, hrel⟩ := h.move _ _ hs.inv moved
    refine ⟨hinv, fun j p hp => ?_⟩
    obtain ⟨m, hm, hobeys⟩ := hs.threads j p hp
    exact ⟨m, hrel j m hm, hobeys⟩
  | @start i p free started =>
    refine ⟨hs.inv, fun j q hq => ?_⟩
    by_cases hj : j = i
    · subst hj
      simp only [Function.update_self, Option.some.injEq] at hq
      subst hq
      exact h.start j p s.world hs.inv started
    · simp only [Function.update_of_ne hj] at hq
      exact hs.threads j q hq
  | stop i =>
    refine ⟨hs.inv, fun j q hq => ?_⟩
    by_cases hj : j = i
    · subst hj
      simp only [Function.update_self, reduceCtorEq] at hq
    · simp only [Function.update_of_ne hj] at hq
      exact hs.threads j q hq

/-- Every run keeps every thread supported. -/
theorem Sound.reach (h : S.Sound R Inv Rel) {w : W} (hw : Inv w) {s : Config ι C A W}
    (hs : S.Reach w s) : Supported R Inv Rel s := by
  induction hs with
  | refl => exact ⟨hw, fun i p hp => by cases hp⟩
  | tail _ hstep ih => exact h.step ih hstep

/-- A call about to be made is permitted in a local state that is true of the world. -/
theorem Sound.permitted (h : S.Sound R Inv Rel) {w : W} (hw : Inv w) {s : Config ι C A W}
    (hs : S.Reach w s) {i : ι} {c : C} {k : A c → Prog C A Unit}
    (hi : s.threads i = some (.call c k)) :
    Inv s.world ∧ ∃ l, Rel i l s.world ∧ (R i).may c l := by
  obtain ⟨hinv, hthreads⟩ := h.reach hw hs
  obtain ⟨l, hl, hmay, -⟩ := hthreads i _ hi
  exact ⟨hinv, l, hl, hmay⟩

/-- A run that meets a condition is a run. -/
theorem reach_of_within {ok : ι → (c : C) → A c → W → Prop} {w : W} {s : Config ι C A W}
    (h : (S.within ok).Reach w s) : S.Reach w s := by
  induction h with
  | refl => exact .refl
  | tail _ hstep ih =>
    refine ih.tail ?_
    cases hstep with
    | call running answered => exact .call running answered.2
    | move moved => exact .move moved
    | start free started => exact .start free started
    | stop i => exact .stop i

/-! ## A thread on its own -/

/-- Take `n` calls of a program, each answered by a function of the world, up to one it does
    not answer. -/
def drive (h : (c : C) → W → Option (A c × W)) : ℕ → Prog C A Unit → W → Prog C A Unit × W
  | 0, p, w => (p, w)
  | _ + 1, .ret a, w => (.ret a, w)
  | n + 1, .call c k, w =>
    match h c w with
    | none => (.call c k, w)
    | some r => drive h n (k r.1) r.2

/-- What every call of a program keeps is true of every world it is driven to. -/
theorem drive_keeps {h : (c : C) → W → Option (A c × W)} {P : C → Prop} {I : W → Prop}
    (hI : ∀ c w r, P c → I w → h c w = some r → I r.2) (n : ℕ) :
    ∀ {p : Prog C A Unit} {w : W}, p.Only P → I w → I (drive h n p w).2 := by
  induction n with
  | zero => exact fun _ hw => hw
  | succ n ih =>
    intro p w hp hw
    cases p with
    | ret a => exact hw
    | call c k =>
      unfold drive
      cases hr : h c w with
      | none => exact hw
      | some r => exact ih (hp.2 r.1) (hI c w r hp.1 hw hr)

/-- A program that comes to its end is driven there. -/
theorem exists_drive_of_exec {h : (c : C) → W → Option (A c × W)} {p : Prog C A Unit} {w : W}
    {r : Unit × W} (hp : p.exec h w = some r) : ∃ n, drive h n p w = (.ret (), r.2) := by
  induction p generalizing w with
  | ret a =>
    cases hp
    exact ⟨0, rfl⟩
  | call c k ih =>
    obtain ⟨r₁, hr₁, hk⟩ := Option.bind_eq_some_iff.1 hp
    obtain ⟨n, hn⟩ := ih r₁.1 hk
    exact ⟨n + 1, by simp only [drive, hr₁, hn]⟩

/-- A thread can be driven on its own, and the others wait. -/
theorem reach_drive {w₀ : W} {i : ι} {h : (c : C) → W → Option (A c × W)}
    (hh : ∀ c w r, h c w = some r →
      ∃ w', Relation.ReflTransGen S.moves w w' ∧ S.answers i c w' r.1 r.2)
    (n : ℕ) : ∀ {p : Prog C A Unit} {s : Config ι C A W}, S.Reach w₀ s → s.threads i = some p →
      ∃ s', S.Reach w₀ s' ∧ s'.threads i = some (drive h n p s.world).1 ∧
        s'.world = (drive h n p s.world).2 ∧ ∀ j, j ≠ i → s'.threads j = s.threads j := by
  have hmoves : ∀ {s : Config ι C A W} {w : W}, S.Reach w₀ s →
      Relation.ReflTransGen S.moves s.world w → S.Reach w₀ ⟨w, s.threads⟩ := by
    intro s w hs hw
    induction hw with
    | refl => exact hs
    | tail _ hm ih => exact ih.tail (.move hm)
  induction n with
  | zero => exact fun hs hi => ⟨_, hs, hi, rfl, fun _ _ => rfl⟩
  | succ n ih =>
    intro p s hs hi
    cases p with
    | ret a => exact ⟨s, hs, hi, rfl, fun _ _ => rfl⟩
    | call c k =>
      unfold drive
      cases hr : h c s.world with
      | none => exact ⟨s, hs, hi, rfl, fun _ _ => rfl⟩
      | some r =>
        obtain ⟨w', hw', hans⟩ := hh c s.world r hr
        have hnext := (hmoves hs hw').tail (.call (s := ⟨w', s.threads⟩) hi hans)
        obtain ⟨s', hs', hthread, hworld, hothers⟩ := ih (p := k r.1) hnext (by simp)
        refine ⟨s', hs', hthread, hworld, fun j hj => ?_⟩
        rw [hothers j hj]
        simp only [Function.update_of_ne hj]

/-- A run of a single thread from its start. -/
theorem reach_alone (S : System ι C A W) (w₀ : W) (i : ι) {p : Prog C A Unit}
    {h : (c : C) → W → Option (A c × W)} (hp : S.starts i p)
    (hh : ∀ c w r, h c w = some r →
      ∃ w', Relation.ReflTransGen S.moves w w' ∧ S.answers i c w' r.1 r.2) (n : ℕ) :
    ∃ s, S.Reach w₀ s ∧ s.threads i = some (drive h n p w₀).1 ∧ s.world = (drive h n p w₀).2 := by
  obtain ⟨s, hs, hthread, hworld, -⟩ :=
    reach_drive hh n (p := p) (s := ⟨w₀, _⟩) (.single (.start rfl hp)) (by simp)
  exact ⟨s, hs, hthread, hworld⟩

/-- A thread that is not running starts and is driven on its own, and the others wait. -/
theorem reach_next {w₀ : W} {s : Config ι C A W} {i : ι} {p : Prog C A Unit}
    {h : (c : C) → W → Option (A c × W)} (hs : S.Reach w₀ s) (hi : s.threads i = none)
    (hp : S.starts i p) (hh : ∀ c w r, h c w = some r →
      ∃ w', Relation.ReflTransGen S.moves w w' ∧ S.answers i c w' r.1 r.2) (n : ℕ) :
    ∃ s', S.Reach w₀ s' ∧ s'.threads i = some (drive h n p s.world).1 ∧
      s'.world = (drive h n p s.world).2 ∧ ∀ j, j ≠ i → s'.threads j = s.threads j := by
  obtain ⟨s', hs', hthread, hworld, hothers⟩ :=
    reach_drive hh n (p := p) (hs.tail (.start hi hp)) (by simp)
  refine ⟨s', hs', hthread, hworld, fun j hj => ?_⟩
  rw [hothers j hj]
  simp [Function.update_of_ne hj]

/-- A thread, whatever it is at, is stopped, started and driven on its own. -/
theorem reach_again {w₀ : W} {s : Config ι C A W} {i : ι} {p : Prog C A Unit}
    {h : (c : C) → W → Option (A c × W)} (hs : S.Reach w₀ s) (hp : S.starts i p)
    (hh : ∀ c w r, h c w = some r →
      ∃ w', Relation.ReflTransGen S.moves w w' ∧ S.answers i c w' r.1 r.2) (n : ℕ) :
    ∃ s', S.Reach w₀ s' ∧ s'.threads i = some (drive h n p s.world).1 ∧
      s'.world = (drive h n p s.world).2 := by
  obtain ⟨s', hs', hthread, hworld, -⟩ :=
    reach_next (hs.tail (.stop i)) (Function.update_self ..) hp hh n
  exact ⟨s', hs', hthread, hworld⟩

end System

end Lib
