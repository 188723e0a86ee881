/-
  Moments that lie at least a span apart, and callers that take turns: each is told to
  wait until a span has passed since the one before it.
-/
import Mathlib.Data.List.Basic
import Mathlib.Data.List.Infix

namespace Lib

variable {gap : ℕ}

/-- Any two of some moments lie a span apart. -/
def Apart (gap : ℕ) (moments : List ℕ) : Prop :=
  moments.Pairwise fun a b => a + gap ≤ b ∨ b + gap ≤ a

theorem Apart.perm {xs ys : List ℕ} (h : Apart gap xs) (hperm : xs.Perm ys) : Apart gap ys :=
  List.Pairwise.perm h hperm fun hab => hab.symm

theorem Apart.sublist {xs ys : List ℕ} (h : Apart gap ys) (hsub : xs.Sublist ys) : Apart gap xs :=
  List.Pairwise.sublist hsub h

/-- How long one who comes at `now` waits behind a turn at `last`. -/
def waitFor (gap : ℕ) (last : Option ℕ) (now : ℕ) : ℕ :=
  match last with
  | some previous => gap - (now - previous)
  | none => 0

/-- The turns of those who come at some moments, one behind the other. -/
def turns (gap : ℕ) : Option ℕ → List ℕ → List ℕ
  | _, [] => []
  | last, now :: later =>
    let turn := now + waitFor gap last now
    turn :: turns gap (some turn) later

/-- Whoever comes as the `n`-th behind another comes `n` spans after `first`, or later. -/
def Room (gap first : ℕ) (comers : List ℕ) : Prop :=
  ∀ n now, comers[n]? = some now → first + n * gap ≤ now

/-- Between two who come there is a span of time for each of those who come between them. -/
def Spread (gap : ℕ) (comers : List ℕ) : Prop :=
  ∀ i n early late, comers[i]? = some early → comers[i + n + 1]? = some late →
    early + n * gap ≤ late

theorem spread_nil : Spread gap [] := by
  intro i n early late hearly
  simp at hearly

theorem spread_cons {first : ℕ} {later : List ℕ} :
    Spread gap (first :: later) ↔ Room gap first later ∧ Spread gap later := by
  constructor
  · intro h
    refine ⟨fun n now hnow => ?_, fun i n early late hearly hlate => ?_⟩
    · refine h 0 n first now rfl ?_
      rw [Nat.zero_add, List.getElem?_cons_succ]
      exact hnow
    · refine h (i + 1) n early late hearly ?_
      have hindex : i + 1 + n + 1 = i + n + 1 + 1 := by omega
      rw [hindex, List.getElem?_cons_succ]
      exact hlate
  · rintro ⟨hroom, hspread⟩ i n early late hearly hlate
    rw [List.getElem?_cons_succ] at hlate
    cases i with
    | zero =>
      rw [List.getElem?_cons_zero, Option.some.injEq] at hearly
      subst hearly
      rw [Nat.zero_add] at hlate
      exact hroom n late hlate
    | succ i =>
      rw [List.getElem?_cons_succ] at hearly
      have hindex : i + 1 + n = i + n + 1 := by omega
      rw [hindex] at hlate
      exact hspread i n early late hearly hlate

theorem room_cons {first now : ℕ} {later : List ℕ} :
    Room gap first (now :: later) ↔ first ≤ now ∧ Room gap (first + gap) later := by
  constructor
  · intro h
    refine ⟨by simpa using h 0 now rfl, fun n late hlate => ?_⟩
    have hroom := h (n + 1) late hlate
    have hsteps : (n + 1) * gap = n * gap + gap := Nat.succ_mul n gap
    omega
  · rintro ⟨hnow, hroom⟩ n late hlate
    cases n with
    | zero =>
      rw [List.getElem?_cons_zero, Option.some.injEq] at hlate
      subst hlate
      omega
    | succ n =>
      rw [List.getElem?_cons_succ] at hlate
      have hbound := hroom n late hlate
      have hsteps : (n + 1) * gap = n * gap + gap := Nat.succ_mul n gap
      omega

/-- There is room behind the later of two moments where there is room behind both. -/
theorem room_max {a b : ℕ} {later : List ℕ} :
    Room gap (max a b) later ↔ Room gap a later ∧ Room gap b later := by
  constructor
  · intro h
    refine ⟨fun n now hnow => ?_, fun n now hnow => ?_⟩
    · have hbound := h n now hnow
      omega
    · have hbound := h n now hnow
      omega
  · rintro ⟨ha, hb⟩ n now hnow
    have hbounda := ha n now hnow
    have hboundb := hb n now hnow
    omega

/-- No turn comes before the one it waits for, nor before who takes it comes. -/
theorem le_of_mem_turns {previous : ℕ} {comers : List ℕ} (hsorted : comers.Pairwise (· ≤ ·))
    (hlast : ∀ now ∈ comers, previous ≤ now + gap) {turn : ℕ}
    (h : turn ∈ turns gap (some previous) comers) : previous ≤ turn := by
  induction comers generalizing previous with
  | nil => cases h
  | cons now later ih =>
    obtain ⟨hfirst, hsorted⟩ := List.pairwise_cons.1 hsorted
    have hnow := hlast now List.mem_cons_self
    have hturn : previous ≤ now + waitFor gap (some previous) now := by
      simp only [waitFor]
      omega
    rcases List.mem_cons.1 h with rfl | h
    · exact hturn
    · refine hturn.trans (ih hsorted (fun next hnext => ?_) h)
      have hle := hfirst next hnext
      simp only [waitFor]
      omega

/-- The turns behind one at `previous` lie apart from it and from each other where everyone
    comes when the turn before theirs has passed. -/
theorem apart_turns {previous : ℕ} {comers : List ℕ} (hgap : 0 < gap)
    (hsorted : comers.Pairwise (· ≤ ·)) (hlast : ∀ now ∈ comers, previous ≤ now + gap) :
    Apart gap (previous :: turns gap (some previous) comers) ↔
      Room gap previous comers ∧ Spread gap comers := by
  induction comers generalizing previous with
  | nil =>
    constructor
    · intro _
      exact ⟨fun n now hnow => by simp at hnow, spread_nil⟩
    · intro _
      exact List.pairwise_singleton _ _
  | cons now later ih =>
    obtain ⟨hfirst, hsorted⟩ := List.pairwise_cons.1 hsorted
    have hnow := hlast now List.mem_cons_self
    set turn := now + waitFor gap (some previous) now with hturn
    simp only [waitFor] at hturn
    have hlater : ∀ next ∈ later, turn ≤ next + gap := by
      intro next hnext
      have hle := hfirst next hnext
      omega
    rw [spread_cons, room_cons]
    have hrest := ih hsorted hlater
    have hcons : Apart gap (previous :: turns gap (some previous) (now :: later)) ↔
        previous ≤ now ∧ Apart gap (turn :: turns gap (some turn) later) := by
      constructor
      · intro h
        obtain ⟨hprevious, h⟩ := List.pairwise_cons.1 h
        refine ⟨?_, h⟩
        have hapart := hprevious turn List.mem_cons_self
        omega
      · rintro ⟨hle, h⟩
        refine List.pairwise_cons.2 ⟨fun t ht => ?_, h⟩
        left
        rcases List.mem_cons.1 ht with rfl | ht
        · omega
        · have hafter := le_of_mem_turns hsorted hlater ht
          omega
    rw [hcons, hrest]
    constructor
    · rintro ⟨hle, hroom, hspread⟩
      have hmax : turn = max now (previous + gap) := by omega
      rw [hmax, room_max] at hroom
      exact ⟨⟨hle, hroom.2⟩, hroom.1, hspread⟩
    · rintro ⟨⟨hle, hprevious⟩, hroom, hspread⟩
      have hmax : turn = max now (previous + gap) := by omega
      refine ⟨hle, ?_, hspread⟩
      rw [hmax, room_max]
      exact ⟨hroom, hprevious⟩

/-- The turns of those who come to no turn before theirs lie apart where they come spread. -/
theorem apart_turns_none {comers : List ℕ} (hgap : 0 < gap) (hsorted : comers.Pairwise (· ≤ ·)) :
    Apart gap (turns gap none comers) ↔ Spread gap comers := by
  cases comers with
  | nil => exact ⟨fun _ => spread_nil, fun _ => List.Pairwise.nil⟩
  | cons now later =>
    obtain ⟨hfirst, hsorted⟩ := List.pairwise_cons.1 hsorted
    rw [spread_cons]
    refine apart_turns hgap hsorted fun next hnext => ?_
    have hle := hfirst next hnext
    simp only [waitFor]
    omega

/-- One more comer waits behind the last turn. -/
theorem turns_append (last : Option ℕ) (comers : List ℕ) (now : ℕ) :
    turns gap last (comers ++ [now]) =
      turns gap last comers ++
        [now + waitFor gap ((turns gap last comers).getLast?.or last) now] := by
  induction comers generalizing last with
  | nil => rfl
  | cons first later ih =>
    simp only [List.cons_append, turns, ih, List.getLast?_cons]
    cases (turns gap (some (first + waitFor gap last first)) later).getLast? <;> rfl

end Lib
