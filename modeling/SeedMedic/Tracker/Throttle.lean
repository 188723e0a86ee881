/-
  Keeping requests to a tracker apart (`tracker/adapters/unit3d.rs`): callers that come at
  any moments reserve a turn each, and sleep until it.
-/
import SeedMedic.Lib.Spacing
import SeedMedic.Torrent.Domain
import Mathlib.Logic.Relation

namespace SeedMedic

open Lib

/-- The span below which a tracker takes requests for hammering, in nanoseconds. -/
def minRequestInterval : ℕ := 500 * 10 ^ 6

/-- The callers of a tracker's throttle. -/
structure Throttle where
  clock : ℕ
  /-- The turn that was reserved last; it may be in the future. -/
  lastRequest : Option ℕ
  /-- Until when the callers sleep that are not released yet. -/
  sleeping : List ℕ
  /-- The moments at which callers were released. -/
  released : List ℕ
  /-- The moments at which callers came, in the order in which they got the lock. -/
  arrived : List ℕ

namespace Throttle

/-- Nobody has come so far. -/
def start (clock : ℕ) : Throttle := ⟨clock, none, [], [], []⟩

/-- A caller reads the clock under the lock, reserves a turn and lets go of the lock. -/
def throttle (s : Throttle) : Throttle :=
  let now := s.clock
  let wait := waitFor minRequestInterval s.lastRequest now
  let s := { s with lastRequest := some (now + wait), arrived := s.arrived ++ [now] }
  if wait = 0 then { s with released := s.released ++ [now] }
  else { s with sleeping := (now + wait) :: s.sleeping }

/-- What happens without another caller: the clock passes no moment at which a sleep ends, and
    whose sleep ends is released. -/
inductive Elapse : Throttle → Throttle → Prop
  | pass {s : Throttle} {clock : ℕ} (later : s.clock ≤ clock)
      (early : ∀ turn ∈ s.sleeping, clock ≤ turn) : Elapse s { s with clock }
  | wake {s : Throttle} (due : s.clock ∈ s.sleeping) :
      Elapse s { s with
        sleeping := s.sleeping.erase s.clock, released := s.released ++ [s.clock] }

inductive Step : Throttle → Throttle → Prop
  | come {s : Throttle} : Step s s.throttle
  | elapse {s s' : Throttle} (h : Elapse s s') : Step s s'

/-- What any number of callers can bring about, whenever they come. -/
def Reach (clock : ℕ) : Throttle → Prop := Relation.ReflTransGen Step (start clock)

/-- What those who have come so far can bring about. -/
def Settles : Throttle → Throttle → Prop := Relation.ReflTransGen Elapse

/-- Whoever came so far has a turn, and is released at it or sleeps until it. -/
structure Queued (s : Throttle) : Prop where
  sorted : s.arrived.Pairwise (· ≤ ·)
  past : ∀ now ∈ s.arrived, now ≤ s.clock
  last : s.lastRequest = (turns minRequestInterval none s.arrived).getLast?
  turns : (s.released ++ s.sleeping).Perm (turns minRequestInterval none s.arrived)
  due : ∀ turn ∈ s.sleeping, s.clock ≤ turn

variable {s s' : Throttle}

theorem queued_start (clock : ℕ) : (start clock).Queued where
  sorted := List.Pairwise.nil
  past := by simp [start]
  last := rfl
  turns := List.Perm.refl _
  due := by simp [start]

theorem Queued.throttle (h : s.Queued) : s.throttle.Queued := by
  have hturns := @turns_append minRequestInterval none s.arrived s.clock
  rw [Option.or_none, ← h.last] at hturns
  have hsorted : (s.arrived ++ [s.clock]).Pairwise (· ≤ ·) := by
    rw [List.pairwise_append]
    refine ⟨h.sorted, List.pairwise_singleton _ _, fun now hnow clock hclock => ?_⟩
    rw [List.mem_singleton] at hclock
    exact hclock ▸ h.past now hnow
  have hpast : ∀ now ∈ s.arrived ++ [s.clock], now ≤ s.clock := by
    intro now hnow
    rcases List.mem_append.1 hnow with hnow | hnow
    · exact h.past now hnow
    · exact (List.mem_singleton.1 hnow).le
  unfold Throttle.throttle
  set wait := waitFor minRequestInterval s.lastRequest s.clock with hwait
  dsimp only
  split_ifs with hzero
  · refine ⟨hsorted, hpast, ?_, ?_, h.due⟩
    · dsimp only
      rw [hturns, List.getLast?_concat]
    · dsimp only
      rw [hturns, hwait, hzero, Nat.add_zero]
      refine List.Perm.trans ?_ (h.turns.append_right [s.clock])
      rw [List.append_assoc, List.append_assoc]
      exact List.Perm.append_left s.released List.perm_append_comm
  · refine ⟨hsorted, hpast, ?_, ?_, ?_⟩
    · dsimp only
      rw [hturns, List.getLast?_concat]
    · dsimp only
      rw [hturns]
      refine List.Perm.trans ?_ (h.turns.append_right [s.clock + wait])
      rw [List.append_assoc]
      exact List.Perm.append_left s.released (List.perm_append_singleton _ _).symm
    · intro turn hturn
      rcases List.mem_cons.1 hturn with rfl | hturn
      · exact Nat.le_add_right _ _
      · exact h.due turn hturn

theorem Queued.elapse (h : s.Queued) (hstep : Elapse s s') : s'.Queued := by
  cases hstep with
  | pass later early =>
    exact ⟨h.sorted, fun now hnow => (h.past now hnow).trans later, h.last, h.turns, early⟩
  | wake due =>
    refine ⟨h.sorted, h.past, h.last, ?_, fun turn hturn => h.due turn (List.mem_of_mem_erase hturn)⟩
    refine List.Perm.trans ?_ h.turns
    rw [List.append_assoc]
    exact List.Perm.append_left s.released (List.perm_cons_erase due).symm

theorem Reach.queued {clock : ℕ} (h : Reach clock s) : s.Queued := by
  induction h with
  | refl => exact queued_start clock
  | tail _ hstep ih =>
    cases hstep with
    | come => exact ih.throttle
    | elapse hstep => exact ih.elapse hstep

theorem Settles.queued (h : s.Queued) (hsettles : s.Settles s') : s'.Queued := by
  induction hsettles with
  | refl => exact h
  | tail _ hstep ih => exact ih.elapse hstep

theorem Settles.arrived (hsettles : s.Settles s') : s'.arrived = s.arrived := by
  induction hsettles with
  | refl => rfl
  | tail _ hstep ih => cases hstep <;> exact ih

/-- Everyone who sleeps is released in the end. -/
theorem Queued.settles (h : s.Queued) : ∃ s', s.Settles s' ∧ s'.sleeping = [] := by
  generalize hn : s.sleeping.length = n
  induction n generalizing s with
  | zero => exact ⟨s, .refl, List.length_eq_zero_iff.1 hn⟩
  | succ n ih =>
    -- the first sleep to end ends next
    have hne : s.sleeping ≠ [] := by
      intro hnil
      rw [hnil] at hn
      cases hn
    obtain ⟨turn, hturn, hfirst⟩ : ∃ turn ∈ s.sleeping, ∀ turn' ∈ s.sleeping, turn ≤ turn' := by
      obtain ⟨turn, hmin⟩ := Option.isSome_iff_exists.1 (List.isSome_min?_of_ne_nil hne)
      exact ⟨turn, List.min?_mem hmin, (List.le_min?_iff hmin).1 le_rfl⟩
    have hpass : Elapse s { s with clock := turn } := .pass (h.due turn hturn) hfirst
    have hwake := Elapse.wake (s := { s with clock := turn }) hturn
    have hlength : (s.sleeping.erase turn).length = n := by
      rw [List.length_erase_of_mem hturn, hn, Nat.add_sub_cancel]
    obtain ⟨s', hsettles, hnil⟩ := ih ((h.elapse hpass).elapse hwake) hlength
    exact ⟨s', .head hpass (.head hwake hsettles), hnil⟩

/-- However callers come, those of them are released an interval apart from each other exactly
    when each came no earlier than an interval for everyone between it and any other. -/
theorem released_apart {clock : ℕ} (h : Reach clock s) :
    (∀ s', s.Settles s' → Apart minRequestInterval s'.released) ↔
      Spread minRequestInterval s.arrived := by
  have hqueued := h.queued
  rw [← apart_turns_none (by decide) hqueued.sorted]
  constructor
  · intro hapart
    obtain ⟨s', hsettles, hnil⟩ := hqueued.settles
    have hturns := (hsettles.queued hqueued).turns
    rw [hnil, List.append_nil, hsettles.arrived] at hturns
    exact (hapart s' hsettles).perm hturns
  · intro hapart s' hsettles
    have hturns := (hsettles.queued hqueued).turns
    rw [hsettles.arrived] at hturns
    exact (hapart.perm hturns.symm).sublist (List.sublist_append_left _ _)

/-- Two callers at once are released an interval apart. -/
theorem pair_apart : (∀ s', (start 0).throttle.throttle.Settles s' →
    Apart minRequestInterval s'.released) ∧ Spread minRequestInterval [0, 0] := by
  have hreach : Reach 0 (start 0).throttle.throttle := .tail (.tail .refl .come) .come
  have harrived : (start 0).throttle.throttle.arrived = [0, 0] := by decide
  have hspread : Spread minRequestInterval [0, 0] := by
    rw [spread_cons, spread_cons, room_cons]
    refine ⟨⟨le_rfl, fun n now hnow => ?_⟩, fun n now hnow => ?_, spread_nil⟩
    · simp at hnow
    · simp at hnow
  exact ⟨(released_apart hreach).2 (harrived ▸ hspread), hspread⟩

/-- Three callers at once. -/
def three : Throttle := (start 0).throttle.throttle.throttle

/-- Of three callers at once, two are released at the same moment. -/
theorem three_collapse : ¬∀ (clock : ℕ) (s : Throttle), Reach clock s →
    Apart minRequestInterval s.released := by
  intro h
  have hcome : Reach 0 three := .tail (.tail (.tail .refl .come) .come) .come
  have hpass : Step three { three with clock := minRequestInterval } :=
    .elapse (.pass (Nat.zero_le _) (by decide))
  have hwake := Elapse.wake (s := { three with clock := minRequestInterval }) (by decide)
  have hagain := Elapse.wake (s :=
    { three with
      clock := minRequestInterval, sleeping := [minRequestInterval]
      released := [0, minRequestInterval] }) (by decide)
  have hreach := ((hcome.tail hpass).tail (.elapse hwake)).tail (.elapse hagain)
  exact absurd (h 0 _ hreach) (by unfold Apart; decide)

end Throttle

end SeedMedic
