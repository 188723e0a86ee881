/-
  Stable sorting: what it forgets of the order of a list, and what is left of it between entries
  that the order does not tell apart.
-/
import Mathlib.Data.List.Sort

namespace Lib

section
variable {α β : Type} {r : α → α → Prop} {f : α → β}

/-- What entries are mapped to does not change along a list of entries the order does not tell
    apart, so one of them can be moved to the front. -/
theorem map_append_cons_eq {pre post : List α} {a : α} (h : ∀ b ∈ pre, f b = f a) :
    (pre ++ a :: post).map f = f a :: (pre ++ post).map f := by
  induction pre with
  | nil => rfl
  | cons b pre ih =>
    obtain ⟨hb, hpre⟩ := List.forall_mem_cons.1 h
    rw [List.cons_append, List.map_cons, ih hpre, List.cons_append, List.map_cons, hb]

/-- Two sorted lists of the same entries look the same to a map that equates what the order does
    not tell apart. -/
theorem map_eq_of_sorted {s t : List α} (hperm : s.Perm t) (hs : s.Pairwise r) (ht : t.Pairwise r)
    (h : ∀ a ∈ s, ∀ b ∈ s, r a b → r b a → f a = f b) : s.map f = t.map f := by
  induction s generalizing t with
  | nil => rw [hperm.symm.eq_nil]
  | cons a s ih =>
    -- the other list has `a` behind entries that are not above it
    obtain ⟨pre, post, rfl⟩ := List.append_of_mem (hperm.mem_iff.1 (List.mem_cons_self ..))
    have hrest : s.Perm (pre ++ post) := List.Perm.cons_inv (hperm.trans List.perm_middle)
    have hpre : ∀ b ∈ pre, f b = f a := by
      intro b hb
      have hba : r b a := (List.pairwise_append.1 ht).2.2 b hb a (List.mem_cons_self ..)
      have hbs : b ∈ s := hrest.mem_iff.2 (List.mem_append_left _ hb)
      exact h b (List.mem_cons_of_mem _ hbs) a (List.mem_cons_self ..) hba
        (List.rel_of_pairwise_cons hs hbs)
    rw [map_append_cons_eq hpre, List.map_cons]
    refine congrArg _ (ih hrest hs.of_cons (ht.sublist ?_) ?_)
    · exact List.Sublist.append_left (List.sublist_cons_self a post) pre
    · exact fun b hb c hc => h b (List.mem_cons_of_mem _ hb) c (List.mem_cons_of_mem _ hc)

variable [DecidableRel r] [IsTrans α r]

theorem decide_not_rel_eq {a b : α} (hab : r a b) (hba : r b a) :
    (fun c => decide (¬ r b c)) = fun c => decide (¬ r a c) := by
  funext c
  exact decide_eq_decide.2 (not_congr ⟨IsTrans.trans a b c hab, IsTrans.trans b a c hba⟩)

/-- Entries the order does not tell apart stay in the order they are inserted in. -/
theorem orderedInsert_orderedInsert {a b : α} (hab : r a b) (hba : r b a) (s : List α) :
    (s.orderedInsert r b).orderedInsert r a =
      (s.takeWhile fun c => ¬ r a c) ++ a :: b :: s.dropWhile fun c => ¬ r a c := by
  rw [List.orderedInsert_eq_take_drop r b, decide_not_rel_eq hab hba, List.orderedInsert_eq_take_drop]
  have hpre : ∀ c ∈ s.takeWhile (fun c => decide (¬ r a c)), decide (¬ r a c) = true :=
    List.all_eq_true.1 List.all_takeWhile
  rw [List.takeWhile_append_of_pos hpre, List.dropWhile_append_of_pos hpre,
    List.takeWhile_cons_of_neg (by simp [hab]), List.dropWhile_cons_of_neg (by simp [hab]),
    List.append_nil]

variable [Std.Total r]

/-- A map cannot see the order a list was in before it was sorted, exactly when it equates what the
    order does not tell apart. -/
theorem map_insertionSort_perm_iff (l : List α) :
    (∀ l' : List α, l'.Perm l → (l'.insertionSort r).map f = (l.insertionSort r).map f) ↔
      ∀ a ∈ l, ∀ b ∈ l, r a b → r b a → f a = f b := by
  classical
  constructor
  · intro h a ha b hb hab hba
    by_cases hne : a = b
    · rw [hne]
    -- both orders of the two entries are orders of the list
    have hrest := (List.perm_cons_erase ha).trans
      ((List.perm_cons_erase ((List.mem_erase_of_ne (Ne.symm hne)).2 hb)).cons a)
    have hboth := (h _ hrest.symm).trans (h _ ((hrest.trans (.swap ..)).symm)).symm
    rw [List.insertionSort_cons, List.insertionSort_cons, List.insertionSort_cons,
      List.insertionSort_cons, orderedInsert_orderedInsert hab hba,
      orderedInsert_orderedInsert hba hab] at hboth
    rw [decide_not_rel_eq hab hba, List.map_append, List.map_append] at hboth
    exact (List.cons.inj (List.append_cancel_left hboth)).1
  · intro h l' hl'
    refine map_eq_of_sorted ?_ (List.pairwise_insertionSort r l') (List.pairwise_insertionSort r l) ?_
    · exact ((List.perm_insertionSort r l').trans hl').trans (List.perm_insertionSort r l).symm
    · intro a ha b hb
      exact h a (hl'.mem_iff.1 ((List.mem_insertionSort r).1 ha)) b
        (hl'.mem_iff.1 ((List.mem_insertionSort r).1 hb))

end

/-! ## Lists of choices -/

section
variable {α β : Type} {f g : α → Option β} {l : List α}

theorem length_filterMap_le (h : ∀ a ∈ l, g a = f a ∨ g a = none) :
    (l.filterMap g).length ≤ (l.filterMap f).length := by
  induction l with
  | nil => exact le_rfl
  | cons a l ih =>
    obtain ⟨ha, hl⟩ := List.forall_mem_cons.1 h
    have hle := ih hl
    rcases ha with ha | ha
    · cases hf : f a <;> simpa [ha, hf] using hle
    · rw [List.filterMap_cons_none ha]
      cases hf : f a with
      | none => rwa [List.filterMap_cons_none hf]
      | some b =>
        rw [List.filterMap_cons_some hf, List.length_cons]
        omega

/-- Choices that are made at the same places are the same when the lists of them are. -/
theorem filterMap_eq_iff_of_isSome (h : ∀ a ∈ l, (g a).isSome = (f a).isSome) :
    l.filterMap g = l.filterMap f ↔ ∀ a ∈ l, g a = f a := by
  refine ⟨fun heq => ?_, List.filterMap_congr⟩
  induction l with
  | nil => simp
  | cons a l ih =>
    obtain ⟨ha, hl⟩ := List.forall_mem_cons.1 h
    cases hf : f a with
    | none =>
      have hg : g a = none := by simpa [hf] using ha
      rw [List.filterMap_cons_none hf, List.filterMap_cons_none hg] at heq
      exact List.forall_mem_cons.2 ⟨hg.trans hf.symm, ih hl heq⟩
    | some b =>
      obtain ⟨b', hg⟩ : ∃ b', g a = some b' := Option.isSome_iff_exists.1 (by simp [ha, hf])
      rw [List.filterMap_cons_some hf, List.filterMap_cons_some hg] at heq
      obtain ⟨hb, hrest⟩ := List.cons.inj heq
      exact List.forall_mem_cons.2 ⟨by rw [hg, hf, hb], ih hl hrest⟩

/-- When some choices of a list are withdrawn and none is made anew, the choices made stay the same
    exactly when none is withdrawn. -/
theorem filterMap_eq_iff_of_withdrawn (h : ∀ a ∈ l, g a = f a ∨ g a = none) :
    l.filterMap g = l.filterMap f ↔ ∀ a ∈ l, g a = f a := by
  refine ⟨fun heq => ?_, List.filterMap_congr⟩
  induction l with
  | nil => simp
  | cons a l ih =>
    obtain ⟨ha, hl⟩ := List.forall_mem_cons.1 h
    rcases ha with ha | ha
    · refine List.forall_mem_cons.2 ⟨ha, ih hl ?_⟩
      cases hf : f a with
      | none => rwa [List.filterMap_cons_none hf, List.filterMap_cons_none (ha.trans hf)] at heq
      | some b =>
        rw [List.filterMap_cons_some hf, List.filterMap_cons_some (ha.trans hf)] at heq
        exact (List.cons.inj heq).2
    · cases hf : f a with
      | none =>
        rw [List.filterMap_cons_none hf, List.filterMap_cons_none ha] at heq
        exact List.forall_mem_cons.2 ⟨ha.trans hf.symm, ih hl heq⟩
      | some b =>
        -- what is left is too short
        rw [List.filterMap_cons_some hf, List.filterMap_cons_none ha] at heq
        have hle := length_filterMap_le hl
        rw [heq, List.length_cons] at hle
        omega

end

end Lib
