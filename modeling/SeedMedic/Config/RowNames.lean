/-
  The names of the entries in a repeated section (`config/mod.rs`): when nothing is wrong with
  them, and the variables their secrets are read from.
-/
import SeedMedic.Config.Problems

namespace SeedMedic

open Lib

/-- The names met so far when nothing was wrong with any of them. -/
def NamesSeen.of (names : List String) : NamesSeen := ⟨names, names.map fun n => (shouty n, n)⟩

variable {name field : String} {index : ℕ} {value : String} {seen : List String}

/-- What a suffix was made from is one of the names that give it. -/
theorem suffix_eq_none_iff (value : String) (seen : List String) :
    ((seen.map fun n => (shouty n, n)).find? fun s => s.1 = shouty value) = none ↔
      shouty value ∉ seen.map shouty := by
  rw [List.find?_eq_none]
  simp

theorem exists_of_suffix {s : String × String}
    (h : (seen.map fun n => (shouty n, n)).find? (fun s => s.1 = shouty value) = some s) :
    s.2 ∈ seen ∧ shouty s.2 = shouty value := by
  have hsuffix : s.1 = shouty value := by simpa using List.find?_some h
  obtain ⟨n, hn, rfl⟩ := List.mem_map.1 (List.mem_of_find?_eq_some h)
  exact ⟨hn, hsuffix⟩

/-- Nothing is wrong with a name exactly when it is not blank and its suffix is new; then it is
    among the names met. -/
theorem nameProblems_eq_nil_iff : (nameProblems name field index value (.of seen)).1 = [] ↔
    trim value ≠ "" ∧ shouty value ∉ seen.map shouty := by
  unfold nameProblems
  by_cases hblank : trim value = ""
  · simp [hblank]
  · have hkeep : trim value ≠ "" ↔ True := iff_true_intro hblank
    rw [if_neg hblank, hkeep, true_and, ← suffix_eq_none_iff]
    dsimp only [NamesSeen.of]
    cases hfind : (seen.map fun n => (shouty n, n)).find? fun s => s.1 = shouty value with
    | none =>
      -- no name that gives the suffix: not this one either
      have hnew : value ∉ seen := by
        intro hmem
        exact (suffix_eq_none_iff value seen).1 hfind (List.mem_map_of_mem hmem)
      simp [hnew]
    | some s =>
      obtain ⟨hmem, hsuffix⟩ := exists_of_suffix hfind
      by_cases hsame : s.2 = value
      · rw [hsame] at hmem
        simp [hsame, hmem]
      · simp [hsame]

theorem nameProblems_seen (h : (nameProblems name field index value (.of seen)).1 = []) :
    (nameProblems name field index value (.of seen)).2 = .of (value :: seen) := by
  obtain ⟨hblank, hnew⟩ := nameProblems_eq_nil_iff.1 h
  have hfind := (suffix_eq_none_iff value seen).2 hnew
  unfold nameProblems
  rw [if_neg hblank]
  simp only [NamesSeen.of, hfind, Option.map_none, List.map_cons]

/-- The names that follow others of which none was wrong. -/
theorem repeatedNameProblems_of_eq_nil_iff (values : List String) :
    repeatedNameProblems name field index values (.of seen) = [] ↔
      (∀ v ∈ values, trim v ≠ "") ∧ (values.map shouty).Nodup ∧
        ∀ v ∈ values, shouty v ∉ seen.map shouty := by
  induction values generalizing index seen with
  | nil => simp [repeatedNameProblems]
  | cons value values ih =>
    simp only [repeatedNameProblems, List.append_eq_nil_iff]
    constructor
    · rintro ⟨hvalue, hrest⟩
      rw [nameProblems_seen hvalue, ih] at hrest
      obtain ⟨hblank, hnew⟩ := nameProblems_eq_nil_iff.1 hvalue
      obtain ⟨hblanks, hnodup, hnews⟩ := hrest
      refine ⟨List.forall_mem_cons.2 ⟨hblank, hblanks⟩, ?_, ?_⟩
      · rw [List.map_cons, List.nodup_cons]
        refine ⟨fun hmem => ?_, hnodup⟩
        obtain ⟨v, hv, hsame⟩ := List.mem_map.1 hmem
        exact hnews v hv (hsame ▸ List.mem_cons_self)
      · refine List.forall_mem_cons.2 ⟨hnew, fun v hv hmem => hnews v hv ?_⟩
        exact List.mem_cons_of_mem _ hmem
    · rintro ⟨hblanks, hnodup, hnews⟩
      rw [List.map_cons, List.nodup_cons] at hnodup
      have hvalue : (nameProblems name field index value (.of seen)).1 = [] :=
        nameProblems_eq_nil_iff.2
          ⟨hblanks value List.mem_cons_self, hnews value List.mem_cons_self⟩
      refine ⟨hvalue, ?_⟩
      rw [nameProblems_seen hvalue, ih]
      refine ⟨fun v hv => hblanks v (List.mem_cons_of_mem _ hv), hnodup.2, fun v hv hmem => ?_⟩
      obtain hsame | hmem := List.mem_cons.1 hmem
      · exact hnodup.1 (hsame ▸ List.mem_map_of_mem hv)
      · exact hnews v (List.mem_cons_of_mem _ hv) hmem

/-- Where a row's secret is read from in the environment. -/
def rowVar (before after name : String) : String := before ++ shouty name ++ after

theorem rowVar_inj {before after name name' : String} :
    rowVar before after name = rowVar before after name' ↔ shouty name = shouty name' := by
  constructor
  · intro h
    have hlist := congrArg String.toList h
    simp only [rowVar, String.toList_append, List.append_assoc, List.append_cancel_left_eq,
      List.append_cancel_right_eq] at hlist
    exact String.toList_inj.1 hlist
  · intro h
    rw [rowVar, rowVar, h]

/-- Nothing is wrong with the names of a section exactly when none is blank and no two give one
    suffix; then no two rows read one variable. -/
theorem repeatedNameProblems_eq_nil_iff (name field : String) (names : List String) :
    (repeatedNameProblems name field 0 names ⟨[], []⟩ = [] ↔
      (∀ n ∈ names, trim n ≠ "") ∧ names.Pairwise fun a b => shouty a ≠ shouty b) ∧
    (repeatedNameProblems name field 0 names ⟨[], []⟩ = [] → ∀ before after,
      names.Pairwise fun a b => rowVar before after a ≠ rowVar before after b) := by
  have hiff : repeatedNameProblems name field 0 names ⟨[], []⟩ = [] ↔
      (∀ n ∈ names, trim n ≠ "") ∧ names.Pairwise fun a b => shouty a ≠ shouty b := by
    have h : repeatedNameProblems name field 0 names (.of []) = [] ↔ _ :=
      repeatedNameProblems_of_eq_nil_iff names
    rw [NamesSeen.of, List.map_nil] at h
    rw [h, List.Nodup, List.pairwise_map]
    simp
  refine ⟨hiff, fun h before after => (hiff.1 h).2.imp fun hne hsame => hne ?_⟩
  exact rowVar_inj.1 hsame

end SeedMedic
