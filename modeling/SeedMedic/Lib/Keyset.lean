/-
  Paging by keys: every page is the first rows past the key of the last one's end.
-/
import Mathlib.Data.List.Sort

namespace Lib

/-- The pages that are served one after the other, each for the cursor the last one gave. -/
inductive Follows {C P : Type} (serve : Option C → Option (P × Option C)) :
    Option C → List P → Prop where
  | last {after : Option C} {p : P} (served : serve after = some (p, none)) : Follows serve after [p]
  | next {after : Option C} {c : C} {p : P} {ps : List P} (served : serve after = some (p, some c))
      (rest : Follows serve (some c) ps) : Follows serve after (p :: ps)

/-- There is one way to follow the cursors to the end. -/
theorem Follows.unique {C P : Type} {serve : Option C → Option (P × Option C)} {after : Option C}
    {ps qs : List P} (h : Follows serve after ps) (h' : Follows serve after qs) : ps = qs := by
  induction h generalizing qs with
  | last served =>
    cases h' with
    | last served' =>
      cases served.symm.trans served'
      rfl
    | next served' => cases served.symm.trans served'
  | next served _ ih =>
    cases h' with
    | last served' => cases served.symm.trans served'
    | next served' rest' =>
      cases served.symm.trans served'
      rw [ih rest']

section
variable {α κ : Type} [LinearOrder κ] (key : α → κ) (rows : List α)

/-- The rows past a key, in the order of their keys. -/
def rowsPast (after : Option κ) : List α :=
  (rows.filter fun r => after.all fun k => k < key r).insertionSort fun a b => key a ≤ key b

/-- One page: the first of the rows past a key. -/
def keysetPage (limit : ℕ) (after : Option κ) : List α := (rowsPast key rows after).take limit

/-- The row behind a page, when it is full. -/
def pageLast {α : Type} (limit : ℕ) (page : List α) : Option α :=
  if page.length = limit then page.getLast? else none

variable {key rows}

instance key_total : Std.Total fun a b : α => key a ≤ key b := ⟨fun a b => le_total (key a) (key b)⟩

instance key_trans : IsTrans α fun a b => key a ≤ key b := ⟨fun _ _ _ => le_trans⟩

theorem rowsPast_perm (after : Option κ) :
    (rowsPast key rows after).Perm (rows.filter fun r => after.all fun k => k < key r) :=
  List.perm_insertionSort _ _

theorem mem_rowsPast {after : Option κ} {r : α} :
    r ∈ rowsPast key rows after ↔ r ∈ rows ∧ ∀ k ∈ after, k < key r := by
  rw [(rowsPast_perm after).mem_iff, List.mem_filter]
  cases after <;> simp

theorem rowsPast_nodup (h : (rows.map key).Nodup) (after : Option κ) :
    ((rowsPast key rows after).map key).Nodup :=
  ((rowsPast_perm after).map key).nodup_iff.2 (h.sublist (List.filter_sublist.map key))

/-- Rows with keys of their own come strictly in order. -/
theorem rowsPast_sorted (h : (rows.map key).Nodup) (after : Option κ) :
    (rowsPast key rows after).Pairwise fun a b => key a < key b := by
  have hle : (rowsPast key rows after).Pairwise fun a b => key a ≤ key b :=
    List.pairwise_insertionSort _ _
  have hne := List.pairwise_map.1 (rowsPast_nodup h after)
  exact hle.imp₂ (fun _ _ => lt_of_le_of_ne) hne

theorem mem_of_mem_keysetPage {limit : ℕ} {after : Option κ} {r : α}
    (h : r ∈ keysetPage key rows limit after) : r ∈ rows ∧ ∀ k ∈ after, k < key r :=
  mem_rowsPast.1 (List.mem_of_mem_take h)

theorem mem_of_pageLast {limit : ℕ} {page : List α} {last : α} (h : pageLast limit page = some last) :
    last ∈ page := by
  unfold pageLast at h
  split_ifs at h
  exact List.mem_of_getLast? h

/-- No row of a page is past the row behind it. -/
theorem key_le_pageLast {limit : ℕ} {after : Option κ} {last r : α}
    (hlast : pageLast limit (keysetPage key rows limit after) = some last)
    (hr : r ∈ keysetPage key rows limit after) : key r ≤ key last := by
  unfold pageLast at hlast
  split_ifs at hlast
  obtain ⟨init, hinit⟩ := List.getLast?_eq_some_iff.1 hlast
  have hsorted : (keysetPage key rows limit after).Pairwise fun a b => key a ≤ key b :=
    (List.pairwise_insertionSort _ _).sublist (List.take_sublist _ _)
  rw [hinit] at hr hsorted
  rcases List.mem_append.1 hr with hr | hr
  · exact (List.pairwise_append.1 hsorted).2.2 r hr last (List.mem_singleton_self last)
  · rw [List.mem_singleton.1 hr]

/-- Past the row behind a full page is what was past the page. -/
theorem rowsPast_pageLast (h : (rows.map key).Nodup) {limit : ℕ} {after : Option κ} {last : α}
    (hfull : pageLast limit (keysetPage key rows limit after) = some last) :
    last ∈ rows ∧ rowsPast key rows (some (key last)) = (rowsPast key rows after).drop limit := by
  have hmem := mem_of_pageLast hfull
  have hupto : ∀ r ∈ keysetPage key rows limit after, key r ≤ key last :=
    fun _ hr => key_le_pageLast hfull hr
  unfold keysetPage at hmem hupto
  have hsorted := rowsPast_sorted h after
  have hsplit := List.take_append_drop limit (rowsPast key rows after)
  rw [← hsplit] at hsorted
  obtain ⟨-, hdrop, hcross⟩ := List.pairwise_append.1 hsorted
  have hanti : ∀ a b : α, a ∈ rowsPast key rows (some (key last)) →
      b ∈ (rowsPast key rows after).drop limit → key a < key b → key b < key a → a = b :=
    fun a b _ _ hab hba => absurd (hab.trans hba) (lt_irrefl _)
  refine ⟨(mem_rowsPast.1 (List.mem_of_mem_take hmem)).1,
    List.Perm.eq_of_pairwise hanti (rowsPast_sorted h _) hdrop ?_⟩
  refine (List.perm_ext_iff_of_nodup ((rowsPast_nodup h _).of_map _)
    (((rowsPast_nodup h after).of_map _).sublist (List.drop_sublist _ _))).2 fun r => ?_
  rw [mem_rowsPast]
  constructor
  · rintro ⟨hr, hpast⟩
    have hlt := hpast (key last) rfl
    have hrest : r ∈ rowsPast key rows after := mem_rowsPast.2
      ⟨hr, fun k hk => ((mem_rowsPast.1 (List.mem_of_mem_take hmem)).2 k hk).trans hlt⟩
    rw [← hsplit] at hrest
    exact (List.mem_append.1 hrest).resolve_left fun hr => absurd (hupto r hr) (not_le.2 hlt)
  · intro hr
    refine ⟨(mem_rowsPast.1 (List.mem_of_mem_drop hr)).1, fun k hk => ?_⟩
    cases hk
    exact hcross last hmem r hr

/-- Following the rows behind full pages visits the rows in the order of their keys, each once, and
    ends: what a page leaves is what the pages after it visit. -/
theorem exists_follows {C P : Type} {serve : Option C → Option (P × Option C)} {limit : ℕ}
    (h : (rows.map key).Nodup) (hlimit : 0 < limit) (spell : α → C) (render : List α → P)
    (hserve : ∀ after : Option α, (∀ r ∈ after, r ∈ rows) → serve (after.map spell) =
      some (render (keysetPage key rows limit (after.map key)),
        (pageLast limit (keysetPage key rows limit (after.map key))).map spell))
    (after : Option α) (hafter : ∀ r ∈ after, r ∈ rows) :
    ∃ pages : List (List α), Follows serve (after.map spell) (pages.map render) ∧
      pages.flatten = rowsPast key rows (after.map key) := by
  induction hn : (rowsPast key rows (after.map key)).length using Nat.strong_induction_on
    generalizing after with
  | _ n ih =>
    have hpage := hserve after hafter
    cases hlast : pageLast limit (keysetPage key rows limit (after.map key)) with
    | none =>
      rw [hlast] at hpage
      refine ⟨[keysetPage key rows limit (after.map key)], .last hpage, ?_⟩
      rw [List.flatten_singleton]
      -- a page that is not full has all the rows
      refine List.take_of_length_le (le_of_not_gt fun hlong => ?_)
      have hfull : (keysetPage key rows limit (after.map key)).length = limit := by
        rw [keysetPage, List.length_take, min_eq_left hlong.le]
      have hne : keysetPage key rows limit (after.map key) ≠ [] := by
        rw [Ne, ← List.length_eq_zero_iff]
        omega
      rw [pageLast, if_pos hfull, List.getLast?_eq_some_getLast hne] at hlast
      cases hlast
    | some last =>
      rw [hlast] at hpage
      obtain ⟨hmem, hrest⟩ := rowsPast_pageLast h hlast
      have hfull : (keysetPage key rows limit (after.map key)).length = limit := by
        by_contra hshort
        rw [pageLast, if_neg hshort] at hlast
        cases hlast
      have hlen : limit ≤ (rowsPast key rows (after.map key)).length := by
        rw [← hfull, keysetPage, List.length_take]
        exact min_le_right _ _
      have hless : (rowsPast key rows ((some last).map key)).length < n := by
        rw [Option.map_some, hrest, List.length_drop]
        omega
      obtain ⟨pages, hfollows, hflatten⟩ := ih _ hless (some last)
        (fun r hr => Option.some.inj hr ▸ hmem) rfl
      refine ⟨keysetPage key rows limit (after.map key) :: pages, .next hpage hfollows, ?_⟩
      rw [List.flatten_cons, hflatten, Option.map_some, hrest]
      exact List.take_append_drop limit _

end

end Lib
