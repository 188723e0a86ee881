/-
  Submissions that leave a document as it is: what is left of the pairs of a page, and which
  values change nothing.
-/
import SeedMedic.Web.Settings.SecretFiles
import SeedMedic.Web.Settings.Submit

namespace SeedMedic

open Lib Lib.Toml

/-! ## What is left of a submission -/

section
variable {pairs : List (String × String)} {key : String}

theorem lastValueWins_concat (pairs : List (String × String)) (p : String × String) :
    lastValueWins (pairs ++ [p]) =
      if p.1 ∈ (lastValueWins pairs).map (·.1) then
        (lastValueWins pairs).map fun q => if q.1 = p.1 then p else q
      else lastValueWins pairs ++ [p] := by
  rw [lastValueWins, List.foldl_append]
  rfl

theorem keys_lastValueWins : key ∈ (lastValueWins pairs).map (·.1) ↔ key ∈ pairs.map (·.1) := by
  induction pairs using List.reverseRecOn with
  | nil => rfl
  | append_singleton pairs p ih =>
    rw [lastValueWins_concat, List.map_append, List.mem_append, ← ih]
    split_ifs with hmem
    · have hkeys : ((lastValueWins pairs).map fun q => if q.1 = p.1 then p else q).map (·.1) =
          (lastValueWins pairs).map (·.1) := by
        rw [List.map_map]
        refine List.map_congr_left fun q _ => ?_
        by_cases hq : q.1 = p.1 <;> simp [hq]
      rw [hkeys]
      refine ⟨.inl, fun h => h.elim id fun hp => ?_⟩
      obtain rfl : key = p.1 := by simpa using hp
      exact hmem
    · rw [List.map_append, List.mem_append]

/-- Of the values of a key that is not there yet, the last is left. -/
theorem lastValueWins_append_values (h : key ∉ pairs.map (·.1)) (values : List String) :
    lastValueWins (pairs ++ values.map fun value => (key, value)) =
      lastValueWins pairs ++ (values.getLast?.map fun value => (key, value)).toList := by
  induction values using List.reverseRecOn with
  | nil => simp
  | append_singleton values value ih =>
    have hnot : key ∉ (lastValueWins pairs).map (·.1) := fun hmem => h (keys_lastValueWins.1 hmem)
    have hkeep : ((lastValueWins pairs).map fun q => if q.1 = key then (key, value) else q) =
        lastValueWins pairs := by
      conv_rhs => rw [← List.map_id (lastValueWins pairs)]
      refine List.map_congr_left fun q hq => if_neg fun hkey => hnot ?_
      exact hkey ▸ List.mem_map_of_mem hq
    rw [List.map_append, ← List.append_assoc, List.map_singleton, lastValueWins_concat, ih,
      List.getLast?_concat]
    cases hlast : values.getLast? with
    | none => simp [hnot]
    | some old => simp [hkeep]

/-- Of groups of values at keys that are all different, the last value of each is left. -/
theorem lastValueWins_groups {α : Type} {l : List α} {name : α → String}
    (values : α → List String) (h : (l.map name).Nodup) :
    lastValueWins (l.flatMap fun a => (values a).map fun value => (name a, value)) =
      l.filterMap fun a => (values a).getLast?.map fun value => (name a, value) := by
  induction l using List.reverseRecOn with
  | nil => rfl
  | append_singleton l a ih =>
    rw [List.map_append, List.nodup_append] at h
    obtain ⟨hl, -, hfresh⟩ := h
    have hnot : name a ∉
        (l.flatMap fun a => (values a).map fun value => (name a, value)).map (·.1) := by
      intro hmem
      obtain ⟨p, hp, hkey⟩ := List.mem_map.1 hmem
      obtain ⟨b, hb, hp⟩ := List.mem_flatMap.1 hp
      obtain ⟨value, -, rfl⟩ := List.mem_map.1 hp
      exact hfresh _ (List.mem_map_of_mem hb) (name a) (by simp) hkey
    rw [List.flatMap_append, List.flatMap_singleton, lastValueWins_append_values hnot, ih hl,
      List.filterMap_append]
    cases hlast : (values a).getLast? <;> simp [hlast]

/-- A submission in which nothing is cleared and nothing confirmed. -/
theorem ofPairs_eq (h : ∀ p ∈ lastValueWins pairs,
      stripSuffix ".clear" p.1 = none ∧ stripSuffix ".confirm" p.1 = none) :
    Submitted.ofPairs pairs = ⟨[], [], lastValueWins pairs⟩ := by
  unfold Submitted.ofPairs
  generalize lastValueWins pairs = ps at h ⊢
  induction ps with
  | nil => rfl
  | cons p ps ih =>
    obtain ⟨hclear, hconfirm⟩ := h p List.mem_cons_self
    rw [List.foldr_cons, ih fun q hq => h q (List.mem_cons_of_mem _ hq)]
    simp only [hclear, hconfirm]

end

/-! ## Values that change nothing -/

section
variable {host : ConfigHost} {before : Config} {form : Submitted} {templates : List Field}
  {skip : String → Bool} {room : ℕ} {doc doc' : ConfigDocument} {key : String} {parsed : Parsed}
  {values : List (String × String)}

/-- What is there already is written without a change. -/
theorem ConfigDocument.set_of_get {value : Item} (h : doc.get key = some value) :
    doc.set room key value = some doc := by
  cases hp : placeOf (segments key) with
  | none => simp [get, hp] at h
  | some p =>
    cases hreach : reach p.way doc.doc with
    | none => simp [get, hp, hreach] at h
    | some inner =>
      have hne : reach p.way doc.doc ≠ none := by simp [hreach]
      have hthere : inner.get p.key = some value := by simpa [get, hp, hreach] using h
      refine (set_eq_some_iff hp).2 ⟨fits_of_reach hne, ?_⟩
      have hdoc : alter (·.insert p.key value) p.way doc.doc = doc.doc :=
        alter_of_fixed hreach (Toml.Table.insert_of_get hthere)
      rw [← alter_of_reach hne, hdoc]

theorem applyParsed_of_leaves (h : parsed.leaves (doc.get key) = doc.get key) :
    applyParsed room doc key parsed = some doc := by
  cases parsed with
  | remove => exact congrArg some (ConfigDocument.remove_of_absent h.symm)
  | set value => exact ConfigDocument.set_of_get h.symm
  | setArray values => exact ConfigDocument.set_of_get h.symm
  | unchanged => rfl

theorem leavesAt_of_mem {es : List (String × Parsed)}
    (hnodup : (es.map fun e => segments e.1).Nodup) (h : (key, parsed) ∈ es) (old : Option Item) : leavesAt key es old = parsed.leaves old := by
  induction es generalizing old with
  | nil => cases h
  | cons e es ih =>
    rw [List.map_cons, List.nodup_cons] at hnodup
    obtain ⟨hfresh, hnodup⟩ := hnodup
    obtain rfl | h := List.mem_cons.1 h
    · rw [leavesAt, if_pos rfl]
      refine leavesAt_eq_self fun e he hseg => absurd ?_ hfresh
      exact hseg ▸ List.mem_map_of_mem (f := fun e : String × Parsed => segments e.1) he
    · have hne : segments e.1 ≠ segments key := fun hseg => hfresh (hseg ▸ List.mem_map_of_mem h)
      rw [leavesAt, if_neg hne, ih hnodup h]

theorem FieldErrors.insert_ne_nil (key message : String) (errors : FieldErrors) :
    errors.insert key message ≠ [] := by
  cases errors with
  | nil => exact List.cons_ne_nil _ _
  | cons e es =>
    rw [FieldErrors.insert]
    split_ifs <;> exact List.cons_ne_nil _ _

/-- A value is taken, and leaves what the document has. -/
def LeavesAsIs (host : ConfigHost) (before : Config) (form : Submitted) (doc : ConfigDocument)
    (f : Field) (key value : String) : Prop :=
  ∃ parsed, judge host before form doc f key value = .ok parsed ∧
    parsed.leaves (doc.get key) = doc.get key

/-- Where nothing is wrong in the end, nothing was wrong with any value. -/
theorem judge_of_applyValues (ht : templates ⊆ fields) (hnodup : (values.map (·.1)).Nodup)
    {errors : FieldErrors} (h : applyValues host before form room templates skip values doc errors =
      some (doc', .ok [])) : errors = [] ∧ ∀ r ∈ reached templates skip values,
        ∃ parsed, judge host before form doc r.1 r.2.1 r.2.2 = .ok parsed := by
  induction values generalizing doc errors with
  | nil =>
    simp only [applyValues, Option.some.injEq, Prod.mk.injEq, Except.ok.injEq] at h
    exact ⟨h.2, fun r hr => by cases hr⟩
  | cons p values ih =>
    obtain ⟨key, value⟩ := p
    obtain ⟨hfresh, hnodup⟩ := List.nodup_cons.1 hnodup
    by_cases hskip : skip key = true
    · simpa [reached, hskip] using ih hnodup (by simpa [applyValues, hskip] using h)
    · cases hf : findField templates key with
      | none => simp [applyValues, hskip, hf] at h
      | some f =>
        have hreached : reached templates skip ((key, value) :: values) =
            (f, key, value) :: reached templates skip values := by simp [reached, hskip, hf]
        cases hjudge : judge host before form doc f key value with
        | error message =>
          have hrest := ih hnodup (by simpa [applyValues, hskip, hf, hjudge] using h)
          exact absurd hrest.1 (FieldErrors.insert_ne_nil _ _ _)
        | ok parsed =>
          simp only [applyValues, hskip, Bool.false_eq_true, if_false, hf, hjudge] at h
          obtain ⟨doc₁, hdoc₁, h⟩ := Option.bind_eq_some_iff.1 h
          obtain ⟨herrors, hall⟩ := ih hnodup h
          refine ⟨herrors, ?_⟩
          rw [hreached, List.forall_mem_cons]
          refine ⟨⟨parsed, hjudge⟩, fun r hr => ?_⟩
          obtain ⟨hfind, hmem, -⟩ := findField_of_reached hr
          have hne : key ≠ r.2.1 := by
            rintro rfl
            exact hfresh (List.mem_map.2 ⟨_, hmem, rfl⟩)
          obtain ⟨parsed', hparsed'⟩ := hall r hr
          refine ⟨parsed', ?_⟩
          rw [← hparsed', judge_applyParsed ht (isFieldKey_of_find ht hf).1 hfind hne hdoc₁]

theorem keys_edits (values : List (String × String)) :
    ((edits host before form templates skip doc values).map (·.1)).Sublist (values.map (·.1)) := by
  induction values with
  | nil => exact List.Sublist.slnil
  | cons p values ih =>
    by_cases hskip : skip p.1 = true
    · simpa [edits, reached, hskip] using ih.cons p.1
    · cases hf : findField templates p.1 with
      | none => simp [edits, reached, hskip, hf]
      | some f =>
        cases hjudge : judge host before form doc f p.1 p.2 with
        | error message =>
          simpa [edits, reached, hskip, hf, editOf, hjudge, Except.toOption] using ih.cons p.1
        | ok parsed =>
          simpa [edits, reached, hskip, hf, editOf, hjudge, Except.toOption] using ih.cons_cons p.1

/-- Where every key is one of a field, every value that is not left out is looked at. -/
theorem mem_reached (hfind : ∀ p ∈ values, findField templates p.1 ≠ none) {p : String × String}
    (hp : p ∈ values) (hskip : skip p.1 = false) {f : Field}
    (hf : findField templates p.1 = some f) : (f, p.1, p.2) ∈ reached templates skip values := by
  induction values with
  | nil => cases hp
  | cons q values ih =>
    have ih := ih fun p hp => hfind p (List.mem_cons_of_mem _ hp)
    obtain rfl | hp := List.mem_cons.1 hp
    · simp [reached, hskip, hf]
    · by_cases hq : skip q.1 = true
      · simpa [reached, hq] using ih hp
      · obtain ⟨g, hg⟩ := Option.ne_none_iff_exists'.1 (hfind q List.mem_cons_self)
        simpa [reached, hq, hg] using .inr (ih hp)

/-- Values at keys that are told apart leave the document as it is exactly where every one of them
    does. -/
theorem applyValues_unchanged_iff (ht : templates ⊆ fields) (hnodup : (values.map (·.1)).Nodup)
    (hinj : ∀ key ∈ values.map (·.1), ∀ key' ∈ values.map (·.1),
      segments key = segments key' → key = key')
    (hfind : ∀ p ∈ values, findField templates p.1 ≠ none) :
    applyValues host before form room templates skip values doc [] = some (doc, .ok []) ↔
      ∀ p ∈ values, skip p.1 = false → ∀ f, findField templates p.1 = some f →
        LeavesAsIs host before form doc f p.1 p.2 := by
  constructor
  · intro h p hp hskip f hf
    have hrun : runEdits room (edits host before form templates skip doc values) doc =
        some doc := by
      rw [← applyValues_map ht hnodup [], h]
      rfl
    have hmem := mem_reached hfind hp hskip hf
    obtain ⟨parsed, hparsed⟩ := (judge_of_applyValues ht hnodup h).2 _ hmem
    refine ⟨parsed, hparsed, ?_⟩
    have hedit : (p.1, parsed) ∈ edits host before form templates skip doc values :=
      List.mem_filterMap.2 ⟨_, hmem, by simp [editOf, hparsed, Except.toOption]⟩
    have hkeys : ((edits host before form templates skip doc values).map fun e =>
        segments e.1).Nodup := by
      have hsub := @keys_edits host before form templates skip doc values
      have hkeys := (hsub.nodup hnodup).map_on fun key hkey key' hkey' =>
        hinj key (hsub.subset hkey) key' (hsub.subset hkey')
      rwa [List.map_map] at hkeys
    rw [← leavesAt_of_mem hkeys hedit, ← get_runEdits (isFieldKey_of_edits ht)
      (isFieldKey_of_find ht hf).1 hrun]
  · intro h
    induction values with
    | nil => rfl
    | cons p values ih =>
      have ih := ih (List.nodup_cons.1 hnodup).2
        (fun key hkey key' hkey' => hinj key (List.mem_cons_of_mem _ hkey) key'
          (List.mem_cons_of_mem _ hkey'))
        (fun p hp => hfind p (List.mem_cons_of_mem _ hp))
        fun p hp => h p (List.mem_cons_of_mem _ hp)
      by_cases hskip : skip p.1 = true
      · simpa [applyValues, hskip] using ih
      · obtain ⟨f, hf⟩ := Option.ne_none_iff_exists'.1 (hfind p List.mem_cons_self)
        obtain ⟨parsed, hparsed, hleaves⟩ := h p List.mem_cons_self (by simpa using hskip) f hf
        simp only [applyValues, hskip, Bool.false_eq_true, if_false, hf, hparsed,
          applyParsed_of_leaves hleaves, Option.bind_some, ih]

end

end SeedMedic
