/-
  The keys of the fields a settings page shows: each is found again as its field's, and no two of
  them are the same.
-/
import SeedMedic.Web.Settings.Laws
import SeedMedic.Web.Settings.Render

namespace SeedMedic

open Lib Lib.Toml Lib.Form

/-! ## Templates with numbers in them -/

/-- The stars of a field's key. -/
def Field.stars (f : Field) : ℕ := (dotted f.key).count "*"

theorem not_dot_toString (i : ℕ) : '.' ∉ (toString i).toList := fun hdot =>
  absurd (isDigit_of_toString hdot) (by decide)

theorem numbers_concreteParts {ts : List String} {indices : List ℕ}
    (hlen : indices.length = ts.count "*") (hsize : ∀ i ∈ indices, i < 2 ^ 64) :
    List.Forall₂ Numbers ts (concreteParts ts indices) := by
  fun_induction concreteParts ts indices with
  | case1 => exact .nil
  | case2 ts i indices ih =>
    refine .cons ⟨i, hsize i List.mem_cons_self, rfl⟩ (ih ?_ ?_)
    · simpa using hlen
    · exact fun j hj => hsize j (List.mem_cons_of_mem _ hj)
  | case3 ts ih => simp at hlen
  | case4 t ts indices hstar ih =>
    refine .cons (by simp [Numbers, hstar]) (ih ?_ hsize)
    simpa [List.count_cons, hstar] using hlen

theorem concreteParts_nil (ts : List String) : concreteParts ts [] = ts := by
  induction ts with
  | nil => rfl
  | cons t ts ih =>
    rw [concreteParts, ih]
    split_ifs <;> rfl

theorem concreteParts_inj {ts : List String} {indices indices' : List ℕ}
    (hlen : indices.length = ts.count "*") (hlen' : indices'.length = ts.count "*")
    (h : concreteParts ts indices = concreteParts ts indices') : indices = indices' := by
  induction ts generalizing indices indices' with
  | nil =>
    rw [List.count_nil, List.length_eq_zero_iff] at hlen hlen'
    rw [hlen, hlen']
  | cons t ts ih =>
    by_cases hstar : t = "*"
    · subst hstar
      rw [List.count_cons_self] at hlen hlen'
      obtain ⟨i, indices, rfl⟩ := List.exists_cons_of_length_eq_add_one hlen
      obtain ⟨i', indices', rfl⟩ := List.exists_cons_of_length_eq_add_one hlen'
      simp only [concreteParts, if_true, List.cons.injEq] at h
      rw [repr_inj h.1, ih (by simpa using hlen) (by simpa using hlen') h.2]
    · rw [List.count_cons_of_ne hstar] at hlen hlen'
      simp only [concreteParts, if_neg hstar, List.cons.injEq, true_and] at h
      exact ih hlen hlen' h

theorem not_dot_concreteParts {ts : List String} {indices : List ℕ}
    (h : ∀ t ∈ ts, '.' ∉ t.toList) : ∀ t ∈ concreteParts ts indices, '.' ∉ t.toList := by
  fun_induction concreteParts ts indices with
  | case1 => exact h
  | case2 ts i indices ih =>
    rw [List.forall_mem_cons] at h ⊢
    exact ⟨not_dot_toString i, ih h.2⟩
  | case3 ts ih =>
    rw [List.forall_mem_cons] at h ⊢
    exact ⟨h.1, ih h.2⟩
  | case4 t ts indices hstar ih =>
    rw [List.forall_mem_cons] at h ⊢
    exact ⟨h.1, ih h.2⟩

theorem dotted_ne_nil (key : String) : dotted key ≠ [] := by simp [dotted]

theorem undotted_dotted (key : String) : undotted (dotted key) = key := by
  have hparts : (dotted key).map String.toList = key.toList.splitOn '.' := by
    simp [dotted, Function.comp_def]
  rw [undotted, hparts, List.intercalate_splitOn, String.ofList_toList]

theorem dotted_concreteKey (template : String) (indices : List ℕ) :
    dotted (concreteKey template indices) = concreteParts (dotted template) indices := by
  refine dotted_undotted (not_dot_concreteParts fun t ht => not_mem_dotted ht) ?_
  cases hts : dotted template with
  | nil => exact absurd hts (dotted_ne_nil template)
  | cons t ts =>
    unfold concreteParts
    split_ifs
    · cases indices <;> exact List.cons_ne_nil _ _
    · exact List.cons_ne_nil _ _

theorem concreteKey_nil (template : String) : concreteKey template [] = template := by
  rw [concreteKey, concreteParts_nil, undotted_dotted]

/-- No template fits another, whatever its stars stand for. -/
theorem eq_of_suits {ts us : List String} (hts : isTemplate ts = true) (hus : isTemplate us = true)
    (h : List.Forall₂ Suits ts us) : ts = us := by
  unfold isTemplate at hts
  split at hts
  next s k =>
    obtain _ | ⟨hs, _ | ⟨hk, _ | _⟩⟩ := h
    simp only [Bool.and_eq_true, decide_eq_true_eq] at hts
    rw [(hs.of_isName hts.1.1.1).1, (hk.of_isName hts.1.1.2).1]
  next k =>
    obtain _ | ⟨hs, _ | ⟨-, _ | ⟨hk, _ | _⟩⟩⟩ := h
    obtain rfl := hs.of_ne (by decide)
    unfold isTemplate at hus
    split at hus <;> simp_all [hk.of_isName hts]
  next k =>
    obtain _ | ⟨hs, _ | ⟨-, _ | ⟨hk, _ | _⟩⟩⟩ := h
    obtain rfl := hs.of_ne (by decide)
    simp only [Bool.and_eq_true] at hts
    unfold isTemplate at hus
    split at hus <;> simp_all [hk.of_isName hts.1]
  next k =>
    obtain _ | ⟨hs, _ | ⟨-, _ | ⟨hm, _ | ⟨-, _ | ⟨hk, _ | _⟩⟩⟩⟩⟩ := h
    obtain rfl := hs.of_ne (by decide)
    obtain rfl := hm.of_ne (by decide)
    unfold isTemplate at hus
    split at hus <;> simp_all [hk.of_isName hts]
  next => cases hts

theorem isTemplate_of_mem {f : Field} (hf : f ∈ fields) : isTemplate (dotted f.key) = true := by
  have hsound := isSound_fields f hf
  simp only [Field.isSound, Bool.and_eq_true] at hsound
  exact hsound.1.1.1

theorem nodup_keys_fields : (fields.map fun f => f.key).Nodup := by decide +kernel

/-- The stars of the fields of every page, and that no field is to clear or to confirm another. -/
theorem stars_of_pages : (∀ page ∈ PAGES, (fieldsFor page.prefixes).Nodup ∧
      ∀ f ∈ fieldsFor page.prefixes, f.stars = 0) ∧
    (trackerRowFields.Nodup ∧ ∀ f ∈ trackerRowFields, f.stars = 1) ∧
    (arrRowFields.Nodup ∧ ∀ f ∈ arrRowFields, f.stars = 1) ∧
    (mappingRowFields.Nodup ∧ ∀ f ∈ mappingRowFields, f.stars = 2) ∧
    ∀ f ∈ fields, (dotted f.key).getLastD "" ∉ ["clear", "confirm"] := by
  decide +kernel

variable {templates : List Field} {f g : Field} {indices : List ℕ} {key : String}

/-- What fits a key of a field's fits the field's template. -/
theorem matches_of_concreteKey (hf : f ∈ fields) (hg : g ∈ fields)
    (hlen : indices.length = f.stars) (hsize : ∀ i ∈ indices, i < 2 ^ 64)
    (h : matchesTemplate g.key (concreteKey f.key indices) = true) : g = f := by
  have hnumbers := numbers_concreteParts hlen hsize
  rw [matchesTemplate_iff, dotted_concreteKey] at h
  have htemplate := isTemplate_of_mem hg
  have hnames := names_of_isTemplate htemplate
  suffices hsuits : List.Forall₂ Suits (dotted g.key) (dotted f.key) by
    have hkey := dotted_injective (eq_of_suits htemplate (isTemplate_of_mem hf) hsuits)
    exact List.inj_on_of_nodup_map nodup_keys_fields hg hf hkey
  clear htemplate hsize hlen
  generalize dotted g.key = ts at h hnames ⊢
  generalize dotted f.key = us at h hnumbers ⊢
  generalize concreteParts us indices = ps at h hnumbers
  induction h generalizing us with
  | nil =>
    cases hnumbers
    exact .nil
  | cons hsuits _ ih =>
    obtain ⟨hname, hnames⟩ := List.forall_mem_cons.1 hnames
    cases hnumbers with
    | cons hnumber hnumbers =>
      refine .cons ?_ (ih hnames _ hnumbers)
      unfold Numbers at hnumber
      obtain rfl | rfl := hsuits
      · exact .inl rfl
      · split_ifs at hnumber with hstar
        · -- a part of a template is no number
          obtain ⟨i, hi, rfl⟩ := hnumber
          obtain heq | hseg := hname
          · exact .inl heq
          · cases (segment_toString hi).symm.trans hseg
        · exact .inr hnumber

/-- The field of a key of a row is the field the key was made for. -/
theorem findField_concreteKey (ht : templates ⊆ fields) (hf : f ∈ templates)
    (hlen : indices.length = f.stars) (hsize : ∀ i ∈ indices, i < 2 ^ 64) :
    findField templates (concreteKey f.key indices) = some f := by
  have hmatch : matchesTemplate f.key (concreteKey f.key indices) = true := by
    rw [matchesTemplate_iff, dotted_concreteKey]
    exact (numbers_concreteParts hlen hsize).imp fun _ _ h => h.suits
  cases hfind : findField templates (concreteKey f.key indices) with
  | none => exact absurd hmatch (List.find?_eq_none.1 hfind f hf)
  | some g =>
    have hg := List.mem_of_find?_eq_some hfind
    have hgmatch := List.find?_some (p := fun g : Field => matchesTemplate g.key _) hfind
    rw [matches_of_concreteKey (ht hf) (ht hg) hlen hsize hgmatch]

theorem isConcreteKey_concreteKey (hf : f ∈ fields) (hlen : indices.length = f.stars)
    (hsize : ∀ i ∈ indices, i < 2 ^ 64) : IsConcreteKey (concreteKey f.key indices) := by
  refine ⟨f, hf, ?_⟩
  rw [dotted_concreteKey]
  exact numbers_concreteParts hlen hsize

/-- What an ending cuts off is the last part of a key. -/
theorem getLastD_of_stripSuffix (ending : String) {base : String} (hdot : '.' ∉ ending.toList)
    (h : stripSuffix ("." ++ ending) key = some base) : (dotted key).getLastD "" = ending := by
  unfold stripSuffix at h
  split_ifs at h with hsuffix
  obtain ⟨front, hfront⟩ := List.isSuffixOf_iff_suffix.1 hsuffix
  have hkey : key.toList = front ++ '.' :: ending.toList := by
    rw [← hfront, String.toList_append]
    rfl
  rw [dotted, hkey, List.splitOn_append_cons_self, List.splitOn_eq_singleton hdot, List.map_append]
  simp

/-- A key of a field is not one to clear or to confirm. -/
theorem stripSuffix_concreteKey (hf : f ∈ fields) (hlen : indices.length = f.stars)
    (hsize : ∀ i ∈ indices, i < 2 ^ 64) :
    stripSuffix ".clear" (concreteKey f.key indices) = none ∧
      stripSuffix ".confirm" (concreteKey f.key indices) = none := by
  have hsuits : List.Forall₂ Suits (dotted f.key) (dotted (concreteKey f.key indices)) := by
    rw [dotted_concreteKey]
    exact (numbers_concreteParts hlen hsize).imp fun _ _ h => h.suits
  have hlast := (FieldParts.of_suits (isTemplate_of_mem hf) hsuits).2
  have hno := stars_of_pages.2.2.2.2 f hf
  rw [← hlast] at hno
  constructor
  · refine Option.eq_none_iff_forall_ne_some.2 fun base hbase => hno ?_
    rw [getLastD_of_stripSuffix "clear" (by decide) hbase]
    decide
  · refine Option.eq_none_iff_forall_ne_some.2 fun base hbase => hno ?_
    rw [getLastD_of_stripSuffix "confirm" (by decide) hbase]
    decide

/-! ## Pages -/

namespace SettingsForm

/-- Whether there is a page for a form. -/
def IsOffered : SettingsForm → Prop
  | simple page => page ∈ PAGES
  | trackers | arr => True

/-- The fields a page shows, with the numbers of their rows. -/
def slots (doc : ConfigDocument) : SettingsForm → List (Field × List ℕ)
  | simple page => (fieldsFor page.prefixes).map fun f => (f, [])
  | trackers =>
    (List.range (doc.rowCount "trackers" + 1)).flatMap fun row =>
      trackerRowFields.map fun f => (f, [row])
  | arr =>
    (List.range (doc.rowCount "arr" + 1)).flatMap fun row =>
      (arrRowFields.map fun f => (f, [row])) ++
        if row < doc.rowCount "arr" then
          (List.range (doc.rowCount ("arr." ++ toString row ++ ".path_mappings") + 1)).flatMap
            fun sub => mappingRowFields.map fun f => (f, [row, sub])
        else []

variable {form : SettingsForm} {config : Config} {doc : ConfigDocument}

theorem shown_slots (form : SettingsForm) (config : Config) (doc : ConfigDocument) :
    (form.shown config doc).map (fun e => (e.field, e.key)) =
    (form.slots doc).map fun s => (s.1, concreteKey s.1.key s.2) := by
  cases form with
  | simple page => simp [shown, slots, concreteKey_nil]
  | trackers => simp [shown, slots, rowEntries, List.map_flatMap, Function.comp_def]
  | arr =>
    simp only [shown, slots, rowEntries, List.map_flatMap, List.map_append, List.map_map]
    refine List.flatMap_congr fun row _ => ?_
    split_ifs <;> simp [List.map_flatMap, Function.comp_def]

theorem nodup_row {fs : List Field} (h : fs.Nodup) (indices : List ℕ) :
    (fs.map fun f => (f, indices)).Nodup :=
  h.map fun _ _ he => (Prod.mk.inj he).1

/-- Rows are told apart by their number. -/
theorem nodup_rows {rows : List ℕ} (hrows : rows.Nodup) {k : ℕ}
    {slotsOf : ℕ → List (Field × List ℕ)} (hslots : ∀ row, (slotsOf row).Nodup)
    (hat : ∀ row, ∀ s ∈ slotsOf row, s.2[k]? = some row) : (rows.flatMap slotsOf).Nodup := by
  refine List.nodup_flatMap.2 ⟨fun row _ => hslots row, hrows.imp fun {row row'} hne => ?_⟩
  intro s hs hs'
  exact hne (Option.some.inj ((hat row s hs).symm.trans (hat row' s hs')))

theorem mem_row {fs : List Field} {indices : List ℕ} {s : Field × List ℕ}
    (h : s ∈ fs.map fun f => (f, indices)) : s.1 ∈ fs ∧ s.2 = indices := by
  obtain ⟨f, hf, rfl⟩ := List.mem_map.1 h
  exact ⟨hf, rfl⟩

/-- The mappings of a row of `arr`. -/
theorem mem_mappings {row mappings : ℕ} {s : Field × List ℕ}
    (h : s ∈ if row < doc.rowCount "arr" then (List.range (mappings + 1)).flatMap fun sub =>
      mappingRowFields.map fun f => (f, [row, sub]) else []) :
    s.1 ∈ mappingRowFields ∧ ∃ sub ≤ mappings, s.2 = [row, sub] := by
  split_ifs at h
  · obtain ⟨sub, hsub, hs⟩ := List.mem_flatMap.1 h
    obtain ⟨hf, heq⟩ := mem_row hs
    exact ⟨hf, sub, Nat.lt_succ_iff.1 (List.mem_range.1 hsub), heq⟩
  · cases h

/-- No field is shown twice. -/
theorem nodup_slots (h : form.IsOffered) : (form.slots doc).Nodup := by
  cases form with
  | simple page => exact nodup_row (stars_of_pages.1 page h).1 []
  | trackers =>
    refine nodup_rows (k := 0) List.nodup_range (fun row => nodup_row stars_of_pages.2.1.1 [row]) ?_
    intro row s hs
    rw [(mem_row hs).2]
    rfl
  | arr =>
    refine nodup_rows (k := 0) List.nodup_range (fun row => ?_) fun row s hs => ?_
    · refine List.nodup_append'.2 ⟨nodup_row stars_of_pages.2.2.1.1 [row], ?_, ?_⟩
      · split_ifs
        · refine nodup_rows (k := 1) List.nodup_range
            (fun sub => nodup_row stars_of_pages.2.2.2.1.1 [row, sub]) fun sub s hs => ?_
          rw [(mem_row hs).2]
          rfl
        · exact List.nodup_nil
      · intro s hs hs'
        obtain ⟨-, sub, -, hsub⟩ := mem_mappings hs'
        rw [(mem_row hs).2] at hsub
        cases hsub
    · obtain hs | hs := List.mem_append.1 hs
      · rw [(mem_row hs).2]
        rfl
      · obtain ⟨-, sub, -, hsub⟩ := mem_mappings hs
        rw [hsub]
        rfl

/-- Every field is one of the form's, and has a number for each of its stars. -/
theorem mem_slots (h : form.IsOffered) (hrows : ∀ name, doc.rowCount name < 2 ^ 64)
    {s : Field × List ℕ} (hs : s ∈ form.slots doc) : s.1 ∈ form.templates ∧
      s.2.length = s.1.stars ∧ ∀ i ∈ s.2, i < 2 ^ 64 := by
  cases form with
  | simple page =>
    obtain ⟨hf, hindices⟩ := mem_row hs
    exact ⟨hf, by rw [hindices, (stars_of_pages.1 page h).2 _ hf]; rfl, by simp [hindices]⟩
  | trackers =>
    obtain ⟨row, hrow, hs⟩ := List.mem_flatMap.1 hs
    obtain ⟨hf, hindices⟩ := mem_row hs
    have hcount := hrows "trackers"
    have hsize : row < 2 ^ 64 := by
      rw [List.mem_range] at hrow
      omega
    exact ⟨hf, by rw [hindices, stars_of_pages.2.1.2 _ hf]; rfl, by simpa [hindices] using hsize⟩
  | arr =>
    obtain ⟨row, hrow, hs⟩ := List.mem_flatMap.1 hs
    have hcount := hrows "arr"
    have hsize : row < 2 ^ 64 := by
      rw [List.mem_range] at hrow
      omega
    obtain hs | hs := List.mem_append.1 hs
    · obtain ⟨hf, hindices⟩ := mem_row hs
      exact ⟨List.mem_append_left _ hf, by rw [hindices, stars_of_pages.2.2.1.2 _ hf]; rfl,
        by simpa [hindices] using hsize⟩
    · obtain ⟨hf, sub, hsub, hindices⟩ := mem_mappings hs
      have hmappings := hrows ("arr." ++ toString row ++ ".path_mappings")
      have hsub : sub < 2 ^ 64 := by omega
      exact ⟨List.mem_append_right _ hf, by rw [hindices, stars_of_pages.2.2.2.1.2 _ hf]; rfl,
        by simpa [hindices] using ⟨hsize, hsub⟩⟩

/-- What is known of a field on a page: the form finds it by its key, and the key is one of a
    field with numbers for its stars. -/
structure Places (form : SettingsForm) (e : PageField) : Prop where
  mem : e.field ∈ form.templates
  find : findField form.templates e.key = some e.field
  concrete : IsConcreteKey e.key
  plain : stripSuffix ".clear" e.key = none ∧ stripSuffix ".confirm" e.key = none

theorem places_of_shown (h : form.IsOffered) (hrows : ∀ name, doc.rowCount name < 2 ^ 64)
    {e : PageField} (he : e ∈ form.shown config doc) : form.Places e := by
  have hslot : (e.field, e.key) ∈ (form.slots doc).map fun s => (s.1, concreteKey s.1.key s.2) := by
    rw [← shown_slots form config doc]
    exact List.mem_map_of_mem he
  obtain ⟨s, hs, heq⟩ := List.mem_map.1 hslot
  obtain ⟨hfield, hkey⟩ := Prod.mk.inj heq
  obtain ⟨hmem, hlen, hsize⟩ := mem_slots h hrows hs
  have hsub := form.templates_subset
  rw [hfield] at hmem hlen hkey
  exact {
    mem := hmem
    find := hkey ▸ findField_concreteKey hsub hmem hlen hsize
    concrete := hkey ▸ isConcreteKey_concreteKey (hsub hmem) hlen hsize
    plain := hkey ▸ stripSuffix_concreteKey (hsub hmem) hlen hsize }

/-- The keys of a page are all different. -/
theorem nodup_keys_shown (h : form.IsOffered) (hrows : ∀ name, doc.rowCount name < 2 ^ 64) :
    ((form.shown config doc).map fun e => e.key).Nodup := by
  have hkeys : (form.shown config doc).map (fun e => e.key) =
      (form.slots doc).map fun s => concreteKey s.1.key s.2 := by
    have hslots := congrArg (List.map Prod.snd) (shown_slots form config doc)
    simpa only [List.map_map, Function.comp_def] using hslots
  rw [hkeys]
  refine (nodup_slots h).map_on fun s hs s' hs' heq => ?_
  obtain ⟨hmem, hlen, hsize⟩ := mem_slots h hrows hs
  obtain ⟨hmem', hlen', hsize'⟩ := mem_slots h hrows hs'
  have hsub := form.templates_subset
  have hfield : s.1 = s'.1 := by
    have hfind := findField_concreteKey hsub hmem hlen hsize
    rw [heq, findField_concreteKey hsub hmem' hlen' hsize'] at hfind
    exact (Option.some.inj hfind).symm
  refine Prod.ext hfield (concreteParts_inj hlen (hfield ▸ hlen') ?_)
  have hdotted := congrArg dotted heq
  rwa [dotted_concreteKey, dotted_concreteKey, ← hfield] at hdotted

end SettingsForm

end SeedMedic
