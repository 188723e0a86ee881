/-
  What writing and taking out one key of the settings does to what is read at it and at every
  other.
-/
import SeedMedic.Web.Settings.Drafts

namespace SeedMedic

open Lib Lib.Toml

/-- A part of a key: a number for a star, or the template's own. -/
def Numbers (template part : String) : Prop :=
  if template = "*" then ∃ i < 2 ^ 64, part = toString i else part = template

/-- A key of a field with a number for every star. -/
def IsConcreteKey (key : String) : Prop :=
  ∃ f ∈ fields, List.Forall₂ Numbers (dotted f.key) (dotted key)

variable {room : ℕ} {d d' : ConfigDocument} {key key' : String}

/-- A number as a part of a key is a row. -/
theorem segment_toString {i : ℕ} (h : i < 2 ^ 64) : segment (toString i) = .index i := by
  simp only [segment, parseUsize, fromStrRadix_toString (show i ≤ 2 ^ 64 - 1 by omega)]

theorem Numbers.suits {template part : String} (h : Numbers template part) :
    Suits template part := by
  unfold Numbers at h
  split_ifs at h with hstar
  · exact .inl hstar
  · exact .inr h.symm

theorem IsConcreteKey.isFieldKey (h : IsConcreteKey key) : IsFieldKey key := by
  obtain ⟨f, hf, hparts⟩ := h
  have hmatch := matchesTemplate_iff.2 (hparts.imp fun _ _ h => h.suits)
  have hfind : findField [f] key = some f := by simp [findField, hmatch]
  exact (isFieldKey_of_find (List.cons_subset.2 ⟨hf, List.nil_subset _⟩) hfind).1

/-- A template is made of stars and names. -/
theorem names_of_isTemplate {ts : List String} (h : isTemplate ts = true) :
    ∀ t ∈ ts, t = "*" ∨ segment t = .name t := by
  have hname : ∀ {k : String}, isName k = true → segment k = .name k := fun hk =>
    ((show Suits _ _ from .inr rfl).of_isName hk).2
  unfold isTemplate at h
  split at h
  next s k =>
    simp only [Bool.and_eq_true, decide_eq_true_eq] at h
    simp [hname h.1.1.1, hname h.1.1.2]
  next k => simp [segment_trackers, hname h]
  next k =>
    simp only [Bool.and_eq_true, decide_eq_true_eq] at h
    simp [segment_arr, hname h.1]
  next k => simp [segment_arr, segment_path_mappings, hname h]
  next => cases h

/-- A part is a name, or the text of a number. -/
theorem IsConcreteKey.part (h : IsConcreteKey key) :
    ∀ part ∈ dotted key, segment part = .name part ∨ ∃ i < 2 ^ 64, part = toString i := by
  obtain ⟨f, hf, hparts⟩ := h
  have hsound := isSound_fields f hf
  simp only [Field.isSound, Bool.and_eq_true] at hsound
  have hnames := names_of_isTemplate hsound.1.1.1
  intro part hpart
  obtain ⟨i, hi, rfl⟩ := List.getElem_of_mem hpart
  have hlt : i < (dotted f.key).length := hparts.length_eq ▸ hi
  have hnumbers : Numbers (dotted f.key)[i] (dotted key)[i] := hparts.get hlt hi
  unfold Numbers at hnumbers
  split_ifs at hnumbers with hstar
  · exact .inr hnumbers
  · rw [hnumbers]
    exact .inl ((hnames _ (List.getElem_mem hlt)).resolve_left hstar)

/-- Concrete keys are told from each other by their segments. -/
theorem IsConcreteKey.segments_inj (h : IsConcreteKey key) (h' : IsConcreteKey key')
    (hseg : segments key = segments key') : key = key' := by
  have hpart : ∀ part ∈ dotted key, ∀ part' ∈ dotted key', segment part = segment part' →
      part = part' := by
    intro part hpart part' hpart' heq
    obtain hname | ⟨i, hi, rfl⟩ := h.part part hpart <;>
      obtain hname' | ⟨j, hj, rfl⟩ := h'.part part' hpart'
    · exact Segment.name.inj (hname.symm.trans (heq.trans hname'))
    · cases hname.symm.trans (heq.trans (segment_toString hj))
    · cases (segment_toString hi).symm.trans (heq.trans hname')
    · rw [Segment.index.inj ((segment_toString hi).symm.trans (heq.trans (segment_toString hj)))]
  have hlen : (dotted key).length = (dotted key').length := by
    simpa [segments] using congrArg List.length hseg
  refine dotted_injective (List.ext_getElem hlen fun i hi hi' => ?_)
  refine hpart _ (List.getElem_mem hi) _ (List.getElem_mem hi') ?_
  simpa [segments] using List.getElem_of_eq hseg (by simpa [segments] using hi)

/-- What is read at a key is not changed by writing another. -/
theorem get_set_of_ne (hkey : IsConcreteKey key) (hkey' : IsConcreteKey key') (hne : key ≠ key')
    {value : Item} (h : d.set room key value = some d') : d'.get key' = d.get key' := by
  have hseg : segments key ≠ segments key' := fun hseg => hne (hkey.segments_inj hkey' hseg)
  have happly : applyParsed room d key (.set value) = some d' := h
  exact get_applyParsed_of_ne hkey.isFieldKey hkey'.isFieldKey hseg happly

theorem get_remove_of_ne (hkey : IsConcreteKey key) (hkey' : IsConcreteKey key') (hne : key ≠ key') :
    (d.remove key).get key' = d.get key' := by
  have hseg : segments key ≠ segments key' := fun hseg => hne (hkey.segments_inj hkey' hseg)
  have happly : applyParsed 0 d key .remove = some (d.remove key) := rfl
  exact get_applyParsed_of_ne hkey.isFieldKey hkey'.isFieldKey hseg happly

/-- A key that was not there is written and taken out again without a trace. -/
theorem get_remove_set (hkey : IsConcreteKey key) {value : Item}
    (h : d.set room key value = some d') (habsent : d.get key = none) :
    ∀ k, IsConcreteKey k → (d'.remove key).get k = d.get k := by
  intro k hk
  by_cases hne : key = k
  · rw [← hne, ConfigDocument.get_remove_self, habsent]
  · rw [get_remove_of_ne hkey hk hne, get_set_of_ne hkey hk hne h]

/-- The laws of reading and writing, for two keys of fields: what is written is read and nothing
    else changes, and a key can be written exactly where the way to it fits the document. -/
theorem edit_laws (hkey : IsConcreteKey key) (hkey' : IsConcreteKey key') (hne : key ≠ key')
    (value : Item) :
    (d.set room key value ≠ none ↔ Fits room (wayTo key) d.doc) ∧
    (∀ d', d.set room key value = some d' → d'.get key = some value ∧ d'.get key' = d.get key' ∧
      (d.get key = none → ∀ k, IsConcreteKey k → (d'.remove key).get k = d.get k)) ∧
    (d.remove key).get key' = d.get key' ∧ (d.remove key).get key = none ∧
    (d.get key = none → d.remove key = d) := by
  obtain ⟨p, hp⟩ := hkey.isFieldKey.place
  refine ⟨?_, fun d' h => ?_, get_remove_of_ne hkey hkey' hne, ConfigDocument.get_remove_self,
    ConfigDocument.remove_of_absent⟩
  · rw [wayTo_eq hp]
    exact ConfigDocument.set_ne_none_iff hp
  · exact ⟨ConfigDocument.get_set_self h, get_set_of_ne hkey hkey' hne h,
      get_remove_set hkey h⟩

theorem isConcreteKey_auth_token : IsConcreteKey "server.auth_token" := by
  have hparts : dotted "server.auth_token" = ["server", "auth_token"] := by decide +kernel
  refine ⟨field "server.auth_token" .secret, by decide +kernel, ?_⟩
  simp [field, hparts, Numbers]

theorem isConcreteKey_first_id : IsConcreteKey "trackers.0.id" := by
  have hparts : dotted "trackers.*.id" = ["trackers", "*", "id"] ∧
      dotted "trackers.0.id" = ["trackers", toString 0, "id"] := by decide +kernel
  refine ⟨field "trackers.*.id" .text, by decide +kernel, ?_⟩
  simp only [field, hparts.1, hparts.2]
  exact .cons rfl (.cons ⟨0, by decide, rfl⟩ (.cons rfl .nil))

/-- Writing the token does not name the first tracker. -/
theorem token_names_no_tracker : (oneTracker.remove "server.auth_token").get "trackers.0.id" =
    oneTracker.get "trackers.0.id" :=
  (@edit_laws 1 _ _ _ isConcreteKey_auth_token isConcreteKey_first_id (by decide)
    (.str "")).2.2.1

/-- The repeated sections of a document are arrays of tables, where it has them. -/
def RowsAreTables (t : Table) : Prop :=
  (∀ s ∈ ["trackers", "arr"], ∀ item, t.get s = some item → item.asArrayOfTables ≠ none) ∧
    ∀ row ∈ t.rows "arr", ∀ item, row.get "path_mappings" = some item →
      item.asArrayOfTables ≠ none

/-- Nothing is written into a section that is a number. -/
theorem number_for_section : ¬∀ (room : ℕ) (d : ConfigDocument) (key key' : String),
    RowsAreTables d.doc → IsConcreteKey key → IsConcreteKey key' → key ≠ key' →
      ∀ value, ∃ d', d.set room key value = some d' ∧ d'.get key = some value := by
  intro h
  have hrows : RowsAreTables (ConfigDocument.ofTree [("server", .int 5)]).doc := by
    refine ⟨fun s hs item hitem => ?_, fun row hrow => ?_⟩
    · simp only [List.mem_cons, List.not_mem_nil, or_false] at hs
      obtain rfl | rfl := hs <;> simp [ConfigDocument.ofTree, Table.get] at hitem
    · simp [ConfigDocument.ofTree, Toml.Table.rows, Toml.Table.get] at hrow
  obtain ⟨d', hset, -⟩ := h 1 _ _ _ hrows isConcreteKey_auth_token isConcreteKey_first_id
    (by decide) (.str "")
  have hpanics : ((ConfigDocument.ofTree [("server", .int 5)]).set 1 "server.auth_token"
      (.str "")).isNone = true := by decide +kernel
  rw [hset] at hpanics
  cases hpanics

end SeedMedic
