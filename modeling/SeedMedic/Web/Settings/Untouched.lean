/-
  The settings pages submitted as they were shown.
-/
import SeedMedic.Web.Settings.ComesBack
import SeedMedic.Web.Settings.PageKeys

namespace SeedMedic

open Lib Lib.Toml Lib.Form

/-! ## Pages that nobody touched -/

/-- What a browser submits of a page of the document that nobody has typed into. -/
def SettingsForm.untouched (host : ConfigHost) (syn : TomlSyntax) (metrics : Bool)
    (doc : ConfigDocument) (form : SettingsForm) : List (String × String) :=
  submission (form.page host syn metrics doc .new)

section
variable {host : ConfigHost} {syn : TomlSyntax} {metrics : Bool} {room : ℕ} {form : SettingsForm}
  {doc : ConfigDocument} {config : Config}

/-- The values that are submitted of a page, each at its key. -/
def SettingsForm.sent (host : ConfigHost) (syn : TomlSyntax) (metrics : Bool)
    (doc : ConfigDocument) (form : SettingsForm) : List (String × String) :=
  (form.shown (configBefore host syn doc) doc).filterMap fun e =>
    (sentValues doc .new metrics e).getLast?.map fun value => (e.key, value)

theorem SettingsForm.mem_sent {p : String × String} : p ∈ form.sent host syn metrics doc ↔
    ∃ e ∈ form.shown (configBefore host syn doc) doc,
      p.1 = e.key ∧ (sentValues doc .new metrics e).getLast? = some p.2 := by
  constructor
  · intro h
    obtain ⟨e, he, hp⟩ := List.mem_filterMap.1 h
    obtain ⟨value, hvalue, rfl⟩ := Option.map_eq_some_iff.1 hp
    exact ⟨e, he, rfl, hvalue⟩
  · rintro ⟨e, he, hkey, hvalue⟩
    refine List.mem_filterMap.2 ⟨e, he, ?_⟩
    rw [hvalue, ← hkey]
    rfl

/-- The untouched page is one value for each field that is submitted, with nothing to clear and
    nothing confirmed. -/
theorem ofPairs_untouched (hoffered : form.IsOffered)
    (hrows : ∀ name, doc.rowCount name < 2 ^ 64) :
    Submitted.ofPairs (form.untouched host syn metrics doc) =
      ⟨[], [], form.sent host syn metrics doc⟩ := by
  have hpairs : form.untouched host syn metrics doc =
      (form.shown (configBefore host syn doc) doc).flatMap fun e =>
        (sentValues doc .new metrics e).map fun value => (e.key, value) := by
    simp only [SettingsForm.untouched, SettingsForm.page, submission, List.filterMap_flatMap,
      List.map_flatMap]
    exact List.flatMap_congr fun e _ => submission_fieldRow
  have hleft : lastValueWins (form.untouched host syn metrics doc) =
      form.sent host syn metrics doc := by
    rw [hpairs]
    exact lastValueWins_groups _ (form.nodup_keys_shown hoffered hrows)
  rw [← hleft]
  refine ofPairs_eq fun p hp => ?_
  rw [hleft] at hp
  obtain ⟨e, he, hkey, -⟩ := SettingsForm.mem_sent.1 hp
  exact hkey ▸ (form.places_of_shown hoffered hrows he).plain

/-- An untouched page leaves the document as it is exactly where every field that is not left out
    comes back as the document has it. -/
theorem applyPairs_untouched (hoffered : form.IsOffered)
    (hrows : ∀ name, doc.rowCount name < 2 ^ 64) (skip : String → Bool) :
    applyPairs host room doc (configBefore host syn doc) form.templates
        (form.untouched host syn metrics doc) skip = some (doc, .ok []) ↔
      ∀ e ∈ form.shown (configBefore host syn doc) doc, skip e.key = false →
        ComesBack host doc e.field e.key := by
  have hplaces {e : PageField} (he : e ∈ form.shown (configBefore host syn doc) doc) :
      form.Places e := form.places_of_shown hoffered hrows he
  have hnodup : ((form.sent host syn metrics doc).map (·.1)).Nodup := by
    have hvalues := nodup_values_ofPairs (form.untouched host syn metrics doc)
    rwa [ofPairs_untouched hoffered hrows] at hvalues
  have hconcrete : ∀ key ∈ (form.sent host syn metrics doc).map (·.1), IsConcreteKey key := by
    intro key hkey
    obtain ⟨p, hp, rfl⟩ := List.mem_map.1 hkey
    obtain ⟨e, he, hkey, -⟩ := SettingsForm.mem_sent.1 hp
    exact hkey ▸ (hplaces he).concrete
  have hfind : ∀ p ∈ form.sent host syn metrics doc, findField form.templates p.1 ≠ none := by
    intro p hp
    obtain ⟨e, he, hkey, -⟩ := SettingsForm.mem_sent.1 hp
    rw [hkey, (hplaces he).find]
    exact Option.some_ne_none _
  simp only [applyPairs, ofPairs_untouched hoffered hrows]
  rw [applyValues_unchanged_iff form.templates_subset hnodup
    (fun key hkey key' hkey' => (hconcrete key hkey).segments_inj (hconcrete key' hkey')) hfind]
  constructor
  · intro h e he hskip
    have hleaves : ∀ value, (sentValues doc .new metrics e).getLast? = some value →
        LeavesAsIs host (configBefore host syn doc) ⟨[], [], form.sent host syn metrics doc⟩ doc
          e.field e.key value := by
      intro value hvalue
      have hmem : (e.key, value) ∈ form.sent host syn metrics doc :=
        SettingsForm.mem_sent.2 ⟨e, he, rfl, hvalue⟩
      exact h _ hmem hskip e.field (hplaces he).find
    exact (leavesAsIs_sent_iff (form.templates_subset (hplaces he).mem)).1 hleaves
  · intro h p hp hskip f hf
    obtain ⟨e, he, hkey, hvalue⟩ := SettingsForm.mem_sent.1 hp
    rw [hkey] at hskip hf ⊢
    obtain rfl : e.field = f := Option.some.inj ((hplaces he).find.symm.trans hf)
    exact (leavesAsIs_sent_iff (form.templates_subset (hplaces he).mem)).2 (h e he hskip) _ hvalue

end

/-! ## A page of one field -/

/-- The document of a library at one place. -/
def libraryDoc : ConfigDocument := .ofTree [("library", .table [("roots", .array [.str "/media"])])]

def libraryDocSyntax : TomlSyntax :=
  .known [("[library]\nroots = [\"/media\"]\n", libraryDoc.doc)] fun _ =>
    "[library]\nroots = [\"/media\"]\n"

end SeedMedic
