/-
  The settings pages' forms: which fields a form has, which of its new rows are left out, and the
  draft that is saved (`web/settings/save.rs`, `web/settings/mod.rs`).
-/
import SeedMedic.Web.Settings.Drafts

namespace SeedMedic

open Lib Lib.Toml

/-! ## Rows -/

/-- The row a key is in: the section, and the number of the row. -/
def rowScope (key : String) : Option (String × ℕ) :=
  (rsplitOnce '.' key.toList).bind fun ⟨rowPath, _⟩ =>
    let ⟨front, index⟩ := (rsplitOnce '.' rowPath).getD ([], rowPath)
    (parseUsize (String.ofList index)).map fun i =>
      (String.ofList (front.reverse.dropWhile fun c => c = '.').reverse, i)

def inSkippedRow (key rows : String) (skip : List ℕ) : Bool :=
  match rowScope key with
  | some (front, index) => front = rows && index ∈ skip
  | none => false

/-- Whether something was typed in that says a new row is meant. -/
def isMeaningful (kind : Kind) (value : String) : Bool :=
  match kind with
  | .bool | .choice _ | .secretFile => false
  | _ => trim value ≠ ""

/-- The new rows of a section that nothing was typed into. -/
def gateNewRows (rows : String) (existing : ℕ) (templates : List Field)
    (pairs : List (String × String)) : List ℕ :=
  let typed := pairs.filterMap fun p =>
    (rowScope p.1).bind fun ⟨front, index⟩ =>
      if front ≠ rows ∨ index < existing then none
      else (findField templates p.1).map fun f => (index, isMeaningful f.kind p.2)
  (typed.map (·.1)).dedup.filter fun index => !typed.any fun e => e.1 = index && e.2

/-! ## Forms -/

/-- A page of settings that has no rows. -/
structure Page where
  slug : String
  prefixes : List String

def PAGES : List Page :=
  [⟨"server", ["server.", "database."]⟩, ⟨"staging", ["staging."]⟩, ⟨"library", ["library."]⟩,
    ⟨"policy", ["policy."]⟩, ⟨"worker", ["worker."]⟩, ⟨"download-client", ["download_client."]⟩,
    ⟨"integrations", ["metrics.", "notifications."]⟩]

def trackerRowFields : List Field := fieldsFor ["trackers.*"]

def arrRowFields : List Field :=
  (fieldsFor ["arr.*"]).filter fun f =>
    !f.key.toList.tails.any fun rest => "path_mappings".toList.isPrefixOf rest

def mappingRowFields : List Field := fieldsFor ["arr.*.path_mappings.*"]

/-- A form that is submitted to be saved. -/
inductive SettingsForm where
  | simple (page : Page)
  | trackers
  | arr

namespace SettingsForm

def templates : SettingsForm → List Field
  | simple page => fieldsFor page.prefixes
  | trackers => trackerRowFields
  | arr => arrRowFields ++ mappingRowFields

/-- The rows of `arr` that a key is a path mapping of. -/
def rowWithMappings (key : String) : Option ℕ :=
  match dotted key with
  | "arr" :: index :: "path_mappings" :: _ :: _ => parseUsize index
  | _ => none

/-- What the form leaves out of its pairs. -/
def skip (doc : ConfigDocument) (pairs : List (String × String)) : SettingsForm → String → Bool
  | simple _, _ => false
  | trackers, key =>
    inSkippedRow key "trackers"
      (gateNewRows "trackers" (doc.rowCount "trackers") trackerRowFields pairs)
  | arr, key =>
    inSkippedRow key "arr"
        (gateNewRows "arr" (doc.rowCount "arr") (arrRowFields ++ mappingRowFields) pairs) ||
      (pairs.filterMap fun p => rowWithMappings p.1).any fun row =>
        let mappings := "arr." ++ toString row ++ ".path_mappings"
        inSkippedRow key mappings
          (gateNewRows mappings (doc.rowCount mappings) mappingRowFields pairs)

end SettingsForm

/-- Why a submission is not saved. -/
inductive Unsaved where
  | refused (message : String)
  /-- Messages by the key they are about, and those about none. -/
  | invalid (errors : FieldErrors) (general : List String)

/-- The configuration of a draft, where nothing is wrong with it. -/
def validateDraft (host : ConfigHost) (syn : TomlSyntax) (draft : ConfigDocument) :
    Except Unsaved Config :=
  match draft.toConfig syn host with
  | .error e => .error (.invalid [] [e.toText])
  | .ok config =>
    let errors := (config.problems host ++ config.problemsOnDisk host).filter fun p =>
      p.severity = .error
    if errors = [] then .ok config
    else
      .error (.invalid
        (errors.foldl (fun es p =>
          match p.key with
          | some key => FieldErrors.insert key p.message es
          | none => es) [])
        ((errors.filter fun p => p.key = none).map (·.message)))

/-- The configuration a document is before a submission: the defaults where it is none. -/
def configBefore (host : ConfigHost) (syn : TomlSyntax) (doc : ConfigDocument) : Config :=
  match doc.toConfig syn host with
  | .ok config => config
  | .error _ => .default

/-- What is saved of a submission, and the configuration that it is; none where the code
    panics. -/
def submitSettings (host : ConfigHost) (syn : TomlSyntax) (room : ℕ) (form : SettingsForm)
    (doc : ConfigDocument) (pairs : List (String × String)) :
    Option (Except Unsaved (ConfigDocument × Config)) :=
  if !doc.writable then
    some (.error (.refused (doc.path.toStringLossy ++ " is not writable, so nothing here can be " ++
      "saved. Fix the file or directory permissions, or the mount it lives on.")))
  else
    (applyPairs host room doc (configBefore host syn doc) form.templates pairs
        (form.skip doc pairs)).map fun ⟨draft, result⟩ =>
      match result with
      | .error message => .error (.refused message)
      | .ok errors =>
        if errors ≠ [] then .error (.invalid errors [])
        else (validateDraft host syn draft).map fun config => (draft, config)

theorem SettingsForm.templates_subset (form : SettingsForm) : form.templates ⊆ fields := by
  cases form with
  | simple page => exact fieldsFor_subset _
  | trackers => exact fieldsFor_subset _
  | arr =>
    refine List.append_subset.2 ⟨fun f hf => ?_, fieldsFor_subset _⟩
    exact fieldsFor_subset _ (List.mem_filter.1 hf).1

/-- The edits of a submission. -/
def SettingsForm.edits (form : SettingsForm) (host : ConfigHost) (syn : TomlSyntax)
    (doc : ConfigDocument) (pairs : List (String × String)) : List (String × Parsed) :=
  submittedEdits host doc (configBefore host syn doc) form.templates pairs (form.skip doc pairs)

variable {host : ConfigHost} {syn : TomlSyntax} {room : ℕ} {form : SettingsForm}
  {doc draft : ConfigDocument} {pairs : List (String × String)} {config : Config}

/-- What is saved is what the edits make of the document, and its configuration. -/
theorem submitSettings_saved
    (h : submitSettings host syn room form doc pairs = some (.ok (draft, config))) :
    runEdits room (form.edits host syn doc pairs) doc = some draft ∧
      draft.toConfig syn host = .ok config := by
  unfold submitSettings at h
  split_ifs at h
  · cases h
  · obtain ⟨⟨draft', result⟩, happly, h⟩ := Option.map_eq_some_iff.1 h
    have hrun : runEdits room (form.edits host syn doc pairs) doc = some draft' := by
      rw [SettingsForm.edits, ← applyPairs_map form.templates_subset, happly]
      rfl
    cases result with
    | error message => cases h
    | ok errors =>
      dsimp only at h
      split_ifs at h with herrors
      obtain ⟨config', hvalid, h⟩ : ∃ config', validateDraft host syn draft' = .ok config' ∧
          (draft', config') = (draft, config) := by
        cases hvalid : validateDraft host syn draft' with
        | error e => simp [hvalid, Except.map] at h
        | ok config' => exact ⟨config', rfl, by simpa [hvalid, Except.map] using h⟩
      cases h
      refine ⟨hrun, ?_⟩
      unfold validateDraft at hvalid
      cases hconfig : draft.toConfig syn host with
      | error e => simp [hconfig] at hvalid
      | ok c =>
        simp only [hconfig] at hvalid
        split_ifs at hvalid
        cases hvalid
        rfl

end SeedMedic
