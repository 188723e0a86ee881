/-
  The keys that name the files of secrets are shown and not written: what a submission does to
  them all the same.
-/
import SeedMedic.Web.Settings.Drafts

namespace SeedMedic

open Lib Lib.Toml

/-- A key that names the file of a secret. -/
def IsSecretFileKey (key : String) : Prop :=
  ∃ f ∈ fields, f.kind = .secretFile ∧ matchesTemplate f.key key = true

theorem secretFiles_empty_means_absent :
    ∀ f ∈ fields, f.kind = .secretFile → f.key ∈ emptyMeansAbsent := by decide +kernel

variable {host : ConfigHost} {before : Config} {form : Submitted} {templates : List Field}
  {skip : String → Bool} {room : ℕ} {doc doc' : ConfigDocument} {key value : String}
  {pairs : List (String × String)} {es : List (String × Parsed)} {old : Option Item}

/-- Edits that write nothing at a key leave nothing there that was not there, and nothing at all
    where one of them takes the key out. -/
theorem leavesAt_eq_none (hes : ∀ e ∈ es, segments e.1 = segments key → e.2.writes = false)
    (h : old = none ∨ ∃ e ∈ es, segments e.1 = segments key ∧ e.2 = .remove) :
    leavesAt key es old = none := by
  induction es generalizing old with
  | nil => simpa [leavesAt] using h
  | cons e es ih =>
    have hes' : ∀ e ∈ es, segments e.1 = segments key → e.2.writes = false :=
      fun e he => hes e (List.mem_cons_of_mem _ he)
    refine ih hes' ?_
    obtain rfl | ⟨e', he', hseg, hremove⟩ := h
    · left
      split_ifs with hseg
      · have hwrites := hes e List.mem_cons_self hseg
        cases hparsed : e.2 <;> simp_all [Parsed.writes, Parsed.leaves]
      · rfl
    · obtain rfl | he' := List.mem_cons.1 he'
      · left
        rw [if_pos hseg, hremove]
        rfl
      · exact .inr ⟨e', he', hseg, hremove⟩

/-- Edits none of which changes what is at a key leave it. -/
theorem leavesAt_eq_self (h : ∀ e ∈ es, segments e.1 = segments key → e.2.leaves old = old) :
    leavesAt key es old = old := by
  induction es with
  | nil => rfl
  | cons e es ih =>
    have hes : ∀ e ∈ es, segments e.1 = segments key → e.2.leaves old = old :=
      fun e he => h e (List.mem_cons_of_mem _ he)
    have hfirst : (if segments e.1 = segments key then e.2.leaves old else old) = old := by
      split_ifs with hseg
      · exact h e List.mem_cons_self hseg
      · rfl
    rw [leavesAt, hfirst]
    exact ih hes

/-- A value for the file of a secret takes the key out where it is blank, and does nothing
    otherwise. -/
theorem judge_secretFile (ht : templates ⊆ fields) {f : Field}
    (hf : findField templates key = some f) (hkind : f.kind = .secretFile) :
    judge host before form doc f key value =
      .ok (if trim value = "" then .remove else .unchanged) := by
  have hdanger : f.danger = false := by
    cases hdanger : f.danger with
    | false => rfl
    | true => exact absurd hkind (names_of_danger ht hf hdanger).1
  have habsent := secretFiles_empty_means_absent f (ht (findField_some hf).1) hkind
  simp only [judge, hdanger, hkind, parseField, habsent]
  by_cases hblank : trim value = "" <;> simp [hblank]

theorem isFieldKey_of_secretFile (h : IsSecretFileKey key) :
    IsFieldKey key ∧ (dotted key).getLastD "" ∈ secretFileNames := by
  obtain ⟨f, hf, hkind, hmatch⟩ := h
  have hfind : findField [f] key = some f := by simp [findField, hmatch]
  obtain ⟨hkey, -, hlast⟩ := isFieldKey_of_find (List.cons_subset.2 ⟨hf, List.nil_subset _⟩) hfind
  exact ⟨hkey, hlast.1 hkind⟩

/-- A submission leaves the keys that name files of secrets as they were exactly where it has no
    blank value for one that is there. -/
theorem secretFiles_kept_iff (ht : templates ⊆ fields) {result : Except String FieldErrors}
    (h : applyPairs host room doc before templates pairs skip = some (doc', result)) :
    (∀ key, IsSecretFileKey key → doc'.get key = doc.get key) ↔
      ∀ r ∈ reached templates skip (Submitted.ofPairs pairs).values,
        r.1.kind = .secretFile → trim r.2.2 = "" → doc.get r.2.1 = none := by
  have hrun : runEdits room (submittedEdits host doc before templates pairs skip) doc = some doc' := by
    rw [← applyPairs_map ht, h]
    rfl
  have hkeys : ∀ e ∈ submittedEdits host doc before templates pairs skip, IsFieldKey e.1 :=
    isFieldKey_of_edits ht
  -- an edit at the place of such a key is one of a value for the file of a secret
  have hedit : ∀ key, IsSecretFileKey key →
      ∀ e ∈ submittedEdits host doc before templates pairs skip, segments e.1 = segments key →
        ∃ r ∈ reached templates skip (Submitted.ofPairs pairs).values, r.1.kind = .secretFile ∧
          r.2.1 = e.1 ∧ e.2 = if trim r.2.2 = "" then .remove else .unchanged := by
    intro key hkey e he hseg
    obtain ⟨hfield, hlast⟩ := isFieldKey_of_secretFile hkey
    obtain ⟨r, hr, hedit⟩ := List.mem_filterMap.1 he
    obtain ⟨hf, -, -⟩ := findField_of_reached hr
    obtain ⟨parsed, hparsed, rfl⟩ := Option.map_eq_some_iff.1 hedit
    obtain ⟨hfield', -, hkind⟩ := isFieldKey_of_find ht hf
    have hsecret : r.1.kind = .secretFile := hkind.2 (by rwa [hfield'.last_eq hfield hseg])
    rw [judge_secretFile ht hf hsecret] at hparsed
    exact ⟨r, hr, hsecret, rfl, (Option.some.inj hparsed).symm⟩
  constructor
  · intro hkept r hr hkind hblank
    obtain ⟨hf, -, -⟩ := findField_of_reached hr
    have hkey : IsSecretFileKey r.2.1 := ⟨r.1, ht (findField_some hf).1, hkind,
      matchesTemplate_iff.2 (findField_some hf).2⟩
    rw [← hkept _ hkey, get_runEdits hkeys (isFieldKey_of_secretFile hkey).1 hrun]
    refine leavesAt_eq_none (fun e he hseg => ?_) (.inr ⟨(r.2.1, .remove), ?_, rfl, rfl⟩)
    · obtain ⟨r', -, -, -, hparsed⟩ := hedit _ hkey e he hseg
      rw [hparsed]
      split_ifs <;> rfl
    · refine List.mem_filterMap.2 ⟨r, hr, ?_⟩
      simp [editOf, judge_secretFile ht hf hkind, hblank, Except.toOption]
  · intro hnone key hkey
    rw [get_runEdits hkeys (isFieldKey_of_secretFile hkey).1 hrun]
    refine leavesAt_eq_self fun e he hseg => ?_
    obtain ⟨r, hr, hkind, hkey', hparsed⟩ := hedit key hkey e he hseg
    rw [hparsed]
    split_ifs with hblank
    · have habsent := hnone r hr hkind hblank
      rw [hkey', get_congr hseg] at habsent
      rw [habsent]
      rfl
    · rfl

/-- The document of a file whose token is kept in a file of its own. -/
def tokenFile : ConfigDocument :=
  .ofTree [("server", .table [("auth_token_file", .str "/run/secrets/token")])]

/-- Another file for the token is not written. -/
theorem token_file_kept : ∃ doc' result, applyPairs .plain 0 tokenFile .default fields
    [("server.auth_token_file", "/etc/shadow")] (fun _ => false) = some (doc', result) ∧
      ∀ key, IsSecretFileKey key → doc'.get key = tokenFile.get key := by
  obtain ⟨⟨doc', result⟩, h⟩ := Option.isSome_iff_exists.1
    (show (applyPairs .plain 0 tokenFile .default fields
      [("server.auth_token_file", "/etc/shadow")] fun _ => false).isSome = true by decide +kernel)
  have hvalue : ∀ r ∈ reached fields (fun _ => false) (Submitted.ofPairs
      [("server.auth_token_file", "/etc/shadow")]).values, trim r.2.2 ≠ "" := by decide +kernel
  exact ⟨doc', result, h, (secretFiles_kept_iff (List.Subset.refl fields) h).2
    fun r hr _ hblank => absurd hblank (hvalue r hr)⟩

/-- A blank value takes the file of the token out, and with it the token. -/
theorem token_file_removed : ¬∀ (host : ConfigHost) (room : ℕ) (doc doc' : ConfigDocument)
    (before : Config) (templates : List Field) (pairs : List (String × String))
    (skip : String → Bool) (result : Except String FieldErrors), templates ⊆ fields →
      applyPairs host room doc before templates pairs skip = some (doc', result) →
        ∀ key, IsSecretFileKey key → doc'.get key = doc.get key := by
  intro h
  have hremoved : (applyPairs .plain 0 tokenFile .default (fieldsFor ["server.", "database."])
      [("server.auth_token_file", "")] fun _ => false).map
        (fun r => (r.1.get "server.auth_token_file").isSome) = some false := by decide +kernel
  obtain ⟨⟨doc', result⟩, hrun, hget⟩ := Option.map_eq_some_iff.1 hremoved
  have hkey : IsSecretFileKey "server.auth_token_file" :=
    ⟨field "server.auth_token_file" .secretFile, by decide +kernel⟩
  have hkept := h .plain 0 tokenFile doc' .default _ _ _ result (fieldsFor_subset _) hrun _ hkey
  rw [hkept] at hget
  exact absurd hget (by decide +kernel)

end SeedMedic
