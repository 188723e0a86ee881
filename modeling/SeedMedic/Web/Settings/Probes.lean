/-
  Connection tests (`web/settings/mod.rs`): a draft is made of what was submitted, and one of its
  connections is tried; which secret is sent with it.
-/
import SeedMedic.Web.Settings.ComesBack
import SeedMedic.Web.Settings.ManagedSecrets
import SeedMedic.Web.Settings.PageKeys

namespace SeedMedic

open Lib Lib.Toml

/-! ## Tests -/

/-- The buttons that test a connection. -/
inductive Probe where
  | downloadClient
  | tracker (index : Fin (2 ^ 64))
  | arr (index : Fin (2 ^ 64))

/-- What a connection is tried with. -/
inductive ProbeTarget where
  | downloadClient (c : DownloadClientConfig)
  | tracker (t : TrackerConfig)
  | arr (a : ArrConfig)

def ProbeTarget.secret : ProbeTarget → Secret
  | .downloadClient c => c.password
  | .tracker t => t.apiKey
  | .arr a => a.apiKey

/-- What comes of a test. -/
inductive Tested where
  | refused (message : String)
  | notFound
  /-- The page again, with messages by the key they are about and those about none. -/
  | shown (errors : FieldErrors) (general : List String)
  /-- The page again, with what comes of trying the connection. -/
  | probes (target : ProbeTarget)

def submittedSecretIsEmpty (overrides : Overrides) (key : String) : Bool :=
  (overrides key).all fun value => value = ""

namespace Probe

def form : Probe → SettingsForm
  | downloadClient => .simple ⟨"download-client", ["download_client."]⟩
  | tracker _ => .trackers
  | arr _ => .arr

def secretKey : Probe → String
  | downloadClient => "download_client.password"
  | tracker index => "trackers." ++ toString index.val ++ ".api_key"
  | arr index => "arr." ++ toString index.val ++ ".api_key"

def target (config : Config) : Probe → Option ProbeTarget
  | downloadClient => config.downloadClient.map .downloadClient
  | tracker index => (config.trackers[index.val]?).map .tracker
  | arr index => (config.arr[index.val]?).map .arr

/-- What is answered where there is no such connection. -/
def missing : Probe → Tested
  | downloadClient => .shown [] ["Configure a download client before testing it."]
  | tracker _ | arr _ => .notFound

def secretAsked : Probe → String
  | downloadClient => "Enter the password to test this connection."
  | tracker _ | arr _ => "Enter the API key to test this connection."

end Probe

section
variable (host : ConfigHost) (syn : TomlSyntax) (room : ℕ) (doc : ConfigDocument)
  (pairs : List (String × String))

/-- What a test does; none where the code panics. -/
def testConnection (probe : Probe) : Option Tested :=
  (applyPairs host room doc (configBefore host syn doc) probe.form.templates pairs
      (probe.form.skip doc pairs)).map fun ⟨draft, result⟩ =>
    match result with
    | .error message => .refused message
    | .ok errors =>
      if errors ≠ [] then .shown errors []
      else
        match validateDraft host syn draft with
        | .error (.refused message) => .refused message
        | .error (.invalid errors general) => .shown errors general
        | .ok config =>
          match probe.target config with
          | none => probe.missing
          | some target =>
            if submittedSecretIsEmpty (.collect pairs) probe.secretKey then
              .shown [] [probe.secretAsked]
            else .probes target

def downloadClientTest : Option Tested := testConnection host syn room doc pairs .downloadClient

def trackersTest (index : Fin (2 ^ 64)) : Option Tested :=
  testConnection host syn room doc pairs (.tracker index)

def arrTest (index : Fin (2 ^ 64)) : Option Tested :=
  testConnection host syn room doc pairs (.arr index)

end

/-! ## Drafts -/

section
variable {host : ConfigHost} {syn : TomlSyntax} {room : ℕ} {form : SettingsForm}
  {doc draft : ConfigDocument} {pairs : List (String × String)} {config : Config}

theorem toConfig_of_validateDraft (h : validateDraft host syn draft = .ok config) :
    draft.toConfig syn host = .ok config := by
  unfold validateDraft at h
  cases hconfig : draft.toConfig syn host with
  | error e => simp [hconfig] at h
  | ok c =>
    simp only [hconfig] at h
    split_ifs at h
    cases h
    rfl

/-- What a draft says when the text of it reads back. -/
theorem decode_of_toConfig (h : draft.toConfig syn host = .ok config)
    (hwritten : ∃ t, syn.parse (draft.toText syn) = .ok t ∧
      Config.decode host t = Config.decode host draft.doc) :
    ∃ c, Config.decode host draft.doc = some c ∧ c.resolveSecrets host = .ok config := by
  obtain ⟨t, hparse, hsame⟩ := hwritten
  rw [ConfigDocument.toConfig, Config.ofText, hparse] at h
  dsimp only at h
  rw [hsame] at h
  cases hdecode : Config.decode host draft.doc with
  | none => simp [hdecode] at h
  | some c => exact ⟨c, rfl, by simpa [hdecode] using h⟩

theorem runEdits_of_applyPairs {result : Except String FieldErrors}
    (h : applyPairs host room doc (configBefore host syn doc) form.templates pairs
      (form.skip doc pairs) = some (draft, result)) :
    runEdits room (form.edits host syn doc pairs) doc = some draft := by
  rw [SettingsForm.edits, ← applyPairs_map form.templates_subset, h]
  rfl

end

section
variable {host : ConfigHost} {before : Config} {form : Submitted} {templates : List Field}
  {skip : String → Bool} {room : ℕ} {doc doc' : ConfigDocument} {key key' value : String}
  {values : List (String × String)} {pairs : List (String × String)} {f : Field}

/-- Where no key is refused, every value that is not left out is looked at. -/
theorem reached_of_applyValues {errors errors' : FieldErrors}
    (h : applyValues host before form room templates skip values doc errors =
      some (doc', .ok errors')) {p : String × String} (hp : p ∈ values)
    (hskip : skip p.1 = false) : ∃ f, (f, p.1, p.2) ∈ reached templates skip values := by
  induction values generalizing doc errors with
  | nil => cases hp
  | cons q values ih =>
    cases hq : skip q.1 with
    | true =>
      have hne : p ≠ q := by
        rintro rfl
        simp [hq] at hskip
      obtain ⟨f, hf⟩ := ih (by simpa [applyValues, hq] using h)
        ((List.mem_cons.1 hp).resolve_left hne)
      exact ⟨f, by simpa [reached, hq] using hf⟩
    | false =>
      cases hfind : findField templates q.1 with
      | none => simp [applyValues, hq, hfind] at h
      | some g =>
        have hreached : reached templates skip (q :: values) =
            (g, q.1, q.2) :: reached templates skip values := by simp [reached, hq, hfind]
        rw [hreached]
        obtain rfl | hp := List.mem_cons.1 hp
        · exact ⟨g, List.mem_cons_self⟩
        · cases hjudge : judge host before form doc g q.1 q.2 with
          | error message =>
            obtain ⟨f, hf⟩ := ih (by simpa [applyValues, hq, hfind, hjudge] using h) hp
            exact ⟨f, List.mem_cons_of_mem _ hf⟩
          | ok parsed =>
            simp only [applyValues, hq, Bool.false_eq_true, if_false, hfind, hjudge] at h
            obtain ⟨doc₁, -, h⟩ := Option.bind_eq_some_iff.1 h
            obtain ⟨f, hf⟩ := ih h hp
            exact ⟨f, List.mem_cons_of_mem _ hf⟩

/-- What a value for a secret says to do. -/
theorem judge_secret (hf : f ∈ fields) (hkind : f.kind = .secret) :
    judge host before form doc f key value = .ok
      (if (currentSecretSource before key).isManaged then .unchanged
      else if key ∈ form.clears then .remove
      else if value = "" then .unchanged
      else .set (.str value)) := by
  have hshown := isShown_fields f hf
  simp only [Field.isShown, hkind, Bool.and_eq_true, Bool.not_eq_true', decide_eq_true_eq]
    at hshown
  cases hmanaged : (currentSecretSource before key).isManaged with
  | true => simp [judge, hshown.1, hkind, hmanaged]
  | false =>
    simp only [judge, hshown.1, hkind, hmanaged, parseField, hshown.2]
    split_ifs <;> simp_all

/-- The last value of a key is what is left of it. -/
theorem collect_eq_some (h : Overrides.collect pairs key = some value) :
    (key, value) ∈ lastValueWins pairs := by
  induction pairs using List.reverseRecOn with
  | nil => cases h
  | append_singleton pairs p ih =>
    rw [Overrides.collect, List.reverse_append, List.reverse_singleton,
      List.singleton_append] at h
    rw [lastValueWins_concat]
    by_cases hp : p.1 = key
    · have hvalue : p = (key, value) := by
        rw [List.find?_cons_of_pos (by simpa using hp), Option.map_some] at h
        exact Prod.ext hp (Option.some.inj h)
      subst hvalue
      split_ifs with hmem
      · obtain ⟨q, hq, hkey⟩ := List.mem_map.1 hmem
        exact List.mem_map.2 ⟨q, hq, if_pos hkey⟩
      · exact List.mem_append_right _ (List.mem_singleton_self _)
    · rw [List.find?_cons_of_neg (by simpa using hp)] at h
      have hleft := ih h
      split_ifs
      · exact List.mem_map.2 ⟨_, hleft, if_neg (Ne.symm hp)⟩
      · exact List.mem_append_left _ hleft

/-- A value at a key that is not to clear or confirm another is one of the values. -/
theorem mem_values_ofPairs (h : (key, value) ∈ lastValueWins pairs)
    (hclear : stripSuffix ".clear" key = none) (hconfirm : stripSuffix ".confirm" key = none) :
    (key, value) ∈ (Submitted.ofPairs pairs).values := by
  unfold Submitted.ofPairs
  generalize lastValueWins pairs = ps at h ⊢
  induction ps with
  | nil => cases h
  | cons p ps ih =>
    rw [List.foldr_cons]
    obtain rfl | h := List.mem_cons.1 h
    · simp [hclear, hconfirm]
    · have ih := ih h
      split
      · split_ifs <;> exact ih
      · split
        · split_ifs <;> exact ih
        · exact List.mem_cons_of_mem _ ih

end

/-! ## The keys of the secrets -/

namespace Probe

/-- The field of the secret, and the numbers that stand for its stars. -/
def secretField : Probe → Field
  | downloadClient => field "download_client.password" .secret
  | tracker _ => field "trackers.*.api_key" .secret
  | arr _ => field "arr.*.api_key" .secret

def indices : Probe → List ℕ
  | downloadClient => []
  | tracker index | arr index => [index.val]

theorem secretField_mem (probe : Probe) : probe.secretField ∈ probe.form.templates ∧
    probe.secretField.kind = .secret ∧ probe.indices.length = probe.secretField.stars ∧
      ∀ i ∈ probe.indices, i < 2 ^ 64 := by
  have htable : field "download_client.password" .secret ∈ fieldsFor ["download_client."] ∧
      field "trackers.*.api_key" .secret ∈ trackerRowFields ∧
      field "arr.*.api_key" .secret ∈ arrRowFields ∧
      (field "download_client.password" .secret).stars = 0 ∧
      (field "trackers.*.api_key" .secret).stars = 1 ∧
      (field "arr.*.api_key" .secret).stars = 1 := by
    decide +kernel
  obtain ⟨hclient, htracker, harr, hclient', htracker', harr'⟩ := htable
  cases probe with
  | downloadClient => exact ⟨hclient, rfl, hclient'.symm, by simp [indices]⟩
  | tracker index => exact ⟨htracker, rfl, htracker'.symm, by simp [indices]⟩
  | arr index => exact ⟨List.mem_append_left _ harr, rfl, harr'.symm, by simp [indices]⟩

/-- The parts of the key of the secret. -/
def secretParts : Probe → List String
  | downloadClient => ["download_client", "password"]
  | tracker index => ["trackers", toString index.val, "api_key"]
  | arr index => ["arr", toString index.val, "api_key"]

theorem concreteParts_secretField (probe : Probe) :
    concreteParts (dotted probe.secretField.key) probe.indices = probe.secretParts := by
  have htable : dotted "download_client.password" = ["download_client", "password"] ∧
      dotted "trackers.*.api_key" = ["trackers", "*", "api_key"] ∧
      dotted "arr.*.api_key" = ["arr", "*", "api_key"] := by
    decide +kernel
  obtain ⟨hclient, htracker, harr⟩ := htable
  cases probe with
  | downloadClient => exact (congrArg (concreteParts · []) hclient).trans (concreteParts_nil _)
  | tracker index =>
    exact (congrArg (concreteParts · [index.val]) htracker).trans (by simp [concreteParts, secretParts])
  | arr index =>
    exact (congrArg (concreteParts · [index.val]) harr).trans (by simp [concreteParts, secretParts])

theorem secretKey_eq (probe : Probe) :
    probe.secretKey = concreteKey probe.secretField.key probe.indices := by
  rw [concreteKey, concreteParts_secretField]
  refine String.toList_inj.1 ?_
  cases probe <;> simp [secretKey, secretParts, undotted, List.intercalate]

theorem dotted_secretKey (probe : Probe) : dotted probe.secretKey = probe.secretParts := by
  rw [secretKey_eq, dotted_concreteKey, concreteParts_secretField]

theorem secretParts_probe (probe : Probe) : SecretParts (dotted probe.secretKey) := by
  rw [dotted_secretKey]
  cases probe with
  | downloadClient => exact .inr (.inl rfl)
  | tracker index => exact .inr (.inr ⟨_, not_dot_toString _, .inl rfl⟩)
  | arr index => exact .inr (.inr ⟨_, not_dot_toString _, .inr rfl⟩)

theorem find_secretKey (probe : Probe) :
    findField probe.form.templates probe.secretKey = some probe.secretField := by
  obtain ⟨hmem, -, hlen, hsize⟩ := probe.secretField_mem
  rw [secretKey_eq]
  exact findField_concreteKey probe.form.templates_subset hmem hlen hsize

end Probe

/-! ## Secrets in a draft -/

section
variable {host : ConfigHost} {syn : TomlSyntax} {room : ℕ} {form : SettingsForm}
  {doc draft : ConfigDocument} {pairs : List (String × String)} {before config c : Config}
  {key key' v : String} {es : List (String × Parsed)} {old : Option Item} {probe : Probe}
  {target : ProbeTarget}

/-- A row is read by its number alone. -/
theorem parseUsize_congr {x y : String} (h : segment x = segment y) :
    parseUsize x = parseUsize y := by
  unfold segment at h
  cases hx : parseUsize x <;> cases hy : parseUsize y <;> simp_all

/-- Keys of one place are the keys of one secret. -/
theorem currentSecretSource_congr (hkey : SecretParts (dotted key))
    (hkey' : SecretParts (dotted key')) (h : segments key = segments key') :
    currentSecretSource before key = currentSecretSource before key' := by
  have hn := secretNames_segments
  have htrackers := segment_trackers
  have harr := segment_arr
  unfold segments at h
  unfold currentSecretSource
  generalize dotted key = ps at hkey h
  generalize dotted key' = ps' at hkey' h
  obtain rfl | rfl | ⟨x, -, rfl | rfl⟩ := hkey <;>
    obtain rfl | rfl | ⟨x', -, rfl | rfl⟩ := hkey' <;>
    simp [hn.server, hn.downloadClient, htrackers, harr] at h ⊢
  · rw [parseUsize_congr h]
  · rw [parseUsize_congr h]

/-- The last edit that says something at a key decides what is left there. -/
theorem leavesAt_cases (key : String) (es : List (String × Parsed)) (old : Option Item) :
    (∃ e ∈ es, segments e.1 = segments key ∧ e.2 ≠ .unchanged ∧
      leavesAt key es old = e.2.leaves none) ∨
    (∀ e ∈ es, segments e.1 = segments key → e.2 = .unchanged) ∧ leavesAt key es old = old := by
  induction es generalizing old with
  | nil => exact .inr ⟨fun e he => (by cases he), rfl⟩
  | cons e es ih =>
    obtain ⟨e', he', hseg, hsays, hleaves⟩ | ⟨hall, hleaves⟩ :=
      ih (if segments e.1 = segments key then e.2.leaves old else old)
    · exact .inl ⟨e', List.mem_cons_of_mem _ he', hseg, hsays, hleaves⟩
    · by_cases hseg : segments e.1 = segments key
      · rw [if_pos hseg] at hleaves
        by_cases hsays : e.2 = .unchanged
        · refine .inr ⟨List.forall_mem_cons.2 ⟨fun _ => hsays, hall⟩, ?_⟩
          rw [leavesAt, if_pos hseg, hleaves, hsays]
          rfl
        · refine .inl ⟨e, List.mem_cons_self, hseg, hsays, ?_⟩
          rw [leavesAt, if_pos hseg, hleaves]
          cases hparsed : e.2 <;> simp_all [Parsed.leaves]
      · rw [if_neg hseg] at hleaves
        refine .inr ⟨List.forall_mem_cons.2 ⟨fun h => absurd h hseg, hall⟩, ?_⟩
        rw [leavesAt, if_neg hseg, hleaves]

/-- A secret that a table says itself is resolved to what it says, where it is not kept
    elsewhere. -/
theorem eq_new_iff_unmanaged {t : Table} {k var : String} {inline secret : Secret}
    {file : Option PathBuf} (hsecret : orDefault decSecret .default t k = some inline)
    (hget : t.get k = some (.str v)) (h : resolveSecret host inline file var = .ok secret) :
    secret = .new v ↔ secret.source.isManaged = false := by
  have hinline : inline = .new v := by
    simpa [orDefault, hget, decSecret, Item.asStr, eq_comm] using hsecret
  have hsource : inline.source.isManaged = false := by
    rw [hinline, Secret.new]
    split_ifs <;> rfl
  constructor
  · rintro rfl
    rwa [← hinline]
  · intro hsecret
    obtain ⟨henv, rfl⟩ := (isManaged_resolveSecret h hsource).1 hsecret
    rw [resolveSecret, henv] at h
    rw [← hinline]
    exact (Except.ok.inj h).symm

theorem parseUsize_toString {i : ℕ} (h : i < 2 ^ 64) : parseUsize (toString i) = some i :=
  fromStrRadix_toString (by omega)

/-- The secret that a connection is tried with is the one the draft says for it, where it is not
    kept elsewhere. -/
theorem secret_of_draft (hdecode : Config.decode host draft.doc = some c)
    (hresolve : c.resolveSecrets host = .ok config) (htarget : probe.target config = some target)
    (hget : draft.get probe.secretKey = some (.str v)) :
    currentSecretSource config probe.secretKey = target.secret.source ∧
      (target.secret = .new v ↔ target.secret.source.isManaged = false) := by
  obtain ⟨-, -, htrackers, hclient, harr⟩ := Config.decode_eq_some hdecode
  obtain ⟨-, hclient', htrackers', harr'⟩ := resolveSecrets_ok hresolve
  have hn := secretNames_segments
  have hparts := probe.dotted_secretKey
  cases probe with
  | downloadClient =>
    obtain ⟨t, hdec, hcell, -⟩ :=
      section_cell hclient hn.downloadClient hn.password hparts hget
    obtain ⟨dc, hdec, hdc⟩ := Option.map_eq_some_iff.1 hdec
    obtain ⟨hsecret, -⟩ := Config.decode_downloadClient hdec
    rw [← hdc] at hclient'
    obtain ⟨dc', hdc', hconfig⟩ := bind_eq_ok.1 hclient'
    obtain ⟨password, hpassword, hdc'⟩ := bind_eq_ok.1 hdc'
    cases hdc'
    have hthere := Except.ok.inj hconfig
    obtain rfl : .downloadClient { dc with password } = target := by
      simpa [Probe.target, ← hthere] using htarget
    refine ⟨?_, eq_new_iff_unmanaged hsecret hcell hpassword⟩
    simp [currentSecretSource, hparts, Probe.secretParts, ← hthere, ProbeTarget.secret]
  | tracker index =>
    obtain ⟨i, row, a, a', hi, ha', hdec, hresolved, hcell, -, -⟩ :=
      row_secret htrackers htrackers' segment_trackers hn.id
        (dotted_row (by decide) (not_dot_toString _) (by decide)) hparts hget
    obtain ⟨-, hsecret, -⟩ := Config.decode_tracker hdec
    obtain ⟨apiKey, hapiKey, hresolved⟩ := bind_eq_ok.1 hresolved
    cases hresolved
    rw [parseUsize_toString index.isLt] at hi
    cases hi
    obtain rfl : .tracker { a with apiKey } = target := by
      simpa [Probe.target, ha'] using htarget
    refine ⟨?_, eq_new_iff_unmanaged hsecret hcell hapiKey⟩
    simp only [currentSecretSource, hparts, Probe.secretParts, parseUsize_toString index.isLt,
      Option.bind_some, ha', Option.map_some, Option.elim_some, ProbeTarget.secret]
  | arr index =>
    obtain ⟨i, row, a, a', hi, ha', hdec, hresolved, hcell, -, -⟩ :=
      row_secret harr harr' segment_arr hn.name
        (dotted_row (by decide) (not_dot_toString _) (by decide)) hparts hget
    obtain ⟨-, hsecret, -⟩ := Config.decode_arr hdec
    obtain ⟨apiKey, hapiKey, hresolved⟩ := bind_eq_ok.1 hresolved
    cases hresolved
    rw [parseUsize_toString index.isLt] at hi
    cases hi
    obtain rfl : .arr { a with apiKey } = target := by
      simpa [Probe.target, ha'] using htarget
    refine ⟨?_, eq_new_iff_unmanaged hsecret hcell hapiKey⟩
    simp only [currentSecretSource, hparts, Probe.secretParts, parseUsize_toString index.isLt,
      Option.bind_some, ha', Option.map_some, Option.elim_some, ProbeTarget.secret]

/-! ## Rows that are tested -/

theorem Probe.undotted_secretParts (probe : Probe) :
    probe.secretKey = undotted probe.secretParts := by
  rw [Probe.secretKey_eq, concreteKey, Probe.concreteParts_secretField]

/-- The row of a key is the one its number says. -/
theorem rowScope_row {s k : String} {i : ℕ} (hi : i < 2 ^ 64)
    (hs : (s.toList.reverse.dropWhile fun c => c = '.').reverse = s.toList)
    (hk : '.' ∉ k.toList) : rowScope (undotted [s, toString i, k]) = some (s, i) := by
  have hlist : (undotted [s, toString i, k]).toList =
      (s.toList ++ '.' :: (toString i).toList) ++ '.' :: k.toList := by
    simp [undotted, List.intercalate]
  rw [rowScope, hlist, rsplitOnce_append hk, Option.bind_some]
  dsimp only
  rw [rsplitOnce_append (not_dot_toString i), Option.getD_some]
  dsimp only
  rw [String.ofList_toList, parseUsize_toString hi, hs, String.ofList_toList]
  rfl

theorem inSkippedRow_iff {rows : String} {skip : List ℕ} : inSkippedRow key rows skip = true ↔
    ∃ index ∈ skip, rowScope key = some (rows, index) := by
  unfold inSkippedRow
  cases hscope : rowScope key with
  | none => simp
  | some p =>
    obtain ⟨front, index⟩ := p
    simp only [Bool.and_eq_true, decide_eq_true_eq, Option.some.injEq, Prod.mk.injEq]
    constructor
    · rintro ⟨rfl, hmem⟩
      exact ⟨index, hmem, rfl, rfl⟩
    · rintro ⟨_, hmem, rfl, rfl⟩
      exact ⟨rfl, hmem⟩

/-- Only new rows are left out. -/
theorem le_of_mem_gateNewRows {rows : String} {existing index : ℕ} {templates : List Field}
    (h : index ∈ gateNewRows rows existing templates pairs) : existing ≤ index := by
  have hmem := List.mem_dedup.1 (List.mem_filter.1 h).1
  obtain ⟨typed, htyped, rfl⟩ := List.mem_map.1 hmem
  obtain ⟨p, -, hp⟩ := List.mem_filterMap.1 htyped
  obtain ⟨⟨front, i⟩, -, hp⟩ := Option.bind_eq_some_iff.1 hp
  dsimp only at hp
  split_ifs at hp with hno
  obtain ⟨f, -, rfl⟩ := Option.map_eq_some_iff.1 hp
  exact not_lt.1 fun hlt => hno (.inr hlt)

/-- A row that a document has something in is there. -/
theorem lt_rowCount_of_get {s k : String} {i : ℕ} (hi : i < 2 ^ 64) (hs : segment s = .name s)
    (hk : segment k = .name k) (hparts : dotted key = [s, toString i, k])
    (hget : doc.get key ≠ none) : i < doc.rowCount s := by
  have hreach : (reach [.row s i] doc.doc).bind (·.get k) ≠ none := by
    simpa only [ConfigDocument.get, segments, hparts, List.map_cons, List.map_nil, hs, hk,
      segment_toString hi, placeOf, Option.map_some, Option.bind_some] using hget
  simp only [reach, Step.child] at hreach
  unfold ConfigDocument.rowCount
  cases hrows : (doc.doc.get s).bind Item.asArrayOfTables with
  | none => simp [hrows] at hreach
  | some rows =>
    simp only [hrows, Option.bind_some] at hreach
    by_contra hle
    have hnone : rows[i]? = none := List.getElem?_eq_none (not_lt.1 hle)
    simp [hnone] at hreach

/-- What the document has a secret for is not left out of a test. -/
theorem Probe.not_skipped (hget : doc.get probe.secretKey ≠ none) :
    probe.form.skip doc pairs probe.secretKey = false := by
  have hn := secretNames_segments
  have hparts := probe.dotted_secretKey
  have hscope := probe.undotted_secretParts
  rw [← Bool.not_eq_true]
  intro hskip
  cases probe with
  | downloadClient => cases hskip
  | tracker index =>
    have hrow : rowScope (Probe.tracker index).secretKey = some ("trackers", index.val) :=
      (congrArg rowScope hscope).trans (rowScope_row index.isLt (by decide) (by decide))
    have hlt := lt_rowCount_of_get index.isLt segment_trackers hn.apiKey hparts hget
    obtain ⟨i, hi, hrow'⟩ := inSkippedRow_iff.1 hskip
    cases hrow.symm.trans hrow'
    exact absurd (le_of_mem_gateNewRows hi) (not_le.2 hlt)
  | arr index =>
    have hrow : rowScope (Probe.arr index).secretKey = some ("arr", index.val) :=
      (congrArg rowScope hscope).trans (rowScope_row index.isLt (by decide) (by decide))
    have hlt := lt_rowCount_of_get index.isLt segment_arr hn.apiKey hparts hget
    obtain hskip | hskip := Bool.or_eq_true_iff.1 hskip
    · obtain ⟨i, hi, hrow'⟩ := inSkippedRow_iff.1 hskip
      cases hrow.symm.trans hrow'
      exact absurd (le_of_mem_gateNewRows hi) (not_le.2 hlt)
    · -- a secret is in no row of path mappings
      obtain ⟨row, -, hskip⟩ := List.any_eq_true.1 hskip
      obtain ⟨i, -, hrow'⟩ := inSkippedRow_iff.1 hskip
      have hname := (Prod.mk.inj (Option.some.inj (hrow.symm.trans hrow'))).1
      have hlen := congrArg (fun s : String => s.toList.length) hname
      simp [String.toList_append] at hlen

/-! ## The secret that is sent -/

/-- A value that a submission writes and leaves at a key. -/
def SettingsForm.Types (form : SettingsForm) (host : ConfigHost) (syn : TomlSyntax)
    (doc : ConfigDocument) (pairs : List (String × String)) (key v : String) : Prop :=
  form.leaves host syn doc pairs key = some (.str v) ∧
    ∃ key', (key', Parsed.set (.str v)) ∈ form.edits host syn doc pairs ∧
      segments key' = segments key

/-- What a test needs before it tries a connection. -/
theorem testConnection_probes (h : testConnection host syn room doc pairs probe =
      some (.probes target)) : ∃ draft config value,
    applyPairs host room doc (configBefore host syn doc) probe.form.templates pairs
      (probe.form.skip doc pairs) = some (draft, .ok []) ∧
    draft.toConfig syn host = .ok config ∧ probe.target config = some target ∧
    Overrides.collect pairs probe.secretKey = some value ∧ value ≠ "" := by
  obtain ⟨⟨draft, result⟩, happly, h⟩ := Option.map_eq_some_iff.1 h
  cases result with
  | error message => cases h
  | ok errors =>
    by_cases herrors : errors = []
    · subst herrors
      simp only [ne_eq, not_true_eq_false, if_false] at h
      cases hvalid : validateDraft host syn draft with
      | error e => cases e <;> simp [hvalid] at h
      | ok config =>
        simp only [hvalid] at h
        cases htarget : probe.target config with
        | none => cases probe <;> simp [htarget, Probe.missing] at h
        | some target' =>
          simp only [htarget] at h
          split_ifs at h with hempty
          cases h
          cases hvalue : Overrides.collect pairs probe.secretKey with
          | none => simp [submittedSecretIsEmpty, hvalue] at hempty
          | some value =>
            exact ⟨draft, config, value, happly, toConfig_of_validateDraft hvalid, htarget, rfl,
              by simpa [submittedSecretIsEmpty, hvalue] using hempty⟩
    · simp [herrors] at h

theorem SecretParts.last_mem {parts : List String} (h : SecretParts parts) :
    parts.getLastD "" ∈ secretNames := by
  obtain rfl | rfl | ⟨x, -, rfl | rfl⟩ := h <;> simp [secretNames]

theorem SecretParts.isFieldKey (h : SecretParts (dotted key)) : IsFieldKey key := by
  have hn := secretNames_segments
  unfold IsFieldKey
  obtain hp | hp | ⟨x, -, hp | hp⟩ := h <;> rw [hp]
  · exact .plain hn.server hn.authToken (by decide) (by decide)
  · exact .plain hn.downloadClient hn.password (by decide) (by decide)
  · exact .tracker x hn.apiKey
  · exact .arr x hn.apiKey (by decide)

/-- An edit at the place of the secret is what a value for it says. -/
theorem edit_of_secret (hkey : SecretParts (dotted key)) {parsed : Parsed}
    (h : (key', parsed) ∈ form.edits host syn doc pairs)
    (hseg : segments key' = segments key) :
    parsed = .unchanged ∨
      (currentSecretSource (configBefore host syn doc) key).isManaged = false ∧
        (parsed = .remove ∨ ∃ v, parsed = .set (.str v)) := by
  obtain ⟨r, hr, hedit⟩ := List.mem_filterMap.1 h
  obtain ⟨hf, -, -⟩ := findField_of_reached hr
  obtain ⟨parsed', hparsed, hkey'⟩ := Option.map_eq_some_iff.1 hedit
  cases hkey'
  obtain ⟨hfield, hkind, -⟩ := isFieldKey_of_find form.templates_subset hf
  have hsecret : r.1.kind = .secret := by
    rw [hkind, hfield.last_eq hkey.isFieldKey hseg]
    exact hkey.last_mem
  have hparts := secretParts_of_find form.templates_subset hf hsecret
  rw [judge_secret (form.templates_subset (findField_some hf).1) hsecret,
    currentSecretSource_congr hparts hkey hseg] at hparsed
  have hsays := Option.some.inj hparsed
  split_ifs at hsays with hmanaged
  · exact .inl hsays.symm
  · exact .inr ⟨by simpa using hmanaged, .inl hsays.symm⟩
  · exact .inl hsays.symm
  · exact .inr ⟨by simpa using hmanaged, .inr ⟨_, hsays.symm⟩⟩

/-- A test that tries a connection writes its secret to the draft where the page may write it and
    it is not to be cleared. -/
theorem exists_types_iff (happly : applyPairs host room doc (configBefore host syn doc)
      probe.form.templates pairs (probe.form.skip doc pairs) = some (draft, .ok []))
    (hvalue : Overrides.collect pairs probe.secretKey = some v) (hv : v ≠ "") :
    (∃ v, probe.form.Types host syn doc pairs probe.secretKey v) ↔
      (currentSecretSource (configBefore host syn doc) probe.secretKey).isManaged = false ∧
        probe.form.leaves host syn doc pairs probe.secretKey ≠ none := by
  have hparts := probe.secretParts_probe
  constructor
  · rintro ⟨v, hleaves, key', hedit, hseg⟩
    refine ⟨?_, by simp [hleaves]⟩
    obtain hno | ⟨hmanaged, -⟩ := edit_of_secret hparts hedit hseg
    · cases hno
    · exact hmanaged
  · rintro ⟨hmanaged, hleft⟩
    obtain ⟨⟨key', parsed⟩, hedit, hseg, hsays, hleaves⟩ | ⟨hall, hleaves⟩ :=
      leavesAt_cases probe.secretKey (probe.form.edits host syn doc pairs)
        (doc.get probe.secretKey)
    · obtain rfl | ⟨-, rfl | ⟨v, rfl⟩⟩ := edit_of_secret hparts hedit hseg
      · exact absurd rfl hsays
      · exact absurd hleaves hleft
      · exact ⟨v, hleaves, key', hedit, hseg⟩
    · -- nothing would be said of the secret, but a value for it is looked at
      have hskip : probe.form.skip doc pairs probe.secretKey = false :=
        Probe.not_skipped fun hget => hleft (hleaves.trans hget)
      obtain ⟨hmem, hkind, hlen, hsize⟩ := probe.secretField_mem
      have hplain := stripSuffix_concreteKey (probe.form.templates_subset hmem) hlen hsize
      rw [← Probe.secretKey_eq] at hplain
      have hvalues := mem_values_ofPairs (collect_eq_some hvalue) hplain.1 hplain.2
      obtain ⟨f, hreached⟩ := reached_of_applyValues happly hvalues hskip
      obtain ⟨hf, -, -⟩ := findField_of_reached hreached
      obtain rfl : f = probe.secretField := Option.some.inj (hf.symm.trans probe.find_secretKey)
      obtain ⟨parsed, hparsed, hsays⟩ : ∃ parsed, judge host (configBefore host syn doc)
          (.ofPairs pairs) doc probe.secretField probe.secretKey v = .ok parsed ∧
            parsed ≠ .unchanged := by
        refine ⟨_, judge_secret (probe.form.templates_subset hmem) hkind, ?_⟩
        rw [hmanaged, if_neg Bool.false_ne_true, if_neg hv]
        split_ifs <;> simp
      have hedit : (probe.secretKey, parsed) ∈ probe.form.edits host syn doc pairs :=
        List.mem_filterMap.2 ⟨_, hreached, by simp [editOf, hparsed, Except.toOption]⟩
      exact absurd (hall _ hedit rfl) hsays

/-- A test that tries a connection sends a secret that was typed in exactly where the secret was
    not kept elsewhere before, is not to be cleared, and is not kept elsewhere in the draft: by the
    name that the row has there no variable is set, and no file is left; as long as a text that is
    written reads back as the configuration of its tree. -/
theorem probe_sends_typed_iff
    (h : testConnection host syn room doc pairs probe = some (.probes target))
    (hwritten : ∀ draft, runEdits room (probe.form.edits host syn doc pairs) doc = some draft →
      ∃ t, syn.parse (draft.toText syn) = .ok t ∧
        Config.decode host t = Config.decode host draft.doc) :
    (∃ v, probe.form.Types host syn doc pairs probe.secretKey v ∧ target.secret = .new v) ↔
      ((currentSecretSource (configBefore host syn doc) probe.secretKey).isManaged = false ∧
        probe.form.leaves host syn doc pairs probe.secretKey ≠ none) ∧
      (∀ var, secretVar (probe.form.leaves host syn doc pairs) probe.secretKey = some var →
        host.env var = none) ∧
      probe.form.leaves host syn doc pairs (fileKeyOf probe.secretKey) = none := by
  obtain ⟨draft, config, value, happly, hconfig, htarget, hvalue, hne⟩ := testConnection_probes h
  have hrun := runEdits_of_applyPairs happly
  obtain ⟨c, hdecode, hresolve⟩ := decode_of_toConfig hconfig (hwritten draft hrun)
  have hparts := probe.secretParts_probe
  have hleaves : ∀ k, IsFieldKey k → draft.get k = probe.form.leaves host syn doc pairs k :=
    fun k hk => get_runEdits (isFieldKey_of_edits probe.form.templates_subset) hk hrun
  rw [← exists_types_iff happly hvalue hne, ← exists_and_right]
  refine exists_congr fun v => and_congr_right fun htypes => ?_
  have hget : draft.get probe.secretKey = some (.str v) :=
    (hleaves _ hparts.isFieldKey).trans htypes.1
  obtain ⟨hsource, hsent⟩ := secret_of_draft hdecode hresolve htarget hget
  rw [hsent, ← hsource, isManaged_currentSecretSource hdecode hresolve hparts hget,
    hparts.secretVar_congr hleaves, hleaves _ hparts.isFieldKey_file]

end

/-! ## A new tracker that is tested -/

/-- Whether a connection is tried with a secret of some value. -/
def Tested.sends (value : String) : Option Tested → Bool
  | some (.probes target) => target.secret.value = value
  | _ => false

theorem Tested.sends_iff {value : String} {r : Option Tested} : Tested.sends value r = true ↔
    ∃ target, r = some (.probes target) ∧ target.secret.value = value := by
  unfold Tested.sends
  split
  next target => simp
  next hno => simpa using fun target hr => absurd hr (hno target)

/-- The test of the tracker that is added, before it is saved. -/
abbrev testNewTracker (host : ConfigHost) : Option Tested :=
  trackersTest host newTrackerSyntax 1 (.ofTree []) newTrackerPairs 0

/-- Where its variable is not set, a new tracker is tested with the key that is typed in. -/
theorem new_tracker_sends_typed : ∃ target, testNewTracker .plain = some (.probes target) ∧
    ∃ v, SettingsForm.trackers.Types .plain newTrackerSyntax (.ofTree []) newTrackerPairs
      (Probe.tracker 0).secretKey v ∧ target.secret = .new v := by
  obtain ⟨target, htested, -⟩ := Tested.sends_iff.1
    (show Tested.sends "typed" (testNewTracker .plain) = true by decide +kernel)
  have hdraft : (runEdits 1 (SettingsForm.trackers.edits .plain newTrackerSyntax (.ofTree [])
      newTrackerPairs) (.ofTree [])).all (fun draft => !draft.doc.isEmpty &&
        Config.decode .plain newTrackerTree = Config.decode .plain draft.doc) = true := by
    decide +kernel
  have hstate : (currentSecretSource (configBefore .plain newTrackerSyntax (.ofTree []))
        (Probe.tracker 0).secretKey).isManaged = false ∧
      (SettingsForm.trackers.leaves .plain newTrackerSyntax (.ofTree []) newTrackerPairs
        (Probe.tracker 0).secretKey).isSome = true ∧
      (SettingsForm.trackers.leaves .plain newTrackerSyntax (.ofTree []) newTrackerPairs
        (fileKeyOf (Probe.tracker 0).secretKey)).isNone = true := by
    decide +kernel
  refine ⟨target, htested, (probe_sends_typed_iff htested fun draft hrun => ?_).2
    ⟨⟨hstate.1, Option.isSome_iff_ne_none.1 hstate.2.1⟩, fun _ _ => rfl,
      Option.isNone_iff_eq_none.1 hstate.2.2⟩⟩
  have hcheck := (Option.all_eq_true _ _).1 hdraft draft hrun
  simp only [Bool.and_eq_true, Bool.not_eq_true', decide_eq_true_eq] at hcheck
  exact newTracker_reads_back hcheck.1 hcheck.2

/-- The variable is sent, whatever was typed in. -/
example : Tested.sends "from-env" (testNewTracker keyedHost) = true := by decide +kernel

end SeedMedic
