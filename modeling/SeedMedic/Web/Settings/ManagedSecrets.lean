/-
  Secrets that are kept in the environment or in files: when the settings pages write over one.
-/
import SeedMedic.Web.Settings.Submit

namespace SeedMedic

open Lib Lib.Toml

/-! ## Where the secret of a key is kept -/

/-- The variable of the secret at a key, by what is read at the name of its row. -/
def secretVar (read : String → Option Item) (key : String) : Option String :=
  match dotted key with
  | ["server", "auth_token"] => some "SEEDMEDIC_SERVER_AUTH_TOKEN"
  | ["download_client", "password"] => some "SEEDMEDIC_DOWNLOAD_CLIENT_PASSWORD"
  | ["trackers", x, "api_key"] =>
    ((read (undotted ["trackers", x, "id"])).bind Item.asStr).map fun id =>
      "SEEDMEDIC_TRACKER_" ++ shouty id ++ "_API_KEY"
  | ["arr", x, "api_key"] =>
    ((read (undotted ["arr", x, "name"])).bind Item.asStr).map fun name =>
      "SEEDMEDIC_ARR_" ++ shouty name ++ "_API_KEY"
  | _ => none

/-- The key of the file of the secret at a key. -/
def fileKeyOf (key : String) : String :=
  undotted ((dotted key).dropLast ++ [(dotted key).getLastD "" ++ "_file"])

variable {host : ConfigHost} {syn : TomlSyntax} {room : ℕ} {d : ConfigDocument} {c config : Config}
  {key s k x v : String} {item : Item} {names : List String}

/-- A secret is managed where its variable is set or it has a file. -/
theorem isManaged_resolveSecret {inline secret : Secret} {file : Option PathBuf} {var : String}
    (h : resolveSecret host inline file var = .ok secret) (hinline : inline.source.isManaged = false) :
    secret.source.isManaged = false ↔ host.env var = none ∧ file = none := by
  unfold resolveSecret at h
  cases henv : host.env var with
  | some value =>
    simp only [henv] at h
    cases h
    simp [SecretSource.isManaged]
  | none =>
    cases file with
    | none =>
      simp only [henv] at h
      cases h
      simpa using hinline
    | some path =>
      simp only [henv] at h
      cases hread : host.readToString path with
      | error e => simp [hread] at h
      | ok contents =>
        simp only [hread] at h
        cases h
        simp [SecretSource.isManaged]

/-- A secret that a table says itself is managed where its variable is set, or the table has a key
    for its file. -/
theorem isManaged_of_table {t : Table} {dflt inline secret : Secret} {file : Option PathBuf}
    {var k' : String} (hsecret : orDefault decSecret dflt t k = some inline)
    (hfile : optional decPath t k' = some file) (hget : t.get k = some (.str v))
    (h : resolveSecret host inline file var = .ok secret) :
    secret.source.isManaged = false ↔ host.env var = none ∧ t.get k' = none := by
  have hinline : inline = .new v := by
    simpa [orDefault, hget, decSecret, Item.asStr, eq_comm] using hsecret
  have hsource : inline.source.isManaged = false := by
    rw [hinline, Secret.new]
    split_ifs <;> rfl
  have hnone : file = none ↔ t.get k' = none := by
    unfold optional orDefault at hfile
    cases hk : t.get k' with
    | none => simpa [hk, eq_comm] using hfile
    | some item =>
      simp only [hk] at hfile
      obtain ⟨path, -, rfl⟩ := Option.map_eq_some_iff.1 hfile
      simp
  rw [isManaged_resolveSecret h hsource, hnone]

/-! ## Cells of a document and of its configuration -/

/-- What is read at a key of a section is a cell of the table the section is decoded from. -/
theorem section_cell {α : Type} {dec : Table → Option α} {dflt a : α}
    (hdec : part names dec dflt d.doc s = some a) (hs : segment s = .name s)
    (hk : segment k = .name k) (hparts : dotted key = [s, k]) (hget : d.get key = some item) :
    ∃ t, dec t = some a ∧ t.get k = some item ∧
      ∀ key' k', dotted key' = [s, k'] → segment k' = .name k' → d.get key' = t.get k' := by
  have hread : ∀ key' k', dotted key' = [s, k'] → segment k' = .name k' →
      d.get key' = (reach [.sub s] d.doc).bind (·.get k') := by
    intro key' k' hparts' hk'
    simp [ConfigDocument.get, segments, hparts', hs, hk', placeOf]
  rw [hread key k hparts hk] at hget
  obtain ⟨t, hreach, hcell⟩ := Option.bind_eq_some_iff.1 hget
  refine ⟨t, ?_, hcell, fun key' k' hparts' hk' => by rw [hread key' k' hparts' hk', hreach]; rfl⟩
  unfold part orDefault at hdec
  cases hitem : d.doc.get s with
  | none => simp [reach, Step.child, hitem] at hreach
  | some item =>
    have htable : item.asTableLike = some t := by
      simpa [reach, Step.child, hitem] using hreach
    have hsection : asSection names item = some t := by
      cases item <;> simp_all [Item.asTableLike, asSection]
    simpa [hitem, hsection] using hdec

/-- What is read at a key of a row is a cell of the table the row is decoded from. -/
theorem row_cell {α : Type} {dec : Table → Option α} {as : List α}
    (hdec : orDefault (decRows names dec) [] d.doc s = some as) (hs : segment s = .name s)
    (hk : segment k = .name k) (hparts : dotted key = [s, x, k]) (hget : d.get key = some item) :
    ∃ i row a, parseUsize x = some i ∧ as[i]? = some a ∧ dec row = some a ∧
      row.get k = some item ∧ ∀ key' k', dotted key' = [s, x, k'] → segment k' = .name k' →
        d.get key' = row.get k' := by
  unfold orDefault at hdec
  cases hx : parseUsize x with
  | none =>
    -- a name in the place of the number leads into a table, and rows are not read from one
    have hseg : segment x = .name x := by simp [segment, hx]
    exfalso
    cases hitem : d.doc.get s with
    | none =>
      simp [ConfigDocument.get, segments, hparts, hs, hk, hseg, placeOf, reach, Step.child,
        hitem] at hget
    | some item =>
      cases item <;> simp [ConfigDocument.get, segments, hparts, hs, hk, hseg, placeOf, reach,
        Step.child, hitem, Item.asTableLike] at hget <;> simp [hitem, decRows] at hdec
  | some i =>
    have hseg : segment x = .index i := by simp [segment, hx]
    have hread : ∀ key' k', dotted key' = [s, x, k'] → segment k' = .name k' →
        d.get key' = (reach [.row s i] d.doc).bind (·.get k') := by
      intro key' k' hparts' hk'
      simp [ConfigDocument.get, segments, hparts', hs, hk', hseg, placeOf]
    rw [hread key k hparts hk] at hget
    obtain ⟨row, hreach, hcell⟩ := Option.bind_eq_some_iff.1 hget
    cases hitem : d.doc.get s with
    | none => simp [reach, Step.child, hitem] at hreach
    | some item =>
      obtain ⟨rows, rfl, hrow⟩ : ∃ rows, item = .arrayOfTables rows ∧ rows[i]? = some row := by
        cases item <;> simp_all [reach, Step.child, Item.asArrayOfTables]
      simp only [hitem, decRows] at hdec
      obtain ⟨a, ha, hdeca⟩ := getElem?_of_forall₂ (mapM_eq_some.1 hdec) hrow
      exact ⟨i, row, a, rfl, ha, hdeca, hcell, fun key' k' hparts' hk' => by
        rw [hread key' k' hparts' hk', hreach]
        rfl⟩

/-! ## The secrets of a saved draft -/

/-- The parts of the keys that hold secrets. -/
def SecretParts (parts : List String) : Prop :=
  parts = ["server", "auth_token"] ∨ parts = ["download_client", "password"] ∨
    ∃ x, '.' ∉ x.toList ∧ (parts = ["trackers", x, "api_key"] ∨ parts = ["arr", x, "api_key"])

theorem secret_fields : ∀ f ∈ fields, f.kind = .secret → dotted f.key ∈
    [["server", "auth_token"], ["download_client", "password"], ["trackers", "*", "api_key"],
      ["arr", "*", "api_key"]] := by decide +kernel

theorem secretParts_of_find {templates : List Field} (ht : templates ⊆ fields) {f : Field}
    (h : findField templates key = some f) (hkind : f.kind = .secret) :
    SecretParts (dotted key) := by
  obtain ⟨hmem, hsuits⟩ := findField_some h
  have hdots : ∀ part ∈ dotted key, '.' ∉ part.toList := fun part hpart => not_mem_dotted hpart
  have hparts := secret_fields f (ht hmem) hkind
  generalize dotted key = ps at hsuits hdots
  simp only [List.mem_cons, List.not_mem_nil, or_false] at hparts
  obtain hparts | hparts | hparts | hparts := hparts <;> rw [hparts] at hsuits
  · obtain _ | ⟨hs, _ | ⟨hk, _ | _⟩⟩ := hsuits
    rw [← hs.of_ne (by decide), ← hk.of_ne (by decide)]
    exact .inl rfl
  · obtain _ | ⟨hs, _ | ⟨hk, _ | _⟩⟩ := hsuits
    rw [← hs.of_ne (by decide), ← hk.of_ne (by decide)]
    exact .inr (.inl rfl)
  · obtain _ | ⟨hs, _ | ⟨-, _ | ⟨hk, _ | _⟩⟩⟩ := hsuits
    rw [← hs.of_ne (by decide), ← hk.of_ne (by decide)]
    exact .inr (.inr ⟨_, hdots _ (by simp), .inl rfl⟩)
  · obtain _ | ⟨hs, _ | ⟨-, _ | ⟨hk, _ | _⟩⟩⟩ := hsuits
    rw [← hs.of_ne (by decide), ← hk.of_ne (by decide)]
    exact .inr (.inr ⟨_, hdots _ (by simp), .inr rfl⟩)

/-- What resolving the secrets of a configuration gives, section by section. -/
theorem resolveSecrets_ok (h : c.resolveSecrets host = .ok config) :
    resolveSecret host c.server.authToken c.server.authTokenFile "SEEDMEDIC_SERVER_AUTH_TOKEN" =
      .ok config.server.authToken ∧
    c.downloadClient.mapM (Config.resolveDownloadClient host) = .ok config.downloadClient ∧
    List.Forall₂ (fun t t' => Config.resolveTracker host t = .ok t') c.trackers config.trackers ∧
    List.Forall₂ (fun a a' => Config.resolveArr host a = .ok a') c.arr config.arr := by
  obtain ⟨client, hclient, h⟩ := bind_eq_ok.1 h
  obtain ⟨token, htoken, h⟩ := bind_eq_ok.1 h
  obtain ⟨trackers, htrackers, h⟩ := bind_eq_ok.1 h
  obtain ⟨arr, harr, h⟩ := bind_eq_ok.1 h
  cases h
  exact ⟨htoken, hclient, mapM_eq_ok.1 htrackers, mapM_eq_ok.1 harr⟩

/-- The names in the keys of secrets, of their files and of the names of their rows. -/
structure SecretNames : Prop where
  server : segment "server" = .name "server"
  authToken : segment "auth_token" = .name "auth_token"
  authTokenFile : segment "auth_token_file" = .name "auth_token_file"
  downloadClient : segment "download_client" = .name "download_client"
  password : segment "password" = .name "password"
  passwordFile : segment "password_file" = .name "password_file"
  id : segment "id" = .name "id"
  name : segment "name" = .name "name"
  apiKey : segment "api_key" = .name "api_key"
  apiKeyFile : segment "api_key_file" = .name "api_key_file"

theorem secretNames_segments : SecretNames := by
  constructor <;> decide +kernel

theorem dotted_fileKeyOf_append {l : List String} {last : String}
    (h : dotted key = l ++ [last]) : dotted (fileKeyOf key) = l ++ [last ++ "_file"] := by
  have hfile : fileKeyOf key = undotted (l ++ [last ++ "_file"]) := by simp [fileKeyOf, h]
  rw [hfile]
  refine dotted_undotted (fun part hpart => ?_) (by simp)
  obtain hpart | hpart := List.mem_append.1 hpart
  · exact not_mem_dotted (h ▸ List.mem_append_left _ hpart)
  · obtain rfl := List.mem_singleton.1 hpart
    have hlast : '.' ∉ last.toList := not_mem_dotted (h ▸ List.mem_append_right _ (by simp))
    simpa [String.toList_append] using hlast

/-- The file of a secret of a section, and of one of a row. -/
theorem dotted_fileKeyOf (h : dotted key = [s, k]) :
    dotted (fileKeyOf key) = [s, k ++ "_file"] := dotted_fileKeyOf_append (l := [s]) h

theorem dotted_fileKeyOf_row (h : dotted key = [s, x, k]) :
    dotted (fileKeyOf key) = [s, x, k ++ "_file"] := dotted_fileKeyOf_append (l := [s, x]) h

theorem dotted_row {name : String} (hs : '.' ∉ s.toList) (hx : '.' ∉ x.toList)
    (hname : '.' ∉ name.toList) : dotted (undotted [s, x, name]) = [s, x, name] :=
  dotted_undotted (by simp [hs, hx, hname]) (by simp)

/-- The key of a secret in a row, with its name and the key of its file, is read from one row, and
    what that row decodes to is resolved to the one of the same number. -/
theorem row_secret {α : Type} {dec : Table → Option α} {as as' : List α} {R : α → α → Prop}
    {named : String} (hdec : orDefault (decRows names dec) [] d.doc s = some as)
    (hresolved : List.Forall₂ R as as') (hs : segment s = .name s)
    (hnamed : segment named = .name named)
    (hdots : dotted (undotted [s, x, named]) = [s, x, named])
    (hparts : dotted key = [s, x, "api_key"]) (hget : d.get key = some item) :
    ∃ i row a a', parseUsize x = some i ∧ as'[i]? = some a' ∧ dec row = some a ∧ R a a' ∧
      row.get "api_key" = some item ∧ d.get (undotted [s, x, named]) = row.get named ∧
        d.get (fileKeyOf key) = row.get "api_key_file" := by
  have hn := secretNames_segments
  obtain ⟨i, row, a, hi, ha, hdec, hcell, hread⟩ := row_cell hdec hs hn.apiKey hparts hget
  obtain ⟨a', ha', hr⟩ := getElem?_of_forall₂ hresolved ha
  exact ⟨i, row, a, a', hi, ha', hdec, hr, hcell, hread _ _ hdots hnamed,
    hread _ _ (dotted_fileKeyOf_row hparts) hn.apiKeyFile⟩

/-- In the configuration of a document the secret it says at a key is managed where its variable is
    set or it has a file. -/
theorem isManaged_currentSecretSource (hdecode : Config.decode host d.doc = some c)
    (hresolve : c.resolveSecrets host = .ok config) (hparts : SecretParts (dotted key))
    (hget : d.get key = some (.str v)) :
    (currentSecretSource config key).isManaged = false ↔
      (∀ var, secretVar d.get key = some var → host.env var = none) ∧
        d.get (fileKeyOf key) = none := by
  obtain ⟨-, hserver, htrackers, hclient, harr⟩ := Config.decode_eq_some hdecode
  obtain ⟨hserver', hclient', htrackers', harr'⟩ := resolveSecrets_ok hresolve
  have hn := secretNames_segments
  obtain hp | hp | ⟨x, hx, hp | hp⟩ := hparts
  · obtain ⟨t, hdec, hcell, hread⟩ :=
      section_cell hserver hn.server hn.authToken hp hget
    obtain ⟨hsecret, hfile⟩ := Config.decode_server hdec
    have hsource : currentSecretSource config key = config.server.authToken.source := by
      simp [currentSecretSource, hp]
    have hvar : secretVar d.get key = some "SEEDMEDIC_SERVER_AUTH_TOKEN" := by simp [secretVar, hp]
    have hfileKey : d.get (fileKeyOf key) = t.get "auth_token_file" :=
      hread _ _ (dotted_fileKeyOf hp) hn.authTokenFile
    rw [hsource, isManaged_of_table hsecret hfile hcell hserver', hvar, hfileKey]
    simp
  · obtain ⟨t, hdec, hcell, hread⟩ :=
      section_cell hclient hn.downloadClient hn.password hp hget
    obtain ⟨dc, hdec, hdc⟩ := Option.map_eq_some_iff.1 hdec
    obtain ⟨hsecret, hfile⟩ := Config.decode_downloadClient hdec
    rw [← hdc] at hclient'
    obtain ⟨dc', hdc', hconfig⟩ := bind_eq_ok.1 hclient'
    obtain ⟨password, hpassword, hdc'⟩ := bind_eq_ok.1 hdc'
    cases hdc'
    have hsource : currentSecretSource config key = password.source := by
      simp [currentSecretSource, hp, ← Except.ok.inj hconfig]
    have hvar : secretVar d.get key = some "SEEDMEDIC_DOWNLOAD_CLIENT_PASSWORD" := by
      simp [secretVar, hp]
    have hfileKey : d.get (fileKeyOf key) = t.get "password_file" :=
      hread _ _ (dotted_fileKeyOf hp) hn.passwordFile
    rw [hsource, isManaged_of_table hsecret hfile hcell hpassword, hvar, hfileKey]
    simp
  · obtain ⟨i, row, a, a', hi, ha', hdec, hresolved, hcell, hname, hfileKey⟩ :=
      row_secret htrackers htrackers' segment_trackers hn.id
        (dotted_row (by decide) hx (by decide)) hp hget
    obtain ⟨hid, hsecret, hfile⟩ := Config.decode_tracker hdec
    obtain ⟨apiKey, hapiKey, hresolved⟩ := bind_eq_ok.1 hresolved
    cases hresolved
    have hsource : currentSecretSource config key = apiKey.source := by
      simp [currentSecretSource, hp, hi, ha']
    have hvar : secretVar d.get key = some ("SEEDMEDIC_TRACKER_" ++ shouty a.id ++ "_API_KEY") := by
      have hid' : (row.get "id").bind Item.asStr = some a.id := hid
      simp [secretVar, hp, hname, hid']
    rw [hsource, isManaged_of_table hsecret hfile hcell hapiKey, hvar, hfileKey]
    simp
  · obtain ⟨i, row, a, a', hi, ha', hdec, hresolved, hcell, hname, hfileKey⟩ :=
      row_secret harr harr' segment_arr hn.name
        (dotted_row (by decide) hx (by decide)) hp hget
    obtain ⟨hid, hsecret, hfile⟩ := Config.decode_arr hdec
    obtain ⟨apiKey, hapiKey, hresolved⟩ := bind_eq_ok.1 hresolved
    cases hresolved
    have hsource : currentSecretSource config key = apiKey.source := by
      simp [currentSecretSource, hp, hi, ha']
    have hvar : secretVar d.get key = some ("SEEDMEDIC_ARR_" ++ shouty a.name ++ "_API_KEY") := by
      have hid' : (row.get "name").bind Item.asStr = some a.name := hid
      simp [secretVar, hp, hname, hid']
    rw [hsource, isManaged_of_table hsecret hfile hcell hapiKey, hvar, hfileKey]
    simp

/-! ## Submissions that are saved -/

/-- What a submission leaves at a key. -/
def SettingsForm.leaves (form : SettingsForm) (host : ConfigHost) (syn : TomlSyntax)
    (doc : ConfigDocument) (pairs : List (String × String)) (key : String) : Option Item :=
  leavesAt key (form.edits host syn doc pairs) (doc.get key)

variable {form : SettingsForm} {doc draft : ConfigDocument} {pairs : List (String × String)}

theorem SecretParts.isFieldKey_file (h : SecretParts (dotted key)) :
    IsFieldKey (fileKeyOf key) := by
  have hn := secretNames_segments
  obtain hp | hp | ⟨x, hx, hp | hp⟩ := h
  · rw [IsFieldKey, dotted_fileKeyOf hp]
    exact .plain hn.server hn.authTokenFile (by decide) (by decide)
  · rw [IsFieldKey, dotted_fileKeyOf hp]
    exact .plain hn.downloadClient hn.passwordFile (by decide) (by decide)
  · rw [IsFieldKey, dotted_fileKeyOf_row hp]
    exact .tracker x hn.apiKeyFile
  · rw [IsFieldKey, dotted_fileKeyOf_row hp]
    exact .arr x hn.apiKeyFile (by decide)

/-- The variable of a secret depends on what is read at keys of fields alone. -/
theorem SecretParts.secretVar_congr (h : SecretParts (dotted key))
    {read read' : String → Option Item} (hread : ∀ k, IsFieldKey k → read k = read' k) :
    secretVar read key = secretVar read' key := by
  obtain hp | hp | ⟨x, hx, hp | hp⟩ := h
  · simp only [secretVar, hp]
  · simp only [secretVar, hp]
  · have hkey : IsFieldKey (undotted ["trackers", x, "id"]) := by
      rw [IsFieldKey, dotted_row (by decide) hx (by decide)]
      exact .tracker x secretNames_segments.id
    simp only [secretVar, hp, hread _ hkey]
  · have hkey : IsFieldKey (undotted ["arr", x, "name"]) := by
      rw [IsFieldKey, dotted_row (by decide) hx (by decide)]
      exact .arr x secretNames_segments.name (by decide)
    simp only [secretVar, hp, hread _ hkey]

/-- A key that is written by an edit has its field. -/
theorem secretParts_of_edit {parsed : Parsed} (h : (key, parsed) ∈ form.edits host syn doc pairs)
    (hsecret : (dotted key).getLastD "" ∈ secretNames) : SecretParts (dotted key) := by
  obtain ⟨r, hr, hedit⟩ := List.mem_filterMap.1 h
  obtain ⟨hf, -, -⟩ := findField_of_reached hr
  obtain ⟨_, -, hkey⟩ := Option.map_eq_some_iff.1 hedit
  cases hkey
  exact secretParts_of_find form.templates_subset hf
    ((isFieldKey_of_find form.templates_subset hf).2.1.2 hsecret)

/-- The file after a tracker was added to an empty one. -/
def newTrackerText : String := "[[trackers]]\nid = \"b\"\nkind = \"fake\"\napi_key = \"typed\"\n"

def newTrackerTree : Toml.Table := [("trackers", .arrayOfTables
  [[("id", .str "b"), ("kind", .str "fake"), ("api_key", .str "typed")]])]

def newTrackerSyntax : TomlSyntax :=
  .known [("", []), (newTrackerText, newTrackerTree)] fun t => if t.isEmpty then "" else newTrackerText

def newTrackerPairs : List (String × String) :=
  [("trackers.0.id", "b"), ("trackers.0.kind", "fake"), ("trackers.0.api_key", "typed")]

/-- A process with a variable for the key of that tracker. -/
def keyedHost : ConfigHost :=
  { ConfigHost.plain with
    env := fun name => if name = "SEEDMEDIC_TRACKER_B_API_KEY" then some "from-env" else none }

/-- The form that adds the tracker. -/
abbrev addTracker (host : ConfigHost) : Option (Except Unsaved (ConfigDocument × Config)) :=
  submitSettings host newTrackerSyntax 1 .trackers (.ofTree []) newTrackerPairs

/-- Whether something is saved of which a check is true. -/
def savedWith (check : ConfigDocument → Config → Bool) :
    Option (Except Unsaved (ConfigDocument × Config)) → Bool
  | some (.ok (draft, config)) => check draft config
  | _ => false

theorem savedWith_iff {check : ConfigDocument → Config → Bool}
    {r : Option (Except Unsaved (ConfigDocument × Config))} : savedWith check r = true ↔
      ∃ draft config, r = some (.ok (draft, config)) ∧ check draft config = true := by
  unfold savedWith
  split
  next draft config => simp
  next hno => simpa using fun draft config hr => absurd hr (hno draft config)

theorem eq_of_asStr (h : item.asStr = some v) : item = .str v := by
  cases item <;> simp_all [Item.asStr]

theorem eq_of_leaves {parsed : Parsed} (h : (parsed.leaves none).bind Item.asStr = some v) :
    parsed = .set (.str v) := by
  obtain ⟨item, hitem, hstr⟩ := Option.bind_eq_some_iff.1 h
  obtain rfl := eq_of_asStr hstr
  cases parsed <;> simp_all [Parsed.leaves]

/-- The draft is written as the text that is read back. -/
theorem newTracker_reads_back {draft : ConfigDocument} (hdoc : draft.doc.isEmpty = false)
    (hdecode : Config.decode host newTrackerTree = Config.decode host draft.doc) :
    ∃ t, newTrackerSyntax.parse (draft.toText newTrackerSyntax) = .ok t ∧
      Config.decode host t = Config.decode host draft.doc := by
  refine ⟨newTrackerTree, ?_, hdecode⟩
  have hne : draft.doc ≠ [] := List.isEmpty_eq_false_iff.1 hdoc
  have htext : draft.toText newTrackerSyntax = newTrackerText := by
    simp [ConfigDocument.toText, newTrackerSyntax, TomlSyntax.known, hne]
  rw [htext]
  simp [newTrackerSyntax, TomlSyntax.known, newTrackerText]

end SeedMedic
