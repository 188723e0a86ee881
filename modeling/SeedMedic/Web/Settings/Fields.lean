/-
  The fields of the settings pages (`web/settings/fields.rs`): which keys of the configuration a
  page can change, and how a submitted key is found among them.
-/
import SeedMedic.Config.Edit

namespace SeedMedic

open Lib Lib.Toml

/-- How a field is entered, and read back from its text. -/
inductive Kind where
  | bool
  | count (min : ℕ)
  | text
  | url
  | absolutePath
  /-- One path a line. -/
  | absolutePathList
  | choice (options : List String)
  | secret
  /-- Shown and not written. -/
  | secretFile
  deriving DecidableEq

structure Field where
  /-- The dotted key, with a star for the number of a row. -/
  key : String
  kind : Kind
  /-- A change has to be confirmed. -/
  danger : Bool
  deriving DecidableEq

def field (key : String) (kind : Kind) : Field := ⟨key, kind, false⟩

def danger (f : Field) : Field := { f with danger := true }

def fields : List Field :=
  [ field "server.bind_address" .text,
    field "server.auth_token" .secret,
    field "server.base_path" .text,
    field "server.auth_token_file" .secretFile,
    field "database.path" .absolutePath,
    field "staging.root" .absolutePath,
    field "staging.min_free_bytes" (.count 0),
    field "library.roots" .absolutePathList,
    danger (field "policy.auto_resume" (.choice ["never", "when_verified_complete"])),
    field "policy.min_match_confidence"
      (.choice ["ambiguous", "probable", "operator", "exact"]),
    field "policy.verification_pieces" (.count 0),
    field "policy.prefer_reflink" .bool,
    danger (field "policy.allow_hardlink" .bool),
    field "policy.allow_copy" .bool,
    field "policy.max_attempts" (.count 1),
    field "policy.retry_base_seconds" (.count 0),
    field "policy.retry_max_seconds" (.count 0),
    field "policy.recheck_poll_seconds" (.count 0),
    field "policy.recheck_poll_max_seconds" (.count 0),
    field "policy.recheck_timeout_seconds" (.count 1),
    field "policy.tracker_poll_seconds" (.count 60),
    field "policy.tracker_poll_min_seconds" (.count 0),
    field "policy.max_consecutive_unknown_tracker_status" (.count 1),
    field "worker.owner" .text,
    field "worker.lease_seconds" (.count 1),
    field "worker.batch_size" (.count 1),
    field "worker.poll_interval_seconds" (.count 0),
    field "worker.discovery_interval_seconds" (.count 0),
    field "trackers.*.id" .text,
    field "trackers.*.kind" (.choice ["unit3d", "fake"]),
    field "trackers.*.base_url" .url,
    field "trackers.*.api_key" .secret,
    field "trackers.*.api_key_file" .secretFile,
    field "trackers.*.token_placement" (.choice ["header", "query"]),
    field "download_client.kind" (.choice ["qbittorrent", "fake"]),
    field "download_client.base_url" .url,
    field "download_client.username" .text,
    field "download_client.password" .secret,
    field "download_client.password_file" .secretFile,
    field "download_client.category" .text,
    field "arr.*.kind" (.choice ["sonarr", "radarr"]),
    field "arr.*.name" .text,
    field "arr.*.base_url" .url,
    field "arr.*.api_key" .secret,
    field "arr.*.api_key_file" .secretFile,
    field "arr.*.path_mappings.*.from" .absolutePath,
    field "arr.*.path_mappings.*.to" .absolutePath,
    field "metrics.enabled" .bool,
    field "notifications.webhook_url" .url,
    field "notifications.tracker_unreachable_after_seconds" (.count 0) ]

def fieldsFor (prefixes : List String) : List Field :=
  prefixes.flatMap fun front => fields.filter fun f => front.toList.isPrefixOf f.key.toList

/-- Whether a key is a template's, part for part, with a star for any part. -/
def matchesTemplate (template key : String) : Bool :=
  let templateParts := dotted template
  let keyParts := dotted key
  templateParts.length = keyParts.length &&
    (templateParts.zip keyParts).all fun p => p.1 = "*" || p.1 = p.2

def findField (templates : List Field) (key : String) : Option Field :=
  templates.find? fun f => matchesTemplate f.key key

theorem fieldsFor_subset (prefixes : List String) : fieldsFor prefixes ⊆ fields := by
  intro f hf
  obtain ⟨front, -, hf⟩ := List.mem_flatMap.1 hf
  exact (List.mem_filter.1 hf).1

/-! ## The places of fields -/

/-- A part matches a template's part. -/
def Suits (template part : String) : Prop := template = "*" ∨ template = part

theorem matchesTemplate_iff {template key : String} :
    matchesTemplate template key = true ↔ List.Forall₂ Suits (dotted template) (dotted key) := by
  rw [List.forall₂_iff_zip]
  simp only [matchesTemplate, Bool.and_eq_true, decide_eq_true_eq, List.all_eq_true,
    Bool.or_eq_true, Suits, Prod.forall]

theorem findField_some {templates : List Field} {key : String} {f : Field}
    (h : findField templates key = some f) : f ∈ templates ∧
      List.Forall₂ Suits (dotted f.key) (dotted key) := by
  have hmatch := List.find?_some (p := fun f : Field => matchesTemplate f.key key) h
  exact ⟨List.mem_of_find?_eq_some h, matchesTemplate_iff.1 hmatch⟩

/-- The parts a key of a field has: a section and a key in it, or a row of a repeated section and a
    key in it, or a row of the mappings of one. -/
inductive FieldParts : List String → Prop where
  | plain {s k : String} : segment s = .name s → segment k = .name k → s ≠ "trackers" → s ≠ "arr" →
      FieldParts [s, k]
  | tracker (x : String) {k : String} : segment k = .name k → FieldParts ["trackers", x, k]
  | arr (x : String) {k : String} : segment k = .name k → k ≠ "path_mappings" →
      FieldParts ["arr", x, k]
  | mapping (x y : String) {k : String} : segment k = .name k →
      FieldParts ["arr", x, "path_mappings", y, k]

/-- Whether a part stands for itself, as a name. -/
def isName (part : String) : Bool := part ≠ "*" && parseUsize part = none

/-- Whether the parts of a template are those of a key of a field, with stars for rows. -/
def isTemplate : List String → Bool
  | [s, k] => isName s && isName k && s ≠ "trackers" && s ≠ "arr"
  | ["trackers", "*", k] => isName k
  | ["arr", "*", k] => isName k && k ≠ "path_mappings"
  | ["arr", "*", "path_mappings", "*", k] => isName k
  | _ => false

/-- The last names of the fields that hold secrets, and of those that name files with one. -/
def secretNames : List String := ["auth_token", "password", "api_key"]

def secretFileNames : List String := ["auth_token_file", "password_file", "api_key_file"]

/-- What is checked of every field: its parts, that its kind goes with its last name, and that a
    change of it has to be confirmed only where it is one key and no secret. -/
def Field.isSound (f : Field) : Bool :=
  let parts := dotted f.key
  let last := parts.getLastD ""
  isTemplate parts && (f.kind = .secret) = (last ∈ secretNames) &&
    (f.kind = .secretFile) = (last ∈ secretFileNames) &&
    (!f.danger || (parts.all isName && f.kind ≠ .secretFile))

theorem isSound_fields : ∀ f ∈ fields, f.isSound = true := by decide +kernel

theorem Suits.of_isName {template part : String} (h : Suits template part)
    (hname : isName template = true) : template = part ∧ segment part = .name part := by
  obtain rfl | rfl := h
  · cases hname
  · refine ⟨rfl, ?_⟩
    simp only [isName, Bool.and_eq_true, decide_eq_true_eq] at hname
    simp only [segment, hname.2]

theorem Suits.of_ne {template part : String} (h : Suits template part) (hne : template ≠ "*") :
    template = part := h.resolve_left hne

/-- A key that matches a field's has the parts of one, and its last name. -/
theorem FieldParts.of_suits {ts ps : List String} (ht : isTemplate ts = true)
    (h : List.Forall₂ Suits ts ps) : FieldParts ps ∧ ps.getLastD "" = ts.getLastD "" := by
  unfold isTemplate at ht
  split at ht
  next s k =>
    obtain _ | ⟨hs, _ | ⟨hk, _ | _⟩⟩ := h
    simp only [Bool.and_eq_true, decide_eq_true_eq] at ht
    obtain ⟨⟨⟨hsname, hkname⟩, htrackers⟩, harr⟩ := ht
    obtain ⟨rfl, hsseg⟩ := hs.of_isName hsname
    obtain ⟨rfl, hkseg⟩ := hk.of_isName hkname
    exact ⟨.plain hsseg hkseg htrackers harr, rfl⟩
  next k =>
    obtain _ | ⟨hs, _ | ⟨-, _ | ⟨hk, _ | _⟩⟩⟩ := h
    obtain rfl := hs.of_ne (by decide)
    obtain ⟨rfl, hkseg⟩ := hk.of_isName ht
    exact ⟨.tracker _ hkseg, rfl⟩
  next k =>
    obtain _ | ⟨hs, _ | ⟨-, _ | ⟨hk, _ | _⟩⟩⟩ := h
    simp only [Bool.and_eq_true, decide_eq_true_eq] at ht
    obtain rfl := hs.of_ne (by decide)
    obtain ⟨rfl, hkseg⟩ := hk.of_isName ht.1
    exact ⟨.arr _ hkseg ht.2, rfl⟩
  next k =>
    obtain _ | ⟨hs, _ | ⟨-, _ | ⟨hm, _ | ⟨-, _ | ⟨hk, _ | _⟩⟩⟩⟩⟩ := h
    obtain rfl := hs.of_ne (by decide)
    obtain rfl := hm.of_ne (by decide)
    obtain ⟨rfl, hkseg⟩ := hk.of_isName ht
    exact ⟨.mapping _ _ hkseg, rfl⟩
  next => cases ht

/-- A key of a field. -/
def IsFieldKey (key : String) : Prop := FieldParts (dotted key)

/-- A key that matches a field is a key of one, and its last name tells whether it is a secret or
    the file of one. -/
theorem isFieldKey_of_find {templates : List Field} (ht : templates ⊆ fields) {key : String}
    {f : Field} (h : findField templates key = some f) : IsFieldKey key ∧
      (f.kind = .secret ↔ (dotted key).getLastD "" ∈ secretNames) ∧
      (f.kind = .secretFile ↔ (dotted key).getLastD "" ∈ secretFileNames) := by
  obtain ⟨hmem, hsuits⟩ := findField_some h
  have hsound := isSound_fields f (ht hmem)
  simp only [Field.isSound, Bool.and_eq_true, decide_eq_true_eq] at hsound
  obtain ⟨⟨⟨htemplate, hsecret⟩, hfile⟩, -⟩ := hsound
  obtain ⟨hparts, hlast⟩ := FieldParts.of_suits htemplate hsuits
  rw [hlast]
  exact ⟨hparts, hsecret ▸ Iff.rfl, hfile ▸ Iff.rfl⟩

/-- A field whose changes have to be confirmed is one key, of names alone. -/
theorem names_of_danger {templates : List Field} (ht : templates ⊆ fields) {key : String}
    {f : Field} (h : findField templates key = some f) (hdanger : f.danger = true) :
    f.kind ≠ .secretFile ∧ ∀ part ∈ dotted key, segment part = .name part := by
  obtain ⟨hmem, hsuits⟩ := findField_some h
  have hsound := isSound_fields f (ht hmem)
  simp only [Field.isSound, hdanger, Bool.not_true, Bool.false_or, Bool.and_eq_true,
    decide_eq_true_eq, List.all_eq_true] at hsound
  obtain ⟨-, hnames, hkind⟩ := hsound
  refine ⟨hkind, fun part hpart => ?_⟩
  generalize dotted f.key = ts at hnames hsuits
  generalize dotted key = ps at hsuits hpart
  induction hsuits with
  | nil => cases hpart
  | cons hs _ ih =>
    obtain rfl | hpart := List.mem_cons.1 hpart
    · exact (hs.of_isName (hnames _ List.mem_cons_self)).2
    · exact ih (fun t ht => hnames t (List.mem_cons_of_mem _ ht)) hpart

/-- A key of names alone is told from every other by its segments. -/
theorem eq_of_segments_eq {key key' : String} (hnames : ∀ part ∈ dotted key, segment part = .name part)
    (h : segments key' = segments key) : key' = key := by
  refine dotted_injective (List.ext_getElem? fun i => ?_)
  have hi : ((dotted key')[i]?).map segment = ((dotted key)[i]?).map segment := by
    simpa [segments] using congrArg (fun l => l[i]?) h
  cases hpart : (dotted key)[i]? with
  | none => simpa [hpart] using hi
  | some part =>
    obtain ⟨part', hpart', hseg⟩ := Option.map_eq_some_iff.1 (hi.trans (by rw [hpart]; rfl))
    rw [hnames part (List.mem_of_getElem? hpart)] at hseg
    have hname : part' = part := by
      unfold segment at hseg
      split at hseg
      · cases hseg
      · exact Segment.name.inj hseg
    rw [hpart', hname]

theorem segment_trackers : segment "trackers" = .name "trackers" := by decide +kernel

theorem segment_arr : segment "arr" = .name "arr" := by decide +kernel

theorem segment_path_mappings : segment "path_mappings" = .name "path_mappings" := by
  decide +kernel

/-- Every key of a field has a place. -/
theorem IsFieldKey.place {key : String} (h : IsFieldKey key) :
    ∃ p, placeOf (segments key) = some p := by
  unfold IsFieldKey at h
  unfold segments
  generalize dotted key = ps at h
  cases h with
  | plain hs hk => exact ⟨_, by simp [hs, hk, placeOf]; rfl⟩
  | tracker x hk =>
    cases hx : segment x <;> exact ⟨_, by simp [segment_trackers, hk, hx, placeOf]; rfl⟩
  | arr x hk =>
    cases hx : segment x <;> exact ⟨_, by simp [segment_arr, hk, hx, placeOf]; rfl⟩
  | mapping x y hk =>
    cases hx : segment x <;> cases hy : segment y <;>
      exact ⟨_, by simp [segment_arr, segment_path_mappings, hk, hx, hy, placeOf]; rfl⟩

/-- No key of a field goes on from another. -/
theorem IsFieldKey.not_prefix {key key' : String} (h : IsFieldKey key) (h' : IsFieldKey key')
    (hne : segments key ≠ segments key') : ¬segments key <+: segments key' := by
  intro hpre
  by_cases hlen : (segments key).length = (segments key').length
  · exact hne (hpre.eq_of_length hlen)
  · unfold IsFieldKey at h h'
    unfold segments at hpre hlen
    generalize dotted key = ps at h hpre hlen
    generalize dotted key' = ps' at h' hpre hlen
    cases h <;> cases h' <;>
      simp_all [segment_trackers, segment_arr, segment_path_mappings]

/-- Keys of the same place have the same last name. -/
theorem IsFieldKey.last_eq {key key' : String} (h : IsFieldKey key) (h' : IsFieldKey key')
    (hseg : segments key = segments key') : (dotted key).getLastD "" = (dotted key').getLastD "" := by
  unfold IsFieldKey at h h'
  unfold segments at hseg
  generalize dotted key = ps at h hseg
  generalize dotted key' = ps' at h' hseg
  cases h <;> cases h' <;> simp_all

theorem IsFieldKey.clear {key key' : String} {p p' : Spot} (h : IsFieldKey key)
    (h' : IsFieldKey key') (hne : segments key ≠ segments key')
    (hp : placeOf (segments key) = some p) (hp' : placeOf (segments key') = some p') :
    Clear p.way p.key p'.way p'.key :=
  clear_of_not_prefix hp hp' (h.not_prefix h' hne) (h'.not_prefix h hne.symm)

end SeedMedic
