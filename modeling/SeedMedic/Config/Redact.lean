/-
  A configuration document as text without its secrets (`config/write.rs`): which strings of the
  document are left in it.
-/
import SeedMedic.Config.Edit
import SeedMedic.Runtime.Service

namespace SeedMedic

open Lib Lib.Toml

/-! ## Redaction -/

/-- The keys that hold secrets, wherever they are. -/
def secretKeys : List String := ["api_key", "password", "auth_token"]

def redacted : String := "<redacted>"

mutual

/-- The secrets of a table blanked out, and of the tables in it. -/
def redactSecrets : List (String × Item) → List (String × Item)
  | [] => []
  | e :: t => redactEntry e :: redactSecrets t

def redactEntry : String × Item → String × Item
  | (key, item) => (key, redactItem key item)

def redactItem (key : String) : Item → Item
  | .str s => if key ∈ secretKeys ∧ s ≠ "" then .str redacted else .str s
  | .table t => .table (redactSecrets t)
  | .inlineTable t => .inlineTable (redactSecrets t)
  | .arrayOfTables rows => .arrayOfTables (redactRows rows)
  -- a list of values is left as it is, also where they are tables
  | item => item

def redactRows : List (List (String × Item)) → List (List (String × Item))
  | [] => []
  | row :: rows => redactSecrets row :: redactRows rows

end

/-- The document as text, with its secrets blanked out. -/
def ConfigDocument.toRedactedToml (syn : TomlSyntax) (d : ConfigDocument) : String :=
  syn.render d.text (redactSecrets d.doc)

/-! ## The strings of a document -/

/-- One step down from a table or a list to a value in it. -/
inductive Hop where
  | key (k : String)
  | row
  /-- To a value of a list of values. -/
  | element
  deriving DecidableEq

mutual

/-- Every string among the values of a table, with the way down to it. -/
def stringsOf : List (String × Item) → List (List Hop × String)
  | [] => []
  | e :: t => stringsOfEntry e ++ stringsOf t

def stringsOfEntry : String × Item → List (List Hop × String)
  | (k, item) => (stringsOfItem item).map fun p => (.key k :: p.1, p.2)

def stringsOfItem : Item → List (List Hop × String)
  | .str s => [([], s)]
  | .table t => stringsOf t
  | .inlineTable t => stringsOf t
  | .arrayOfTables rows => stringsOfRows rows
  | .array xs => stringsOfItems xs
  | _ => []

def stringsOfRows : List (List (String × Item)) → List (List Hop × String)
  | [] => []
  | row :: rows => (stringsOf row).map (fun p => (.row :: p.1, p.2)) ++ stringsOfRows rows

def stringsOfItems : List Item → List (List Hop × String)
  | [] => []
  | x :: xs => (stringsOfItem x).map (fun p => (.element :: p.1, p.2)) ++ stringsOfItems xs

end

/-- Whether a way down ends at a key of secrets and goes through tables and their rows alone. -/
def isCovered : List Hop → Bool
  | [] | .element :: _ => false
  | [.key k] => k ∈ secretKeys
  | .key _ :: trail | .row :: trail => isCovered trail

/-- What is left of a string. -/
def blank (p : List Hop × String) : List Hop × String :=
  if isCovered p.1 = true ∧ p.2 ≠ "" then (p.1, redacted) else p

/-- What is left of a string below a key. -/
def blankBelow (key : String) (p : List Hop × String) : List Hop × String :=
  if isCovered (.key key :: p.1) = true ∧ p.2 ≠ "" then (p.1, redacted) else p

theorem blank_key (key : String) (p : List Hop × String) :
    blank (.key key :: p.1, p.2) = (.key key :: (blankBelow key p).1, (blankBelow key p).2) := by
  unfold blank blankBelow
  split_ifs <;> rfl

theorem blank_row (p : List Hop × String) :
    blank (.row :: p.1, p.2) = (.row :: (blank p).1, (blank p).2) := by
  have hrow : isCovered (.row :: p.1) = isCovered p.1 := rfl
  by_cases h : isCovered p.1 = true ∧ p.2 ≠ ""
  · simp only [blank, hrow, if_pos h]
  · simp only [blank, hrow, if_neg h]

/-- Below a key nothing is different but for a string the key holds itself. -/
theorem blankBelow_eq {key : String} {p : List Hop × String} (h : p.1 ≠ []) :
    blankBelow key p = blank p := by
  obtain ⟨trail, s⟩ := p
  cases trail with
  | nil => exact absurd rfl h
  | cons hop trail =>
    have hkey : isCovered (.key key :: hop :: trail) = isCovered (hop :: trail) := rfl
    simp only [blankBelow, blank, hkey]

theorem blankBelow_element (key : String) (p : List Hop × String) :
    blankBelow key (.element :: p.1, p.2) = (.element :: p.1, p.2) := by
  simp [blankBelow, isCovered]

theorem trail_ne_nil (t : Table) : ∀ p ∈ stringsOf t, p.1 ≠ [] := by
  induction t with
  | nil => simp [stringsOf]
  | cons e t ih =>
    intro p hp
    rw [stringsOf, List.mem_append] at hp
    obtain hp | hp := hp
    · obtain ⟨k, item⟩ := e
      obtain ⟨q, -, rfl⟩ := List.mem_map.1 hp
      exact List.cons_ne_nil _ _
    · exact ih p hp

theorem trail_ne_nil_rows (rows : List Table) : ∀ p ∈ stringsOfRows rows, p.1 ≠ [] := by
  induction rows with
  | nil => simp [stringsOfRows]
  | cons row rows ih =>
    intro p hp
    rw [stringsOfRows, List.mem_append] at hp
    obtain hp | hp := hp
    · obtain ⟨q, -, rfl⟩ := List.mem_map.1 hp
      exact List.cons_ne_nil _ _
    · exact ih p hp

theorem blankBelow_items (key : String) (xs : List Item) :
    (stringsOfItems xs).map (blankBelow key) = stringsOfItems xs := by
  induction xs with
  | nil => rfl
  | cons x xs ih =>
    have hx : ((stringsOfItem x).map fun p => (Hop.element :: p.1, p.2)).map (blankBelow key) =
        (stringsOfItem x).map fun p => (.element :: p.1, p.2) := by
      rw [List.map_map]
      exact List.map_congr_left fun p _ => blankBelow_element key p
    rw [stringsOfItems, List.map_append, ih, hx]

mutual

/-- Redaction leaves every string where it was, and blanks out those that are covered. -/
theorem stringsOf_redactSecrets : ∀ t : List (String × Item),
    stringsOf (redactSecrets t) = (stringsOf t).map blank
  | [] => rfl
  | e :: t => by
    rw [redactSecrets, stringsOf, stringsOf, List.map_append, stringsOfEntry_redactEntry e,
      stringsOf_redactSecrets t]

theorem stringsOfEntry_redactEntry : ∀ e : String × Item,
    stringsOfEntry (redactEntry e) = (stringsOfEntry e).map blank
  | (k, item) => by
    rw [redactEntry, stringsOfEntry, stringsOfEntry, stringsOfItem_redactItem k item, List.map_map,
      List.map_map]
    exact List.map_congr_left fun p _ => (blank_key k p).symm

theorem stringsOfItem_redactItem (key : String) : ∀ item : Item,
    stringsOfItem (redactItem key item) = (stringsOfItem item).map (blankBelow key)
  | .str s => by
    rw [redactItem]
    split_ifs with h
    · simp [stringsOfItem, blankBelow, isCovered, h]
    · have hneg : ¬(isCovered [.key key] = true ∧ s ≠ "") := by simpa [isCovered] using h
      simp only [stringsOfItem, List.map_cons, List.map_nil, blankBelow, if_neg hneg]
  | .table t => by
    rw [redactItem, stringsOfItem, stringsOfItem, stringsOf_redactSecrets t]
    exact List.map_congr_left fun p hp => (blankBelow_eq (trail_ne_nil t p hp)).symm
  | .inlineTable t => by
    rw [redactItem, stringsOfItem, stringsOfItem, stringsOf_redactSecrets t]
    exact List.map_congr_left fun p hp => (blankBelow_eq (trail_ne_nil t p hp)).symm
  | .arrayOfTables rows => by
    rw [redactItem, stringsOfItem, stringsOfItem, stringsOfRows_redactRows rows]
    exact List.map_congr_left fun p hp => (blankBelow_eq (trail_ne_nil_rows rows p hp)).symm
  | .array xs => (blankBelow_items key xs).symm
  | .int _ | .float _ | .bool _ | .datetime _ => rfl

theorem stringsOfRows_redactRows : ∀ rows : List (List (String × Item)),
    stringsOfRows (redactRows rows) = (stringsOfRows rows).map blank
  | [] => rfl
  | row :: rows => by
    rw [redactRows, stringsOfRows, stringsOfRows, List.map_append, stringsOf_redactSecrets row,
      stringsOfRows_redactRows rows, List.map_map, List.map_map]
    exact congrArg (· ++ _) (List.map_congr_left fun p _ => (blank_row p).symm)

end

/-! ## The secrets of a configuration -/

/-- The secrets a configuration says itself. -/
def Config.inlineSecrets (c : Config) : List String :=
  c.server.authToken.value :: (c.downloadClient.map fun d => d.password.value).toList ++
    c.trackers.map (fun t => t.apiKey.value) ++ c.arr.map (fun a => a.apiKey.value)

/-- A string is among the values of a table, or of an item. -/
def Says (t : Table) (v : String) : Prop := ∃ trail, (trail, v) ∈ stringsOf t

def SaysItem (item : Item) (v : String) : Prop := ∃ trail, (trail, v) ∈ stringsOfItem item

variable {host : ConfigHost} {t : Table} {item : Item} {k v : String} {names : List String}

theorem Says.of_mem {e : String × Item} (he : e ∈ t) (h : SaysItem e.2 v) : Says t v := by
  obtain ⟨trail, hv⟩ := h
  induction t with
  | nil => cases he
  | cons e' t ih =>
    obtain rfl | he := List.mem_cons.1 he
    · obtain ⟨k, item⟩ := e
      exact ⟨.key k :: trail, List.mem_append_left _ (List.mem_map.2 ⟨_, hv, rfl⟩)⟩
    · obtain ⟨trail', hv'⟩ := ih he
      exact ⟨trail', List.mem_append_right _ hv'⟩

theorem Says.of_get (hget : t.get k = some item) (h : SaysItem item v) : Says t v := by
  obtain ⟨e, he, rfl⟩ := Option.map_eq_some_iff.1 hget
  exact .of_mem (List.mem_of_find?_eq_some he) h

/-- What is among the values of a table's entry is in the table. -/
theorem Says.exists_entry (h : Says t v) : ∃ e ∈ t, SaysItem e.2 v := by
  obtain ⟨trail, hv⟩ := h
  induction t with
  | nil => cases hv
  | cons e t ih =>
    rw [stringsOf, List.mem_append] at hv
    obtain hv | hv := hv
    · obtain ⟨k, item⟩ := e
      obtain ⟨p, hp, hpv⟩ := List.mem_map.1 hv
      cases hpv
      exact ⟨_, List.mem_cons_self, p.1, hp⟩
    · obtain ⟨e', he', hsays⟩ := ih hv
      exact ⟨e', List.mem_cons_of_mem _ he', hsays⟩

theorem saysItem_of_row {rows : List Table} {row : Table} (hrow : row ∈ rows) (h : Says row v) :
    SaysItem (.arrayOfTables rows) v := by
  obtain ⟨trail, hv⟩ := h
  simp only [SaysItem, stringsOfItem]
  induction rows with
  | nil => cases hrow
  | cons row' rows ih =>
    obtain rfl | hrow := List.mem_cons.1 hrow
    · exact ⟨.row :: trail, List.mem_append_left _ (List.mem_map.2 ⟨_, hv, rfl⟩)⟩
    · obtain ⟨trail', hv'⟩ := ih hrow
      exact ⟨trail', List.mem_append_right _ hv'⟩

theorem saysItem_of_element {xs : List Item} (hx : item ∈ xs) (h : SaysItem item v) :
    SaysItem (.array xs) v := by
  obtain ⟨trail, hv⟩ := h
  simp only [SaysItem, stringsOfItem]
  induction xs with
  | nil => cases hx
  | cons x xs ih =>
    obtain rfl | hx := List.mem_cons.1 hx
    · exact ⟨.element :: trail, List.mem_append_left _ (List.mem_map.2 ⟨_, hv, rfl⟩)⟩
    · obtain ⟨trail', hv'⟩ := ih hx
      exact ⟨trail', List.mem_append_right _ hv'⟩

/-- What a section says is in the item it is written as. -/
theorem saysItem_of_asSection (hsec : asSection names item = some t) (h : Says t v) :
    SaysItem item v := by
  unfold asSection at hsec
  split at hsec
  next => cases hsec; exact h
  next => cases hsec; exact h
  next xs =>
    cases hsec
    obtain ⟨e, he, hsays⟩ := h.exists_entry
    exact saysItem_of_element (List.of_mem_zip he).2 hsays
  next rows =>
    cases hsec
    obtain ⟨e, he, hsays⟩ := h.exists_entry
    obtain ⟨row, hrow, hrow'⟩ := List.mem_map.1 (List.of_mem_zip he).2
    rw [← hrow'] at hsays
    exact saysItem_of_row hrow hsays
  next => cases hsec

/-- A secret that is not empty is written where it is read from. -/
theorem says_of_secret {dflt s : Secret} (h : orDefault decSecret dflt t k = some s)
    (hdflt : dflt.value = "") (hne : s.value ≠ "") : Says t s.value := by
  unfold orDefault at h
  cases hk : t.get k with
  | none =>
    simp only [hk, Option.some.injEq] at h
    exact absurd (h ▸ hdflt) hne
  | some item =>
    simp only [hk, decSecret] at h
    obtain ⟨v, hv, rfl⟩ := Option.map_eq_some_iff.1 h
    refine .of_get hk ⟨[], ?_⟩
    cases item <;> simp_all [Item.asStr, stringsOfItem, Secret.new]

theorem says_of_part {α : Type} {dec : Table → Option α} {dflt a : α}
    (h : part names dec dflt t k = some a) : a = dflt ∨ ∃ t', dec t' = some a ∧
      ∀ v, Says t' v → Says t v := by
  unfold part orDefault at h
  cases hk : t.get k with
  | none => exact .inl (by simpa [hk] using h.symm)
  | some item =>
    simp only [hk] at h
    obtain ⟨t', hsec, hdec⟩ := Option.bind_eq_some_iff.1 h
    exact .inr ⟨t', hdec, fun v hv => .of_get hk (saysItem_of_asSection hsec hv)⟩

theorem says_of_decRows {α : Type} {dec : Table → Option α} {as : List α}
    (h : orDefault (decRows names dec) [] t k = some as) : ∀ a ∈ as, ∃ t', dec t' = some a ∧
      ∀ v, Says t' v → Says t v := by
  intro a ha
  unfold orDefault at h
  cases hk : t.get k with
  | none =>
    simp only [hk, Option.some.injEq] at h
    subst h
    cases ha
  | some item =>
    simp only [hk] at h
    unfold decRows at h
    split at h
    next rows =>
      obtain ⟨row, hrow, hdec⟩ := exists_of_forall₂ (mapM_eq_some.1 h) ha
      exact ⟨row, hdec, fun v hv => .of_get hk (saysItem_of_row hrow hv)⟩
    next xs =>
      obtain ⟨x, hx, hdec⟩ := exists_of_forall₂ (mapM_eq_some.1 h) ha
      obtain ⟨t', hsec, hdec⟩ := Option.bind_eq_some_iff.1 hdec
      exact ⟨t', hdec, fun v hv =>
        .of_get hk (saysItem_of_element hx (saysItem_of_asSection hsec hv))⟩
    next => cases h

/-- Every secret a configuration says itself is a string of the document it was read from. -/
theorem says_of_inlineSecrets {c : Config} (h : Config.decode host t = some c)
    (hv : v ∈ c.inlineSecrets) (hne : v ≠ "") : Says t v := by
  obtain ⟨-, hserver, htrackers, hclient, harr⟩ := Config.decode_eq_some h
  simp only [Config.inlineSecrets, List.cons_append, List.mem_cons, List.mem_append,
    Option.mem_toList, Option.map_eq_some_iff, List.mem_map] at hv
  obtain rfl | (⟨d, hd, rfl⟩ | ⟨tr, htr, rfl⟩) | ⟨a, ha, rfl⟩ := hv
  · obtain hdflt | ⟨t', hdec, hsays⟩ := says_of_part hserver
    · exact absurd (congrArg (fun s : ServerConfig => s.authToken.value) hdflt) hne
    · exact hsays _ (says_of_secret (Config.decode_server hdec).1 rfl hne)
  · obtain hdflt | ⟨t', hdec, hsays⟩ := says_of_part hclient
    · cases hd.symm.trans hdflt
    · obtain ⟨d', hdec', hd'⟩ := Option.map_eq_some_iff.1 hdec
      rw [hd] at hd'
      cases hd'
      exact hsays _ (says_of_secret (Config.decode_downloadClient hdec').1 rfl hne)
  · obtain ⟨t', hdec, hsays⟩ := says_of_decRows htrackers tr htr
    exact hsays _ (says_of_secret (Config.decode_tracker hdec).2.1 rfl hne)
  · obtain ⟨t', hdec, hsays⟩ := says_of_decRows harr a ha
    exact hsays _ (says_of_secret (Config.decode_arr hdec).2.1 rfl hne)

/-! ## What the redacted text says -/

/-- A string of the redacted document is one of the document that is not covered, or what a
    secret is replaced by. -/
theorem says_redactSecrets_iff (hne : v ≠ "") : Says (redactSecrets t) v ↔
    (∃ trail, (trail, v) ∈ stringsOf t ∧ isCovered trail = false) ∨
      (v = redacted ∧ ∃ trail s, (trail, s) ∈ stringsOf t ∧ isCovered trail = true ∧ s ≠ "") := by
  simp only [Says, stringsOf_redactSecrets, List.mem_map]
  constructor
  · rintro ⟨trail, ⟨trail', s⟩, hp, hblank⟩
    unfold blank at hblank
    split_ifs at hblank with hcovered
    · cases hblank
      exact .inr ⟨rfl, _, _, hp, hcovered⟩
    · cases hblank
      exact .inl ⟨_, hp, by simpa [hne] using hcovered⟩
  · rintro (⟨trail, hp, hcovered⟩ | ⟨rfl, trail, s, hp, hcovered⟩)
    · exact ⟨trail, _, hp, by simp [blank, hcovered]⟩
    · exact ⟨trail, _, hp, by simp only [blank, if_pos hcovered]⟩

/-- A string is among the values of a text, as it is read. -/
def TextSays (syn : TomlSyntax) (text v : String) : Prop := ∃ t, syn.parse text = .ok t ∧ Says t v

/-- A secret is not among the values of the redacted text exactly where it is not what secrets are
    replaced by, and everything that is the same in the document is a secret that is reached
    through tables and their rows; as long as a text that is written says what its tree does. -/
theorem redacted_text_hides_iff {syn : TomlSyntax} {d : ConfigDocument} {c : Config}
    (hdecode : Config.decode host d.doc = some c)
    (hwritten : ∀ v, TextSays syn (d.toRedactedToml syn) v ↔ Says (redactSecrets d.doc) v) :
    ∀ v ∈ c.inlineSecrets, v ≠ "" → (¬TextSays syn (d.toRedactedToml syn) v ↔
      v ≠ redacted ∧ ∀ trail, (trail, v) ∈ stringsOf d.doc → isCovered trail = true) := by
  intro v hv hne
  obtain ⟨trail, hsays⟩ := says_of_inlineSecrets hdecode hv hne
  rw [hwritten, says_redactSecrets_iff hne]
  constructor
  · intro hno
    have hall : ∀ trail, (trail, v) ∈ stringsOf d.doc → isCovered trail = true := by
      intro trail' hp
      by_contra hcovered
      exact hno (.inl ⟨trail', hp, by simpa using hcovered⟩)
    exact ⟨fun hv => hno (.inr ⟨hv, trail, v, hsays, hall trail hsays, hne⟩), hall⟩
  · rintro ⟨hred, hall⟩ (⟨trail', hp, hcovered⟩ | ⟨hv, -⟩)
    · rw [hall trail' hp] at hcovered
      cases hcovered
    · exact hred hv

/-- Reading and writing one text. -/
def TomlSyntax.only (text : String) (tree : Table) : TomlSyntax :=
  .known [(text, tree)] fun _ => text

theorem textSays_only (text : String) (tree : Table) :
    TextSays (.only text tree) text v ↔ Says tree v := by
  have hparse : (TomlSyntax.only text tree).parse text = .ok tree := by
    simp [TomlSyntax.only, TomlSyntax.known]
  constructor
  · rintro ⟨t', ht', hsays⟩
    cases hparse.symm.trans ht'
    exact hsays
  · exact fun hsays => ⟨tree, hparse, hsays⟩

/-- A tracker with its key. -/
def keyedTracker : Table := [("id", .str "demo"), ("kind", .str "fake"), ("api_key", .str "shh")]

/-- The tracker as a table of the file, and as a value of a list. -/
def tableTracker : ConfigDocument := .ofTree [("trackers", .arrayOfTables [keyedTracker])]

def inlineTracker : ConfigDocument := .ofTree [("trackers", .array [.inlineTable keyedTracker])]

/-- The key of a tracker is hidden where the tracker is a table. -/
theorem table_tracker_hidden : ∃ c : Config, Config.decode .plain tableTracker.doc = some c ∧
    "shh" ∈ c.inlineSecrets ∧
      let syn := TomlSyntax.only
        "[[trackers]]\nid = \"demo\"\nkind = \"fake\"\napi_key = \"<redacted>\"\n"
        (redactSecrets tableTracker.doc)
      ¬TextSays syn (tableTracker.toRedactedToml syn) "shh" := by
  have hsecret : (Config.decode .plain tableTracker.doc).map
      (fun c => decide ("shh" ∈ c.inlineSecrets)) = some true := by decide +kernel
  obtain ⟨c, hc, hmem⟩ := Option.map_eq_some_iff.1 hsecret
  have hcovered : ∀ p ∈ stringsOf tableTracker.doc, p.2 = "shh" → isCovered p.1 = true := by
    decide +kernel
  exact ⟨c, hc, by simpa using hmem,
    (redacted_text_hides_iff hc (fun v => textSays_only _ _) "shh" (by simpa using hmem)
      (by decide)).2 ⟨by decide, fun trail h => hcovered _ h rfl⟩⟩

/-- The key of a tracker is shown where the tracker is a value of a list. -/
theorem inline_tracker_shown : ¬∀ (host : ConfigHost) (syn : TomlSyntax) (d : ConfigDocument)
    (c : Config), Config.decode host d.doc = some c →
      (∀ v, TextSays syn (d.toRedactedToml syn) v ↔ Says (redactSecrets d.doc) v) →
        ∀ v ∈ c.inlineSecrets, v ≠ "" → ¬TextSays syn (d.toRedactedToml syn) v := by
  intro h
  have hsecret : (Config.decode .plain inlineTracker.doc).map
      (fun c => decide ("shh" ∈ c.inlineSecrets)) = some true := by decide +kernel
  obtain ⟨c, hc, hmem⟩ := Option.map_eq_some_iff.1 hsecret
  let syn := TomlSyntax.only
    "trackers = [\x7b id = \"demo\", kind = \"fake\", api_key = \"shh\" \x7d]\n"
    (redactSecrets inlineTracker.doc)
  have hshown : ∃ p ∈ stringsOf (redactSecrets inlineTracker.doc), p.2 = "shh" := by
    decide +kernel
  obtain ⟨⟨trail, _⟩, hp, rfl⟩ := hshown
  exact h .plain syn inlineTracker c hc (fun v => textSays_only _ _) "shh" (by simpa using hmem)
    (by decide) ((textSays_only _ _).2 ⟨trail, hp⟩)

end SeedMedic
