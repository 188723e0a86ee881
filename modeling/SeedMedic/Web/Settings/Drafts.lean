/-
  The edits a submitted page makes of a document: each value says what it does by the document as
  it was before all of them, and what the last of them writes at a key is read there.
-/
import SeedMedic.Runtime.Service
import SeedMedic.Web.Settings.Save

namespace SeedMedic

open Lib Lib.Toml

/-! ## Edits -/

/-- The way to the table a key is in. -/
def wayTo (key : String) : List Step := ((placeOf (segments key)).map (·.way)).getD []

def Parsed.writes : Parsed → Bool
  | set _ | setArray _ => true
  | remove | unchanged => false

/-- What a value leaves at its key of what was there. -/
def Parsed.leaves (old : Option Item) : Parsed → Option Item
  | remove => none
  | set value => some value
  | setArray values => some (.array (values.map .str))
  | unchanged => old

/-- What edits leave at a key of what was there. -/
def leavesAt (key : String) : List (String × Parsed) → Option Item → Option Item
  | [], old => old
  | (k, parsed) :: es, old =>
    leavesAt key es (if segments k = segments key then parsed.leaves old else old)

/-- Edits one after the other; none where the code panics. -/
def runEdits (room : ℕ) : List (String × Parsed) → ConfigDocument → Option ConfigDocument
  | [], doc => some doc
  | (key, parsed) :: es, doc => (applyParsed room doc key parsed).bind (runEdits room es)

section
variable (host : ConfigHost) (before : Config) (form : Submitted) (templates : List Field)
  (skip : String → Bool)

/-- The values that are looked at, with their fields: those before the first key that is no field
    of the page. -/
def reached : List (String × String) → List (Field × String × String)
  | [] => []
  | (key, value) :: values =>
    if skip key then reached values
    else
      match findField templates key with
      | none => []
      | some f => (f, key, value) :: reached values

/-- What a value that is looked at says to do to the document. -/
def editOf (doc : ConfigDocument) (r : Field × String × String) : Option (String × Parsed) :=
  (judge host before form doc r.1 r.2.1 r.2.2).toOption.map fun parsed => (r.2.1, parsed)

/-- What the values that are looked at say to do to the document. -/
def edits (doc : ConfigDocument) (values : List (String × String)) : List (String × Parsed) :=
  (reached templates skip values).filterMap (editOf host before form doc)

end

/-! ## One edit -/

variable {host : ConfigHost} {before : Config} {form : Submitted} {templates : List Field}
  {skip : String → Bool} {room : ℕ} {doc doc' : ConfigDocument} {key key' : String}
  {parsed : Parsed}

/-- An edit leaves what it says at its key. -/
theorem get_applyParsed_self (h : applyParsed room doc key parsed = some doc') :
    doc'.get key = parsed.leaves (doc.get key) := by
  cases parsed with
  | remove =>
    cases h
    exact ConfigDocument.get_remove_self
  | set value => exact ConfigDocument.get_set_self h
  | setArray values => exact ConfigDocument.get_set_self h
  | unchanged =>
    cases h
    rfl

/-- An edit of another key is not seen. -/
theorem get_applyParsed_of_ne (hkey : IsFieldKey key) (hkey' : IsFieldKey key')
    (hne : segments key ≠ segments key') (h : applyParsed room doc key parsed = some doc') :
    doc'.get key' = doc.get key' := by
  obtain ⟨p, hp⟩ := hkey.place
  obtain ⟨p', hp'⟩ := hkey'.place
  have hclear := hkey.clear hkey' hne hp hp'
  cases parsed with
  | remove =>
    cases h
    exact ConfigDocument.get_remove_of_clear hp hp' hclear
  | set value => exact ConfigDocument.get_set_of_clear hp hp' hclear h
  | setArray values => exact ConfigDocument.get_set_of_clear hp hp' hclear h
  | unchanged =>
    cases h
    rfl

/-- Keys of one place are read alike. -/
theorem get_congr (h : segments key = segments key') : doc.get key = doc.get key' := by
  rw [ConfigDocument.get, ConfigDocument.get, h]

/-- What is read at a key after an edit. -/
theorem get_applyParsed (hkey : IsFieldKey key) (hkey' : IsFieldKey key')
    (h : applyParsed room doc key parsed = some doc') : doc'.get key' =
      if segments key = segments key' then parsed.leaves (doc.get key') else doc.get key' := by
  split_ifs with hseg
  · rw [← get_congr hseg, ← get_congr hseg, get_applyParsed_self h]
  · exact get_applyParsed_of_ne hkey hkey' hseg h

/-- The edit of one key does not change what the value of another says. -/
theorem judge_applyParsed (ht : templates ⊆ fields) (hkey : IsFieldKey key) {f : Field}
    (hf : findField templates key' = some f) (hne : key ≠ key')
    (h : applyParsed room doc key parsed = some doc') (value : String) :
    judge host before form doc' f key' value = judge host before form doc f key' value := by
  have hkey' := (isFieldKey_of_find ht hf).1
  cases hdanger : f.danger with
  | false => simp only [judge, hdanger, Bool.false_and, Bool.false_eq_true, if_false]
  | true =>
    have hseg : segments key ≠ segments key' := fun hseg =>
      hne (eq_of_segments_eq (names_of_danger ht hf hdanger).2 hseg)
    have hget : doc'.get key' = doc.get key' := get_applyParsed_of_ne hkey hkey' hseg h
    have hcurrent : currentAsString doc' key' f.kind = currentAsString doc key' f.kind := by
      simp only [currentAsString, hget]
    simp only [judge, hcurrent]

/-- Every value that is looked at has its field. -/
theorem findField_of_reached {values : List (String × String)} {r : Field × String × String}
    (h : r ∈ reached templates skip values) :
    findField templates r.2.1 = some r.1 ∧ (r.2.1, r.2.2) ∈ values ∧ skip r.2.1 = false := by
  induction values with
  | nil => cases h
  | cons p values ih =>
    cases hskip : skip p.1 with
    | true =>
      obtain ⟨hf, hmem, hskip'⟩ := ih (by simpa [reached, hskip] using h)
      exact ⟨hf, List.mem_cons_of_mem _ hmem, hskip'⟩
    | false =>
      cases hf : findField templates p.1 with
      | none => simp [reached, hskip, hf] at h
      | some f =>
        have hr : r = (f, p.1, p.2) ∨ r ∈ reached templates skip values := by
          simpa [reached, hskip, hf] using h
        obtain rfl | hr := hr
        · exact ⟨hf, List.mem_cons_self, hskip⟩
        · obtain ⟨hf', hmem, hskip'⟩ := ih hr
          exact ⟨hf', List.mem_cons_of_mem _ hmem, hskip'⟩

theorem wayTo_eq {p : Spot} (hp : placeOf (segments key) = some p) : wayTo key = p.way := by
  simp [wayTo, hp]

/-- A change of a key's table leaves every way that fitted and agrees with the way to it. -/
theorem fits_edit_of_keys {f : Table → Table} {p p' : Spot} (hkey : IsFieldKey key)
    (hkey' : IsFieldKey key') (hp : placeOf (segments key) = some p)
    (hp' : placeOf (segments key') = some p') (hf : OnlyAt p.key f) {t : Table}
    (hfits : Fits room p.way t) :
    Fits room p'.way (edit f p.way t) ↔ Fits room p'.way t ∧ Agree p.way p'.way := by
  by_cases hseg : segments key = segments key'
  · obtain rfl : p = p' := Option.some.inj (hp.symm.trans ((congrArg placeOf hseg).trans hp'))
    exact ⟨fun _ => ⟨hfits, agree_refl _⟩, fun _ => fits_edit_self hfits⟩
  · exact fits_edit hf (hkey.clear hkey' hseg hp hp') hfits

/-- A way fits after an edit where it did before and, if something was written, agrees with the
    way to it. -/
theorem fits_applyParsed (hkey : IsFieldKey key) (hkey' : IsFieldKey key')
    (h : applyParsed room doc key parsed = some doc') : Fits room (wayTo key') doc'.doc ↔
      Fits room (wayTo key') doc.doc ∧
        (parsed.writes = true → Agree (wayTo key) (wayTo key')) := by
  obtain ⟨p, hp⟩ := hkey.place
  obtain ⟨p', hp'⟩ := hkey'.place
  rw [wayTo_eq hp, wayTo_eq hp']
  have hwritten : ∀ {value : Item}, doc.set room key value = some doc' →
      (Fits room p'.way doc'.doc ↔ Fits room p'.way doc.doc ∧ Agree p.way p'.way) := by
    intro value hset
    obtain ⟨hfits, rfl⟩ := (ConfigDocument.set_eq_some_iff hp).1 hset
    exact fits_edit_of_keys hkey hkey' hp hp' (onlyAt_insert _ _) hfits
  cases parsed with
  | remove =>
    cases h
    obtain ⟨-, heq⟩ | ⟨hreach, heq⟩ := ConfigDocument.remove_cases (d := doc) hp
    · simp [heq, Parsed.writes]
    · have hfits : Fits room p.way doc.doc := fits_of_reach hreach
      rw [heq, fits_edit_of_keys hkey hkey' hp hp' (onlyAt_remove _) hfits]
      -- a way that is there agrees with every way that fits
      exact ⟨fun h => ⟨h.1, fun hw => by cases hw⟩, fun h => ⟨h.1, agree_of_reach hreach h.1⟩⟩
  | set value => simpa [Parsed.writes] using hwritten h
  | setArray values => simpa [Parsed.writes] using hwritten h
  | unchanged =>
    cases h
    simp [Parsed.writes]

theorem applyParsed_ne_none_iff (hkey : IsFieldKey key) : applyParsed room doc key parsed ≠ none ↔
    (parsed.writes = true → Fits room (wayTo key) doc.doc) := by
  obtain ⟨p, hp⟩ := hkey.place
  rw [wayTo_eq hp]
  cases parsed with
  | remove => simp [applyParsed, Parsed.writes]
  | set value => simpa [applyParsed, Parsed.writes] using ConfigDocument.set_ne_none_iff hp
  | setArray values =>
    have hset : doc.setArray room key values ≠ none ↔ Fits room p.way doc.doc :=
      ConfigDocument.set_ne_none_iff hp
    simpa [applyParsed, Parsed.writes] using hset
  | unchanged => simp [applyParsed, Parsed.writes]

/-! ## All edits -/

variable {es : List (String × Parsed)}

/-- What is read at a key after edits is what they leave there. -/
theorem get_runEdits (hkeys : ∀ e ∈ es, IsFieldKey e.1) (hkey : IsFieldKey key)
    (h : runEdits room es doc = some doc') : doc'.get key = leavesAt key es (doc.get key) := by
  induction es generalizing doc with
  | nil =>
    cases h
    rfl
  | cons e es ih =>
    obtain ⟨doc₁, hdoc₁, h⟩ := Option.bind_eq_some_iff.1 h
    rw [ih (fun e he => hkeys e (List.mem_cons_of_mem _ he)) h,
      get_applyParsed (hkeys _ List.mem_cons_self) hkey hdoc₁]
    rfl

/-- The edits that write something. -/
def writtenKeys (es : List (String × Parsed)) : List String :=
  (es.filter fun e => e.2.writes).map (·.1)

/-- Edits are made exactly where the ways to what they write fit the document and agree. -/
theorem runEdits_ne_none_iff (hkeys : ∀ e ∈ es, IsFieldKey e.1) : runEdits room es doc ≠ none ↔
    (∀ key ∈ writtenKeys es, Fits room (wayTo key) doc.doc) ∧
      (writtenKeys es).Pairwise fun key key' => Agree (wayTo key) (wayTo key') := by
  induction es generalizing doc with
  | nil => simp [runEdits, writtenKeys]
  | cons e es ih =>
    have hkey : IsFieldKey e.1 := hkeys e List.mem_cons_self
    have hkeys' : ∀ e ∈ es, IsFieldKey e.1 := fun e he => hkeys e (List.mem_cons_of_mem _ he)
    have hrun : runEdits room (e :: es) doc ≠ none ↔ ∃ doc', applyParsed room doc e.1 e.2 = some doc' ∧
        runEdits room es doc' ≠ none := by
      cases h : applyParsed room doc e.1 e.2 <;> simp [runEdits, h]
    have hmem : ∀ key ∈ writtenKeys es, IsFieldKey key := by
      intro key hkey
      obtain ⟨e', he', rfl⟩ := List.mem_map.1 hkey
      exact hkeys' e' (List.mem_filter.1 he').1
    have happly : applyParsed room doc e.1 e.2 ≠ none ↔ _ := applyParsed_ne_none_iff hkey
    cases hw : e.2.writes with
    | false =>
      have hwrites : writtenKeys (e :: es) = writtenKeys es := by simp [writtenKeys, hw]
      obtain ⟨doc', hdoc'⟩ := Option.ne_none_iff_exists'.1 (happly.2 (by simp [hw]))
      rw [hrun, hwrites]
      simp only [hdoc', Option.some.injEq, exists_eq_left', ih hkeys']
      refine and_congr_left' (forall₂_congr fun key hkey' => ?_)
      rw [fits_applyParsed hkey (hmem key hkey') hdoc']
      simp [hw]
    | true =>
      have hwrites : writtenKeys (e :: es) = e.1 :: writtenKeys es := by simp [writtenKeys, hw]
      rw [hrun, hwrites, List.pairwise_cons, List.forall_mem_cons]
      constructor
      · rintro ⟨doc', hdoc', hrest⟩
        obtain ⟨hfits, hpair⟩ := (ih hkeys').1 hrest
        have hboth := fun key hkey' =>
          (fits_applyParsed hkey (hmem key hkey') hdoc').1 (hfits key hkey')
        have hne : applyParsed room doc e.1 e.2 ≠ none := by simp [hdoc']
        exact ⟨⟨happly.1 hne hw, fun key hkey' => (hboth key hkey').1⟩,
          fun key hkey' => (hboth key hkey').2 hw, hpair⟩
      · rintro ⟨⟨hfit, hfits⟩, hagree, hpair⟩
        obtain ⟨doc', hdoc'⟩ := Option.ne_none_iff_exists'.1 (happly.2 fun _ => hfit)
        refine ⟨doc', hdoc', (ih hkeys').2 ⟨fun key hkey' => ?_, hpair⟩⟩
        exact (fits_applyParsed hkey (hmem key hkey') hdoc').2
          ⟨hfits key hkey', fun _ => hagree key hkey'⟩

/-- What the values that are left say is not changed by the edit of a key that is not among them. -/
theorem edits_applyParsed (ht : templates ⊆ fields) (hkey : IsFieldKey key)
    {values : List (String × String)} (hfresh : key ∉ values.map (·.1))
    (h : applyParsed room doc key parsed = some doc') :
    edits host before form templates skip doc' values =
      edits host before form templates skip doc values := by
  refine List.filterMap_congr fun r hr => ?_
  obtain ⟨hf, hmem, -⟩ := findField_of_reached hr
  have hne : key ≠ r.2.1 := fun hkey => hfresh (hkey ▸ List.mem_map_of_mem hmem)
  simp only [editOf, judge_applyParsed ht hkey hf hne h]

/-- The draft is what the edits make of the document, as they are said by the document itself. -/
theorem applyValues_map (ht : templates ⊆ fields) {values : List (String × String)}
    (hnodup : (values.map (·.1)).Nodup) (errors : FieldErrors) :
    (applyValues host before form room templates skip values doc errors).map (·.1) =
      runEdits room (edits host before form templates skip doc values) doc := by
  induction values generalizing doc errors with
  | nil => rfl
  | cons p values ih =>
    obtain ⟨key, value⟩ := p
    obtain ⟨hfresh, hnodup⟩ := List.nodup_cons.1 hnodup
    by_cases hskip : skip key = true
    · simpa [applyValues, edits, reached, hskip] using ih hnodup errors
    · cases hf : findField templates key with
      | none => simp [applyValues, edits, reached, hskip, hf, runEdits]
      | some f =>
        cases hjudge : judge host before form doc f key value with
        | error message =>
          simpa [applyValues, edits, reached, hskip, hf, editOf, hjudge, Except.toOption] using
            ih hnodup (errors.insert key message)
        | ok parsed =>
          have hkey := (isFieldKey_of_find ht hf).1
          have hedits : edits host before form templates skip doc ((key, value) :: values) =
              (key, parsed) :: edits host before form templates skip doc values := by
            simp [edits, reached, hskip, hf, editOf, hjudge, Except.toOption]
          rw [hedits]
          simp only [applyValues, hskip, hf, hjudge, runEdits]
          cases hdoc : applyParsed room doc key parsed with
          | none => rfl
          | some doc' =>
            have hrest : edits host before form templates skip doc' values =
                edits host before form templates skip doc values :=
              edits_applyParsed ht hkey hfresh hdoc
            rw [← hrest]
            exact ih hnodup errors

/-- Every edit is one of a key of a field. -/
theorem isFieldKey_of_edits (ht : templates ⊆ fields) {values : List (String × String)} :
    ∀ e ∈ edits host before form templates skip doc values, IsFieldKey e.1 := by
  intro e he
  obtain ⟨r, hr, hedit⟩ := List.mem_filterMap.1 he
  obtain ⟨parsed, -, rfl⟩ := Option.map_eq_some_iff.1 hedit
  exact (isFieldKey_of_find ht (findField_of_reached hr).1).1

/-! ## Submissions -/

/-- Every key stands once. -/
theorem nodup_lastValueWins (pairs : List (String × String)) :
    ((lastValueWins pairs).map (·.1)).Nodup := by
  induction pairs using List.reverseRecOn with
  | nil => exact List.nodup_nil
  | append_singleton pairs p ih =>
    have hstep : lastValueWins (pairs ++ [p]) =
        if p.1 ∈ (lastValueWins pairs).map (·.1) then
          (lastValueWins pairs).map fun e => if e.1 = p.1 then p else e
        else lastValueWins pairs ++ [p] := by
      rw [lastValueWins, List.foldl_append]
      rfl
    rw [hstep]
    split_ifs with hmem
    · have hkeys : ((lastValueWins pairs).map fun e => if e.1 = p.1 then p else e).map (·.1) =
          (lastValueWins pairs).map (·.1) := by
        rw [List.map_map]
        refine List.map_congr_left fun e _ => ?_
        by_cases he : e.1 = p.1 <;> simp [he]
      rwa [hkeys]
    · rw [List.map_append, List.nodup_append]
      refine ⟨ih, List.nodup_singleton _, fun a ha b hb hab => hmem ?_⟩
      obtain rfl : b = p.1 := List.mem_singleton.1 hb
      exact hab ▸ ha

theorem values_ofPairs_sublist (pairs : List (String × String)) :
    (Submitted.ofPairs pairs).values.Sublist (lastValueWins pairs) := by
  unfold Submitted.ofPairs
  induction lastValueWins pairs with
  | nil => exact List.Sublist.slnil
  | cons p ps ih =>
    rw [List.foldr_cons]
    split
    · split_ifs
      · exact ih.cons _
      · exact ih.cons _
    · split
      · split_ifs
        · exact ih.cons _
        · exact ih.cons _
      · exact ih.cons_cons _

theorem nodup_values_ofPairs (pairs : List (String × String)) :
    ((Submitted.ofPairs pairs).values.map (·.1)).Nodup :=
  ((values_ofPairs_sublist pairs).map _).nodup (nodup_lastValueWins pairs)

/-- What the pairs of a submission say to do to a document. -/
def submittedEdits (host : ConfigHost) (doc : ConfigDocument) (before : Config)
    (templates : List Field) (pairs : List (String × String)) (skip : String → Bool) :
    List (String × Parsed) :=
  edits host before (.ofPairs pairs) templates skip doc (Submitted.ofPairs pairs).values

variable {pairs : List (String × String)}

/-- The draft of a submission is what its edits make of the document. -/
theorem applyPairs_map (ht : templates ⊆ fields) :
    (applyPairs host room doc before templates pairs skip).map (·.1) =
      runEdits room (submittedEdits host doc before templates pairs skip) doc :=
  applyValues_map ht (nodup_values_ofPairs pairs) []

/-- A submission is applied exactly where every way to what it writes fits the document, tables
    where the key has a name and rows where it has a number, and the ways agree. -/
theorem applyPairs_returns_iff (ht : templates ⊆ fields) :
    applyPairs host room doc before templates pairs skip ≠ none ↔
      (∀ key ∈ writtenKeys (submittedEdits host doc before templates pairs skip),
        Fits room (wayTo key) doc.doc) ∧
      (writtenKeys (submittedEdits host doc before templates pairs skip)).Pairwise fun key key' =>
        Agree (wayTo key) (wayTo key') := by
  have hrun : runEdits room (submittedEdits host doc before templates pairs skip) doc ≠ none ↔ _ :=
    runEdits_ne_none_iff (isFieldKey_of_edits ht)
  rw [← applyPairs_map ht, ne_eq, Option.map_eq_none_iff] at hrun
  exact hrun

/-- In a new file a section is made where it is missing. -/
theorem base_path_applied : applyPairs .plain 0 (.ofTree []) .default fields
    [("server.base_path", "/seedmedic")] (fun _ => false) ≠ none := by
  refine (applyPairs_returns_iff (List.Subset.refl fields)).2 ?_
  have hwrites : writtenKeys (submittedEdits .plain (.ofTree []) .default fields
      [("server.base_path", "/seedmedic")] fun _ => false) = ["server.base_path"] := by
    decide +kernel
  have hway : wayTo "server.base_path" = [.sub "server"] := by decide +kernel
  rw [hwrites]
  simp [hway, Fits, Step.Sits, ConfigDocument.ofTree, Table.get]

/-- The document of a file with one tracker. -/
def oneTracker : ConfigDocument :=
  .ofTree [("trackers", .arrayOfTables [[("id", .str "demo"), ("kind", .str "fake")]])]

/-- A name where the number of a row belongs brings the code down. -/
theorem named_row_panics : ¬∀ (host : ConfigHost) (room : ℕ) (doc : ConfigDocument)
    (before : Config) (templates : List Field) (pairs : List (String × String))
    (skip : String → Bool), templates ⊆ fields → (Config.decode host doc.doc).isSome →
      applyPairs host room doc before templates pairs skip ≠ none := by
  intro h
  have hpanics : (applyPairs .plain 1 oneTracker .default (fieldsFor ["trackers.*"])
      [("trackers.x.id", "other")] fun _ => false).isNone = true := by decide +kernel
  exact h .plain 1 oneTracker .default (fieldsFor ["trackers.*"]) [("trackers.x.id", "other")]
    (fun _ => false) (fieldsFor_subset _) (by decide +kernel) (Option.isNone_iff_eq_none.1 hpanics)

end SeedMedic
