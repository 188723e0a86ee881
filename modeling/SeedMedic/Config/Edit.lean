/-
  Reading and writing one key of a configuration document (`config/write.rs`).
-/
import SeedMedic.Config.File
import SeedMedic.Lib.Text
import SeedMedic.Lib.TomlPath

namespace SeedMedic

open Lib Lib.Toml

/-! ## Dotted keys -/

/-- The parts of a dotted key. -/
def dotted (key : String) : List String := (key.toList.splitOn '.').map String.ofList

/-- The key of some parts. -/
def undotted (parts : List String) : String :=
  String.ofList (['.'].intercalate (parts.map String.toList))

theorem dotted_undotted {parts : List String} (h : ∀ part ∈ parts, '.' ∉ part.toList)
    (hne : parts ≠ []) : dotted (undotted parts) = parts := by
  have hsplit : (['.'].intercalate (parts.map String.toList)).splitOn '.' =
      parts.map String.toList := by
    refine List.splitOn_intercalate '.' (fun l hl => ?_) (by simpa using hne)
    obtain ⟨part, hpart, rfl⟩ := List.mem_map.1 hl
    exact h part hpart
  simp [dotted, undotted, hsplit, Function.comp_def]

/-- No part of a key has a full stop in it. -/
theorem not_mem_dotted {key part : String} (h : part ∈ dotted key) : '.' ∉ part.toList := by
  have hsplit : ∀ (cs : List Char), ∀ l ∈ cs.splitOn '.', '.' ∉ l := by
    intro cs
    induction cs with
    | nil => simp
    | cons c cs ih =>
      intro l hl
      rw [List.splitOn_cons_eq_if_modifyHead] at hl
      split at hl
      next =>
        obtain rfl | hl := List.mem_cons.1 hl
        · exact List.not_mem_nil
        · exact ih l hl
      next hc =>
        cases hcs : cs.splitOn '.' with
        | nil => exact absurd hcs (List.splitOn_ne_nil _ _)
        | cons l' ls =>
          rw [hcs, List.modifyHead_cons] at hl
          obtain rfl | hl := List.mem_cons.1 hl
          · have hl' := ih l' (hcs ▸ List.mem_cons_self)
            have hne : '.' ≠ c := fun he => hc (beq_iff_eq.2 he.symm)
            exact List.not_mem_cons_of_ne_of_not_mem hne hl'
          · exact ih l (hcs ▸ List.mem_cons_of_mem _ hl)
  obtain ⟨l, hl, rfl⟩ := List.mem_map.1 h
  simpa using hsplit _ l hl

/-- The number a text spells, as one of the machine's size. -/
def parseUsize (s : String) : Option ℕ := fromStrRadix 10 (2 ^ 64 - 1) s.toList

/-- A part of a key: a row where it is a number. -/
def segment (part : String) : Segment :=
  match parseUsize part with
  | some i => .index i
  | none => .name part

/-- A key is its parts with full stops between them. -/
theorem dotted_injective : Function.Injective dotted := by
  intro key key' h
  have hparts : key.toList.splitOn '.' = key'.toList.splitOn '.' :=
    List.map_injective_iff.2 (fun _ _ => String.ofList_injective) h
  have hkey := congrArg (['.'].intercalate) hparts
  rw [List.intercalate_splitOn, List.intercalate_splitOn] at hkey
  exact String.toList_inj.1 hkey

def segments (key : String) : List Segment := (dotted key).map segment

namespace ConfigDocument

variable (room : ℕ)

/-- What the document has at a key. -/
def get (d : ConfigDocument) (key : String) : Option Item :=
  (placeOf (segments key)).bind fun p => (reach p.way d.doc).bind (·.get p.key)

/-- Write a value at a key, making the tables and rows that are missing on the way; none where the
    code panics, or `room` rows are not enough. -/
def set (d : ConfigDocument) (key : String) (value : Item) : Option ConfigDocument :=
  (placeOf (segments key)).bind fun p =>
    (vivify room (·.insert p.key value) p.way d.doc).map fun doc => { d with doc }

def setArray (d : ConfigDocument) (key : String) (values : List String) : Option ConfigDocument :=
  d.set room key (.array (values.map .str))

/-- Take a key out, where it is there. -/
def remove (d : ConfigDocument) (key : String) : ConfigDocument :=
  match placeOf (segments key) with
  | none => d
  | some p => { d with doc := alter (·.remove p.key) p.way d.doc }

/-! ## Rows -/

/-- A blank row behind those of a section, and its number; none where the code panics. -/
def pushRow (d : ConfigDocument) (name : String) : Option (ConfigDocument × ℕ) :=
  ((d.doc.get name).getD (.arrayOfTables [])).asArrayOfTables.map fun rows =>
    ({ d with doc := d.doc.insert name (.arrayOfTables (rows ++ [[]])) }, rows.length)

def rowCount (d : ConfigDocument) (name : String) : ℕ :=
  ((d.doc.get name).bind Item.asArrayOfTables).elim 0 List.length

/-- Take a row out of a section; none where the code panics. -/
def removeRow (d : ConfigDocument) (name : String) (index : ℕ) : Option ConfigDocument :=
  match (d.doc.get name).bind Item.asArrayOfTables with
  | none => some d
  | some rows =>
    if index < rows.length then
      some { d with doc := d.doc.insert name (.arrayOfTables (rows.eraseIdx index)) }
    else none

/-- A document with a tree. -/
def ofTree (tree : Table) : ConfigDocument := ⟨⟨[]⟩, "", tree, true, none, none⟩

/-! ## What a write leaves -/

variable {room} {d d' : ConfigDocument} {key key' : String} {p p' : Spot} {value : Item}

theorem get_eq (hp : placeOf (segments key) = some p) :
    d.get key = (there p.way d.doc).get p.key := by
  rw [get, hp, Option.bind_some, reach_bind_get]

theorem set_eq_some_iff (hp : placeOf (segments key) = some p) : d.set room key value = some d' ↔
    Fits room p.way d.doc ∧ d' = { d with doc := edit (·.insert p.key value) p.way d.doc } := by
  simp only [set, hp, Option.bind_some, Option.map_eq_some_iff, vivify_eq_some_iff]
  constructor
  · rintro ⟨doc, ⟨hfits, rfl⟩, rfl⟩
    exact ⟨hfits, rfl⟩
  · rintro ⟨hfits, rfl⟩
    exact ⟨_, ⟨hfits, rfl⟩, rfl⟩

/-- A value can be written exactly where the way to it fits the document. -/
theorem set_ne_none_iff (hp : placeOf (segments key) = some p) :
    d.set room key value ≠ none ↔ Fits room p.way d.doc := by
  rw [Option.ne_none_iff_exists']
  simp [set_eq_some_iff hp]

/-- What is written at a key is read there. -/
theorem get_set_self (hset : d.set room key value = some d') : d'.get key = some value := by
  cases hp : placeOf (segments key) with
  | none => simp [set, hp] at hset
  | some p =>
    obtain ⟨-, rfl⟩ := (set_eq_some_iff hp).1 hset
    rw [get_eq hp, there_edit, Table.get_insert_self]

theorem get_set_of_clear (hp : placeOf (segments key) = some p)
    (hp' : placeOf (segments key') = some p') (hclear : Clear p.way p.key p'.way p'.key)
    (hset : d.set room key value = some d') : d'.get key' = d.get key' := by
  obtain ⟨hfits, rfl⟩ := (set_eq_some_iff hp).1 hset
  rw [get_eq hp', get_eq hp', get_there_edit (onlyAt_insert _ _) hclear hfits]

/-- Taking a key out is a change of the table it is in, or none at all. -/
theorem remove_cases (hp : placeOf (segments key) = some p) :
    (reach p.way d.doc = none ∧ d.remove key = d) ∨ (reach p.way d.doc ≠ none ∧
      d.remove key = { d with doc := edit (·.remove p.key) p.way d.doc }) := by
  by_cases hreach : reach p.way d.doc = none
  · refine .inl ⟨hreach, ?_⟩
    simp only [remove, hp, alter_of_reach_none hreach]
  · refine .inr ⟨hreach, ?_⟩
    simp only [remove, hp, alter_of_reach hreach]

/-- What was taken out is not there. -/
theorem get_remove_self : (d.remove key).get key = none := by
  cases hp : placeOf (segments key) with
  | none => simp [get, hp]
  | some p =>
    obtain ⟨hreach, heq⟩ | ⟨-, heq⟩ := remove_cases (d := d) hp
    · rw [heq, get, hp, Option.bind_some, hreach, Option.bind_none]
    · rw [heq, get_eq hp, there_edit, Table.get_remove_self]

theorem get_remove_of_clear (hp : placeOf (segments key) = some p)
    (hp' : placeOf (segments key') = some p') (hclear : Clear p.way p.key p'.way p'.key) :
    (d.remove key).get key' = d.get key' := by
  obtain ⟨-, heq⟩ | ⟨hreach, heq⟩ := remove_cases (d := d) hp
  · rw [heq]
  · have hfits : Fits 0 p.way d.doc := fits_of_reach hreach
    rw [heq, get_eq hp', get_eq hp', get_there_edit (onlyAt_remove _) hclear hfits]

/-- A key that is not there is taken out without a change. -/
theorem remove_of_absent (h : d.get key = none) : d.remove key = d := by
  cases hp : placeOf (segments key) with
  | none => simp [remove, hp]
  | some p =>
    obtain ⟨-, heq⟩ | ⟨hreach, -⟩ := remove_cases (d := d) hp
    · exact heq
    · obtain ⟨inner, hinner⟩ := Option.ne_none_iff_exists'.1 hreach
      have habsent : inner.get p.key = none := by simpa [get, hp, hinner] using h
      have hdoc : alter (·.remove p.key) p.way d.doc = d.doc :=
        alter_of_fixed hinner (Table.remove_of_get habsent)
      simp only [remove, hp, hdoc]

end ConfigDocument

end SeedMedic
