/-
  The rows of the repeated sections: what the operations on rows do to a document that is a
  configuration.
-/
import Mathlib.Data.List.InsertIdx
import SeedMedic.Web.Settings.Drafts

namespace SeedMedic

open Lib Lib.Toml

/-- The repeated sections of the configuration. -/
inductive RowSection where
  | trackers
  | arr
  /-- The path mappings of a row of `arr`. -/
  | pathMappings (row : ℕ)

namespace RowSection

/-- What the settings pages call a section. -/
def key : RowSection → String
  | trackers => "trackers"
  | arr => "arr"
  | pathMappings row => "arr." ++ toString row ++ ".path_mappings"

/-- The key of the document that a section is under. -/
def top : RowSection → String
  | trackers => "trackers"
  | arr | pathMappings _ => "arr"

end RowSection

/-- The rows an item holds, however they are written. -/
def rowItems : Option Item → List Item
  | some (.arrayOfTables rows) => rows.map .table
  | some (.array xs) => xs
  | _ => []

/-- The rows a document has in a section. -/
def rowsIn (t : Table) : RowSection → List Item
  | .trackers => rowItems (t.get "trackers")
  | .arr => rowItems (t.get "arr")
  | .pathMappings row => rowItems ((((rowItems (t.get "arr"))[row]?).bind (asSection arrKeys)).bind
      (Table.get · "path_mappings"))

/-- The number of rows a configuration has in a section. -/
def Config.rowCount (c : Config) : RowSection → ℕ
  | .trackers => c.trackers.length
  | .arr => c.arr.length
  | .pathMappings row => (c.arr[row]?).elim 0 fun a => a.pathMappings.length

/-- The operations on rows do what their names say of row `index` of a section: the rows counted
    are those of the configuration, a row is pushed behind them, and the row is removed where
    there is one. -/
structure RowsWork (d : ConfigDocument) (c : Config) (s : RowSection) (index : ℕ) : Prop where
  count : d.rowCount s.key = c.rowCount s
  push : ∃ d', d.pushRow s.key = some (d', (rowsIn d.doc s).length) ∧
    rowsIn d'.doc s = rowsIn d.doc s ++ [.table []] ∧
    ∀ k, k ≠ s.top → d'.doc.get k = d.doc.get k
  remove : index < c.rowCount s → ∃ d', d.removeRow s.key index = some d' ∧
    rowsIn d'.doc s = (rowsIn d.doc s).eraseIdx index ∧
    ∀ k, k ≠ s.top → d'.doc.get k = d.doc.get k
  outside : c.rowCount s ≤ index → d.removeRow s.key index = some d

/-- A section the row operations work on: it is one of the document's own keys, and the document
    has it not at all, or as tables of which `index` is one. -/
def RowsPlain (d : ConfigDocument) (s : RowSection) (index : ℕ) : Prop :=
  (∀ row, s ≠ .pathMappings row) ∧ (d.doc.get s.key = none ∨
    ∃ rows, d.doc.get s.key = some (.arrayOfTables rows) ∧ index < rows.length)

variable {host : ConfigHost} {d : ConfigDocument} {c : Config} {s : RowSection} {index : ℕ}

/-- Where a configuration is read from a document, it has as many rows as the document. -/
theorem length_of_decRows {α : Type} {names : List String} {dec : Table → Option α} {t : Table}
    {k : String} {xs : List α} (h : orDefault (decRows names dec) [] t k = some xs) :
    xs.length = (rowItems (t.get k)).length ∧
      (t.get k = none ∨ (∃ rows, t.get k = some (.arrayOfTables rows)) ∨
        ∃ items, t.get k = some (.array items)) := by
  unfold orDefault at h
  cases hk : t.get k with
  | none =>
    simp only [hk, Option.some.injEq] at h
    subst h
    exact ⟨rfl, .inl rfl⟩
  | some item =>
    simp only [hk] at h
    unfold decRows at h
    split at h
    next rows =>
      refine ⟨?_, .inr (.inl ⟨rows, rfl⟩)⟩
      rw [← (mapM_eq_some.1 h).length_eq, rowItems, List.length_map]
    next items => exact ⟨(mapM_eq_some.1 h).length_eq.symm, .inr (.inr ⟨items, rfl⟩)⟩
    next => cases h

theorem rowCount_top (h : Config.decode host d.doc = some c) (hs : ∀ row, s ≠ .pathMappings row) :
    c.rowCount s = (rowItems (d.doc.get s.key)).length ∧
      (d.doc.get s.key = none ∨ (∃ rows, d.doc.get s.key = some (.arrayOfTables rows)) ∨
        ∃ items, d.doc.get s.key = some (.array items)) := by
  obtain ⟨-, -, htrackers, -, harr⟩ := Config.decode_eq_some h
  cases s with
  | trackers => exact length_of_decRows htrackers
  | arr => exact length_of_decRows harr
  | pathMappings row => exact absurd rfl (hs row)

theorem rowsIn_top (t : Table) (hs : ∀ row, s ≠ .pathMappings row) :
    rowsIn t s = rowItems (t.get s.key) ∧ s.top = s.key := by
  cases s with
  | trackers => exact ⟨rfl, rfl⟩
  | arr => exact ⟨rfl, rfl⟩
  | pathMappings row => exact absurd rfl (hs row)

/-- The path mappings of a row have no key of the document to themselves. -/
theorem get_pathMappings (h : Config.decode host d.doc = some c) (row : ℕ) :
    d.doc.get (RowSection.pathMappings row).key = none ∧ (RowSection.pathMappings row).key ≠ "arr" := by
  have hdot : '.' ∈ (RowSection.pathMappings row).key.toList := by
    simp [RowSection.key, String.toList_append]
  have hno : ∀ k ∈ Config.topKeys, '.' ∉ k.toList := by decide +kernel
  refine ⟨?_, fun heq => hno "arr" (by decide) (heq ▸ hdot)⟩
  have hknows := (Config.decode_eq_some h).1
  unfold knows at hknows
  split at hknows
  next hsub =>
    by_contra hget
    exact hno _ (hsub ((Table.mem_keys_iff _ _).2 hget)) hdot
  next => cases hknows

/-- A section that is not there has no rows, and gets its first. -/
theorem rowsWork_absent (hs : ∀ row, s ≠ .pathMappings row) (hget : d.doc.get s.key = none)
    (hcount : c.rowCount s = 0) : RowsWork d c s index where
  count := by simp [ConfigDocument.rowCount, hget, hcount]
  push := by
    obtain ⟨hrows, htop⟩ := rowsIn_top d.doc hs
    refine ⟨{ d with doc := d.doc.insert s.key (.arrayOfTables [[]]) }, ?_, ?_, fun k hk => ?_⟩
    · simp [ConfigDocument.pushRow, hget, hrows, Item.asArrayOfTables, rowItems]
    · rw [(rowsIn_top _ hs).1, hrows, hget, Table.get_insert_self]
      rfl
    · exact Table.get_insert_of_ne _ _ (htop ▸ hk)
  remove := fun hlt => absurd hlt (by omega)
  outside := fun _ => by simp [ConfigDocument.removeRow, hget]

/-- Rows that are tables are counted, pushed and removed. -/
theorem rowsWork_tables (hs : ∀ row, s ≠ .pathMappings row) {rows : List Table}
    (hget : d.doc.get s.key = some (.arrayOfTables rows)) (hcount : c.rowCount s = rows.length)
    (hindex : index < rows.length) : RowsWork d c s index where
  count := by simp [ConfigDocument.rowCount, hget, hcount, Item.asArrayOfTables]
  push := by
    obtain ⟨hrows, htop⟩ := rowsIn_top d.doc hs
    refine ⟨{ d with doc := d.doc.insert s.key (.arrayOfTables (rows ++ [[]])) }, ?_, ?_,
      fun k hk => ?_⟩
    · simp [ConfigDocument.pushRow, hget, hrows, Item.asArrayOfTables, rowItems]
    · rw [(rowsIn_top _ hs).1, hrows, hget, Table.get_insert_self]
      simp [rowItems]
    · exact Table.get_insert_of_ne _ _ (htop ▸ hk)
  remove := fun _ => by
    obtain ⟨hrows, htop⟩ := rowsIn_top d.doc hs
    refine ⟨{ d with doc := d.doc.insert s.key (.arrayOfTables (rows.eraseIdx index)) }, ?_, ?_,
      fun k hk => ?_⟩
    · simp [ConfigDocument.removeRow, hget, Item.asArrayOfTables, hindex]
    · rw [(rowsIn_top _ hs).1, hrows, hget, Table.get_insert_self]
      simp [rowItems, List.eraseIdx_map]
    · exact Table.get_insert_of_ne _ _ (htop ▸ hk)
  outside := fun hle => absurd hle (by omega)

/-- A row of path mappings is not pushed where the configuration reads it. -/
theorem not_rowsWork_pathMappings (h : Config.decode host d.doc = some c) (row : ℕ) :
    ¬RowsWork d c (.pathMappings row) index := by
  intro hwork
  obtain ⟨hget, hne⟩ := get_pathMappings h row
  obtain ⟨d', hpush, hrows, -⟩ := hwork.push
  simp only [ConfigDocument.pushRow, hget, Option.getD_none, Item.asArrayOfTables,
    Option.map_some, Option.some.injEq, Prod.mk.injEq] at hpush
  obtain ⟨rfl, -⟩ := hpush
  simp only [rowsIn, Table.get_insert_of_ne _ _ hne.symm] at hrows
  exact absurd (congrArg List.length hrows) (by simp)

/-- The operations on rows work on a section of a document that is a configuration exactly where
    it is plain. -/
theorem rowsWork_iff (h : Config.decode host d.doc = some c) :
    RowsWork d c s index ↔ RowsPlain d s index := by
  by_cases hs : ∀ row, s ≠ .pathMappings row
  · obtain ⟨hcount, hforms⟩ := rowCount_top h hs
    constructor
    · intro hwork
      refine ⟨hs, ?_⟩
      obtain hnone | ⟨rows, hrows⟩ | ⟨items, hitems⟩ := hforms
      · exact .inl hnone
      · refine .inr ⟨rows, hrows, ?_⟩
        -- out of range the removal of a row brings the code down
        by_contra hout
        have hsome := hwork.outside (by simp [hcount, hrows, rowItems]; omega)
        simp [ConfigDocument.removeRow, hrows, Item.asArrayOfTables, hout] at hsome
      · obtain ⟨d', hpush, -⟩ := hwork.push
        simp [ConfigDocument.pushRow, hitems, Item.asArrayOfTables] at hpush
    · rintro ⟨-, hnone | ⟨rows, hrows, hindex⟩⟩
      · exact rowsWork_absent hs hnone (by rw [hcount, hnone]; rfl)
      · exact rowsWork_tables hs hrows (by simp [hcount, hrows, rowItems]) hindex
  · obtain ⟨row, rfl⟩ : ∃ row, s = .pathMappings row := by simpa using hs
    exact ⟨fun hwork => absurd hwork (not_rowsWork_pathMappings h row),
      fun hplain => absurd rfl (hplain.1 row)⟩

/-- The one tracker of a document can be removed, and another be pushed behind it. -/
theorem one_tracker_rowsWork : ∃ c, Config.decode .plain oneTracker.doc = some c ∧
    RowsWork oneTracker c .trackers 0 := by
  obtain ⟨c, hc⟩ := Option.isSome_iff_exists.1
    (show (Config.decode .plain oneTracker.doc).isSome = true by decide +kernel)
  exact ⟨c, hc, (rowsWork_iff hc).2 ⟨fun _ => by simp, .inr ⟨_, rfl, Nat.zero_lt_one⟩⟩⟩

/-- Behind the last tracker there is none to remove, and the code is brought down. -/
theorem second_tracker_panics : ¬∀ (host : ConfigHost) (d : ConfigDocument) (c : Config)
    (s : RowSection) (index : ℕ), Config.decode host d.doc = some c → RowsWork d c s index := by
  intro h
  obtain ⟨c, hc⟩ := Option.isSome_iff_exists.1
    (show (Config.decode .plain oneTracker.doc).isSome = true by decide +kernel)
  have hcount : c.rowCount .trackers = 1 := (rowCount_top (s := .trackers) hc fun _ => by simp).1
  have houtside := (h .plain oneTracker c .trackers 1 hc).outside hcount.le
  exact Option.some_ne_none _ houtside.symm

end SeedMedic
