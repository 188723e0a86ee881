/-
  Paths into a TOML document: what is read at the end of one, what a write there makes on
  the way, and what it leaves of what is read at every other place.
-/
import SeedMedic.Lib.Toml

namespace Lib.Toml

/-! ## Steps -/

/-- A part of a dotted key. -/
inductive Segment where
  | name (s : String)
  | index (i : ℕ)
  deriving DecidableEq

/-- A step into the table a key holds, or into a row of the tables it holds. -/
inductive Step where
  | sub (name : String)
  | row (name : String) (i : ℕ)
  deriving DecidableEq

/-- The rows a key holds, none where it holds something else. -/
def Table.rows (t : Table) (n : String) : List Table :=
  ((t.get n).bind Item.asArrayOfTables).getD []

/-- Rows with blank ones behind them up to row `i`. -/
def padTo (rows : List Table) (i : ℕ) : List Table :=
  rows ++ List.replicate (i + 1 - rows.length) []

/-- Rows that are all there already need no padding. -/
theorem padTo_of_lt {rows : List Table} {i : ℕ} (h : i < rows.length) : padTo rows i = rows := by
  rw [padTo, Nat.sub_eq_zero_of_le h, List.replicate_zero, List.append_nil]

theorem lt_length_padTo (rows : List Table) (i : ℕ) : i < (padTo rows i).length := by
  simp [padTo]
  omega

/-- Padding makes rows blank that were not there. -/
theorem getElem?_padTo (rows : List Table) (i j : ℕ) :
    ((padTo rows i)[j]?).getD [] = (rows[j]?).getD [] := by
  by_cases hj : j < rows.length
  · simp [padTo, List.getElem?_append_left hj]
  · have hj' : rows.length ≤ j := by omega
    rw [padTo, List.getElem?_append_right hj', List.getElem?_eq_none_iff.2 hj']
    by_cases hi : j - rows.length < i + 1 - rows.length
    · simp [hi]
    · simp [hi]

namespace Step

def name : Step → String
  | sub n | row n _ => n

/-- The table a step leads to, if it is there. -/
def child : Step → Table → Option Table
  | sub n, t => (t.get n).bind Item.asTableLike
  | row n i, t => ((t.get n).bind Item.asArrayOfTables).bind (·[i]?)

/-- The table a step leads to, blank where it is not there. -/
def inside (s : Step) (t : Table) : Table := (s.child t).getD []

/-- The table a step leads to once it is made where it is missing: none where something else is
    in the way, or the row is one that nothing has room for. -/
def grow (room : ℕ) : Step → Table → Option Table
  | sub n, t => ((t.get n).getD (.table [])).asTableLike
  | row n i, t => ((t.get n).getD (.arrayOfTables [])).asArrayOfTables.bind fun rows =>
      if i < max rows.length room then some ((rows[i]?).getD []) else none

/-- Put the table a step leads to, a row behind blank ones where it is not there yet. -/
def put (inner : Table) : Step → Table → Table
  | sub n, t => t.insert n (((t.get n).getD (.table [])).withTable inner)
  | row n i, t => t.insert n (.arrayOfTables ((padTo (t.rows n) i).set i inner))

/-- Nothing stands where a step goes but what the step goes into, and the row is there or has
    room. -/
def Sits (room : ℕ) : Step → Table → Prop
  | sub n, t => ∀ item, t.get n = some item → item.asTableLike ≠ none
  | row n i, t => (∀ item, t.get n = some item → item.asArrayOfTables ≠ none) ∧
      i < max (t.rows n).length room

/-- Whether two steps take the same thing for what a key holds. -/
def Alike : Step → Step → Prop
  | sub n, row m _ | row m _, sub n => n ≠ m
  | _, _ => True

variable {room : ℕ} {s s' : Step} {t t' u : Table}

/-- What a step leads to is made exactly where the step sits. -/
theorem grow_eq_some_iff : s.grow room t = some u ↔ s.Sits room t ∧ s.inside t = u := by
  cases s with
  | sub n =>
    cases h : t.get n with
    | none => simp [grow, Sits, inside, child, h, Item.asTableLike]
    | some item =>
      cases hitem : item.asTableLike <;> simp [grow, Sits, inside, child, h, hitem]
  | row n i =>
    cases h : t.get n with
    | none => simp [grow, Sits, inside, child, h, Item.asArrayOfTables, Table.rows]
    | some item =>
      cases hitem : item.asArrayOfTables <;>
        simp [grow, Sits, inside, child, h, hitem, Table.rows]

theorem inside_of_child (h : s.child t = some u) : s.inside t = u := by
  simp [inside, h]

/-- A table that is there needs no room. -/
theorem sits_of_child (h : s.child t = some u) : s.Sits room t := by
  cases s with
  | sub n =>
    cases hn : t.get n with
    | none => simp [child, hn] at h
    | some item => simp_all [child, Sits]
  | row n i =>
    cases hn : t.get n with
    | none => simp [child, hn] at h
    | some item =>
      cases hitem : item.asArrayOfTables with
      | none => simp [child, hn, hitem] at h
      | some rows =>
        have hi : i < rows.length := by
          simp only [child, hn, Option.bind_some, hitem] at h
          exact (List.getElem?_eq_some_iff.1 h).1
        simp only [Sits, hn, Table.rows, Option.bind_some, hitem, Option.getD_some]
        exact ⟨fun item' h' => by cases h'; simp [hitem], by omega⟩

@[simp] theorem inside_put_self (inner : Table) : s.inside (s.put inner t) = inner := by
  cases s with
  | sub n => simp [inside, child, put]
  | row n i =>
    have hi : i < (padTo (t.rows n) i).length := lt_length_padTo _ _
    simp [inside, child, put, Item.asArrayOfTables, hi]

theorem get_put_of_ne (inner : Table) {k : String} (h : k ≠ s.name) :
    (s.put inner t).get k = t.get k := by
  cases s <;> exact Table.get_insert_of_ne _ _ h

/-- Where a step leads depends on what its key holds alone. -/
theorem inside_congr (h : t'.get s.name = t.get s.name) : s.inside t' = s.inside t := by
  cases s with
  | sub n =>
    have hn : t'.get n = t.get n := h
    simp only [inside, child, hn]
  | row n i =>
    have hn : t'.get n = t.get n := h
    simp only [inside, child, hn]

theorem sits_congr (h : t'.get s.name = t.get s.name) : s.Sits room t' ↔ s.Sits room t := by
  cases s with
  | sub n =>
    have hn : t'.get n = t.get n := h
    simp only [Sits, hn]
  | row n i =>
    have hn : t'.get n = t.get n := h
    simp only [Sits, Table.rows, hn]

/-- Where another step leads is not changed. -/
theorem inside_put_of_ne (inner : Table) (hs : s.Sits room t) (h : s' ≠ s) :
    s'.inside (s.put inner t) = s'.inside t := by
  by_cases hname : s'.name = s.name
  · cases s with
    | sub n =>
      cases s' with
      | sub m => exact absurd (congrArg sub hname) h
      | row m i =>
        cases hname
        -- neither before nor after is there a row
        have hput : (row n i).inside ((sub n).put inner t) = [] := by
          cases hn : t.get n with
          | none => simp [inside, child, put, hn, Item.withTable, Item.asArrayOfTables]
          | some item =>
            cases item <;> simp [inside, child, put, hn, Item.withTable, Item.asArrayOfTables]
        have hold : (row n i).inside t = [] := by
          cases hn : t.get n with
          | none => simp [inside, child, hn]
          | some item =>
            have := hs item hn
            cases item <;> simp_all [inside, child, Item.asTableLike, Item.asArrayOfTables]
        rw [hput, hold]
    | row n j =>
      cases s' with
      | sub m =>
        cases hname
        have hput : (sub n).inside ((row n j).put inner t) = [] := by
          simp [inside, child, put, Item.asTableLike]
        have hold : (sub n).inside t = [] := by
          cases hn : t.get n with
          | none => simp [inside, child, hn]
          | some item =>
            have := hs.1 item hn
            cases item <;> simp_all [inside, child, Item.asTableLike, Item.asArrayOfTables]
        rw [hput, hold]
      | row m i =>
        cases hname
        have hij : j ≠ i := fun e => h (by rw [e])
        have hrows : (row n i).inside t = ((t.rows n)[i]?).getD [] := by
          cases hn : (t.get n).bind Item.asArrayOfTables <;>
            simp [inside, child, Table.rows, hn]
        rw [hrows, ← getElem?_padTo _ j]
        simp [inside, child, put, Item.asArrayOfTables, hij]
  · exact inside_congr (get_put_of_ne inner hname)

theorem rows_put_row (inner : Table) (n : String) (i : ℕ) :
    ((row n i).put inner t).rows n = (padTo (t.rows n) i).set i inner := by
  simp [Table.rows, put, Item.asArrayOfTables]

/-- A step sits where another has been taken exactly where it did before and the two are
    alike. -/
theorem sits_put (inner : Table) (hs : s.Sits room t) :
    s'.Sits room (s.put inner t) ↔ s'.Sits room t ∧ s.Alike s' := by
  by_cases hname : s'.name = s.name
  · cases s with
    | sub n =>
      cases s' with
      | sub m =>
        cases hname
        simpa [Sits, put, Alike] using hs
      | row m i =>
        cases hname
        have hno : ¬(row n i).Sits room ((sub n).put inner t) := by
          intro hsits
          refine hsits.1 _ (Table.get_insert_self _ _ _) ?_
          cases (t.get n).getD (.table []) <;> rfl
        simp [hno, Alike]
    | row n j =>
      cases s' with
      | sub m =>
        cases hname
        have hno : ¬(sub n).Sits room ((row n j).put inner t) := fun hsits =>
          hsits _ (Table.get_insert_self _ _ _) rfl
        simp [hno, Alike]
      | row m i =>
        cases hname
        obtain ⟨hrows, hroom⟩ := hs
        have hget : ((row n j).put inner t).get n =
            some (.arrayOfTables ((padTo (t.rows n) j).set j inner)) := Table.get_insert_self _ _ _
        have hlen : (padTo (t.rows n) j).length = max (t.rows n).length (j + 1) := by
          simp [padTo]
          omega
        constructor
        · rintro ⟨-, hi⟩
          rw [rows_put_row, List.length_set, hlen] at hi
          exact ⟨⟨hrows, by omega⟩, trivial⟩
        · rintro ⟨⟨-, hi⟩, -⟩
          refine ⟨fun item hitem => ?_, ?_⟩
          · cases hget.symm.trans hitem
            exact Option.some_ne_none _
          · rw [rows_put_row, List.length_set, hlen]
            omega
  · rw [sits_congr (get_put_of_ne inner hname)]
    refine ⟨fun h => ⟨h, ?_⟩, fun h => h.1⟩
    cases s <;> cases s' <;> simp_all [Alike, name, eq_comm]

/-- A table put where it is already is no change. -/
theorem put_of_child (h : s.child t = some u) : s.put u t = t := by
  cases s with
  | sub n =>
    cases hn : t.get n with
    | none => simp [child, hn] at h
    | some item =>
      refine Table.insert_of_get ?_
      cases item <;> simp_all [child, Item.asTableLike, Item.withTable]
  | row n i =>
    cases hn : t.get n with
    | none => simp [child, hn] at h
    | some item =>
      refine Table.insert_of_get ?_
      cases item <;> simp_all [child, Item.asArrayOfTables, Table.rows]
      obtain ⟨hi, rfl⟩ := List.getElem?_eq_some_iff.1 h
      rw [padTo_of_lt hi, List.set_getElem_self]

end Step

/-! ## Paths -/

/-- The table at the end of a path, where every step of it is there. -/
def reach : List Step → Table → Option Table
  | [], t => some t
  | s :: path, t => (s.child t).bind (reach path)

/-- Change the table at the end of a path, making what is missing on the way; none where
    something else is in the way. -/
def vivify (room : ℕ) (f : Table → Table) : List Step → Table → Option Table
  | [], t => some (f t)
  | s :: path, t => (s.grow room t).bind fun inner =>
      (vivify room f path inner).map fun inner => s.put inner t

/-- Change the table at the end of a path where every step of it is there, and nothing else. -/
def alter (f : Table → Table) : List Step → Table → Table
  | [], t => f t
  | s :: path, t =>
    match s.child t with
    | none => t
    | some inner => s.put (alter f path inner) t

/-- A key of the table at the end of a path. -/
structure Spot where
  way : List Step
  key : String
  deriving DecidableEq

/-- The place that segments say: a number is a row of the name before it and stands nowhere else,
    and the last name is the key. -/
def placeOf : List Segment → Option Spot
  | [.name k] => some ⟨[], k⟩
  | .name n :: .index i :: path => (placeOf path).map fun p => ⟨.row n i :: p.way, p.key⟩
  | .name n :: path => (placeOf path).map fun p => ⟨.sub n :: p.way, p.key⟩
  | _ => none

/-! ## What is made, and where -/

/-- The table at the end of a path, blank where it is not there. -/
def there : List Step → Table → Table
  | [], t => t
  | s :: path, t => there path (s.inside t)

/-- A document with the table at the end of a path changed. -/
def edit (f : Table → Table) : List Step → Table → Table
  | [], t => f t
  | s :: path, t => s.put (edit f path (s.inside t)) t

/-- Every step of a path sits where the ones before it lead. -/
def Fits (room : ℕ) : List Step → Table → Prop
  | [], _ => True
  | s :: path, t => s.Sits room t ∧ Fits room path (s.inside t)

variable {room : ℕ} {f : Table → Table} {path : List Step} {t t' : Table}

@[simp] theorem there_blank (path : List Step) : there path [] = [] := by
  induction path with
  | nil => rfl
  | cons s path ih =>
    have hs : s.inside [] = [] := by cases s <;> rfl
    rw [there, hs, ih]

theorem reach_getD (path : List Step) (t : Table) : (reach path t).getD [] = there path t := by
  induction path generalizing t with
  | nil => rfl
  | cons s path ih =>
    cases h : s.child t with
    | none => simp [reach, there, Step.inside, h]
    | some inner => simpa [reach, there, Step.inside, h] using ih inner

/-- A key is read at the end of a path as it is in the table there. -/
theorem reach_bind_get (path : List Step) (t : Table) (k : String) :
    (reach path t).bind (·.get k) = (there path t).get k := by
  rw [← reach_getD]
  cases reach path t <;> rfl

/-- A change along a path is made exactly where the path fits. -/
theorem vivify_eq_some_iff :
    vivify room f path t = some t' ↔ Fits room path t ∧ edit f path t = t' := by
  induction path generalizing t t' with
  | nil => simp [vivify, Fits, edit]
  | cons s path ih =>
    simp only [vivify, Option.bind_eq_some_iff, Option.map_eq_some_iff, Step.grow_eq_some_iff,
      Fits, edit]
    constructor
    · rintro ⟨inner, ⟨hs, rfl⟩, inner', hpath, rfl⟩
      obtain ⟨hfits, rfl⟩ := ih.1 hpath
      exact ⟨⟨hs, hfits⟩, rfl⟩
    · rintro ⟨⟨hs, hfits⟩, rfl⟩
      exact ⟨_, ⟨hs, rfl⟩, _, ih.2 ⟨hfits, rfl⟩, rfl⟩

/-- A path whose end is there fits, with no row to be made. -/
theorem fits_of_reach (h : reach path t ≠ none) : Fits room path t := by
  induction path generalizing t with
  | nil => trivial
  | cons s path ih =>
    cases hs : s.child t with
    | none => simp [reach, hs] at h
    | some inner =>
      refine ⟨Step.sits_of_child hs, ?_⟩
      rw [Step.inside_of_child hs]
      exact ih (by simpa [reach, hs] using h)

theorem alter_of_reach (h : reach path t ≠ none) : alter f path t = edit f path t := by
  induction path generalizing t with
  | nil => rfl
  | cons s path ih =>
    cases hs : s.child t with
    | none => simp [reach, hs] at h
    | some inner =>
      have hin : alter f path inner = edit f path inner := ih (by simpa [reach, hs] using h)
      simp [alter, edit, hs, Step.inside_of_child hs, hin]

theorem alter_of_reach_none (h : reach path t = none) : alter f path t = t := by
  induction path generalizing t with
  | nil => cases h
  | cons s path ih =>
    cases hs : s.child t with
    | none => simp [alter, hs]
    | some inner =>
      have hin : alter f path inner = inner := ih (by simpa [reach, hs] using h)
      simp [alter, hs, hin, Step.put_of_child hs]

/-- A change that changes nothing where it is made changes nothing. -/
theorem alter_of_fixed {u : Table} (h : reach path t = some u) (hu : f u = u) :
    alter f path t = t := by
  induction path generalizing t with
  | nil =>
    cases h
    exact hu
  | cons s path ih =>
    cases hs : s.child t with
    | none => simp [reach, hs] at h
    | some inner =>
      have hin : alter f path inner = inner := ih (by simpa [reach, hs] using h)
      simp [alter, hs, hin, Step.put_of_child hs]

/-! ## What a change leaves -/

/-- Two places with neither on the way to the other. -/
def Clear : List Step → String → List Step → String → Prop
  | [], k, [], k' => k ≠ k'
  | [], k, s :: _, _ => k ≠ s.name
  | s :: _, _, [], k' => k' ≠ s.name
  | s :: path, k, s' :: path', k' => s = s' → Clear path k path' k'

/-- Two paths that take the same thing for what every key holds on the way they share. -/
def Agree : List Step → List Step → Prop
  | s :: path, s' :: path' => s.Alike s' ∧ (s = s' → Agree path path')
  | _, _ => True

/-- A change that is one to a single key. -/
def OnlyAt (k : String) (f : Table → Table) : Prop := ∀ t k', k' ≠ k → (f t).get k' = t.get k'

theorem onlyAt_insert (k : String) (item : Item) : OnlyAt k (·.insert k item) := fun t _ h =>
  Table.get_insert_of_ne t item h

theorem onlyAt_remove (k : String) : OnlyAt k (·.remove k) := fun t _ h =>
  Table.get_remove_of_ne t h

theorem there_edit : there path (edit f path t) = f (there path t) := by
  induction path generalizing t with
  | nil => rfl
  | cons s path ih => simp [there, edit, ih]

variable {k k' : String} {path' : List Step}

theorem placeOf_cases {l : List Segment} {p : Spot} (h : placeOf l = some p) :
    (∃ k, l = [.name k] ∧ p = ⟨[], k⟩) ∨
    (∃ n i l' p', l = .name n :: .index i :: l' ∧ placeOf l' = some p' ∧
      p = ⟨.row n i :: p'.way, p'.key⟩) ∨
    (∃ n m l' p', l = .name n :: .name m :: l' ∧ placeOf (.name m :: l') = some p' ∧
      p = ⟨.sub n :: p'.way, p'.key⟩) := by
  unfold placeOf at h
  split at h
  next k => exact .inl ⟨k, rfl, by simpa using h.symm⟩
  next n i l' =>
    obtain ⟨p', hp', rfl⟩ := Option.map_eq_some_iff.1 h
    exact .inr (.inl ⟨n, i, l', p', rfl, hp', rfl⟩)
  next n l' hindex hnil =>
    obtain ⟨p', hp', rfl⟩ := Option.map_eq_some_iff.1 h
    cases l' with
    | nil => exact absurd rfl hindex
    | cons a l' =>
      cases a with
      | name m => exact .inr (.inr ⟨n, m, l', p', rfl, hp', rfl⟩)
      | index i => exact absurd rfl (hnil i l')
  next => cases h

/-- Two keys neither of which goes on from the other are at places clear of each other. -/
theorem clear_of_not_prefix {l l' : List Segment} {p p' : Spot} (hp : placeOf l = some p)
    (hp' : placeOf l' = some p') (h : ¬l <+: l') (h' : ¬l' <+: l) :
    Clear p.way p.key p'.way p'.key := by
  fun_induction placeOf l generalizing l' p p' with
  | case1 k =>
    cases hp
    obtain ⟨k', rfl, rfl⟩ | ⟨n', i', m', q', rfl, -, rfl⟩ | ⟨n', a', m', q', rfl, -, rfl⟩ :=
      placeOf_cases hp'
    · simpa [Clear] using h
    · simpa [Clear, Step.name] using h
    · simpa [Clear, Step.name] using h
  | case2 n i m ih =>
    obtain ⟨q, hq, rfl⟩ := Option.map_eq_some_iff.1 hp
    obtain ⟨k', rfl, rfl⟩ | ⟨n', i', m', q', rfl, hq', rfl⟩ | ⟨n', a', m', q', rfl, -, rfl⟩ :=
      placeOf_cases hp'
    · simpa [Clear, Step.name] using h'
    · rintro hstep
      cases hstep
      exact ih hq hq' (by simpa using h) (by simpa using h')
    · rintro hstep
      cases hstep
  | case3 n m hindex hnil ih =>
    obtain ⟨q, hq, rfl⟩ := Option.map_eq_some_iff.1 hp
    obtain ⟨k', rfl, rfl⟩ | ⟨n', i', m', q', rfl, hq', rfl⟩ | ⟨n', a', m', q', rfl, hq', rfl⟩ :=
      placeOf_cases hp'
    · simpa [Clear, Step.name] using h'
    · rintro hstep
      cases hstep
    · rintro hstep
      cases hstep
      exact ih hq hq' (by simpa using h) (by simpa using h')
  | case4 => cases hp

/-- A change at one place is not seen at a place clear of it. -/
theorem get_there_edit (hf : OnlyAt k f) (hclear : Clear path k path' k')
    (hfits : Fits room path t) :
    (there path' (edit f path t)).get k' = (there path' t).get k' := by
  induction path generalizing path' t with
  | nil =>
    cases path' with
    | nil => exact hf t k' (Ne.symm hclear)
    | cons s' path' =>
      have hname : s'.name ≠ k := Ne.symm hclear
      have hin : s'.inside (f t) = s'.inside t := Step.inside_congr (hf t _ hname)
      simp [there, edit, hin]
  | cons s path ih =>
    cases path' with
    | nil => exact Step.get_put_of_ne _ hclear
    | cons s' path' =>
      by_cases hs : s = s'
      · subst hs
        simpa [there, edit] using ih (hclear rfl) hfits.2
      · simp only [there, edit, Step.inside_put_of_ne _ hfits.1 (Ne.symm hs)]

/-- A path fits after a change exactly where it did before and agrees with the path of the
    change, as long as it does not go on from the key changed. -/
theorem fits_edit (hf : OnlyAt k f) (hclear : Clear path k path' k') (hfits : Fits room path t) :
    Fits room path' (edit f path t) ↔ Fits room path' t ∧ Agree path path' := by
  induction path generalizing path' t with
  | nil =>
    cases path' with
    | nil => simp [Fits, Agree]
    | cons s' path' =>
      have hname : s'.name ≠ k := Ne.symm hclear
      have hget : (f t).get s'.name = t.get s'.name := hf t _ hname
      simp [Fits, Agree, edit, Step.inside_congr hget, Step.sits_congr hget]
  | cons s path ih =>
    cases path' with
    | nil => simp [Fits, Agree]
    | cons s' path' =>
      simp only [Fits, Agree, edit, Step.sits_put _ hfits.1]
      by_cases hs : s = s'
      · subst hs
        simp only [Step.inside_put_self, ih (hclear rfl) hfits.2, forall_const]
        tauto
      · simp only [Step.inside_put_of_ne _ hfits.1 (Ne.symm hs), hs, false_implies]
        tauto

theorem fits_edit_self (hfits : Fits room path t) : Fits room path (edit f path t) := by
  induction path generalizing t with
  | nil => trivial
  | cons s path ih =>
    refine ⟨(Step.sits_put _ hfits.1).2 ⟨hfits.1, ?_⟩, ?_⟩
    · cases s <;> trivial
    · rw [edit, Step.inside_put_self]
      exact ih hfits.2

theorem agree_refl (path : List Step) : Agree path path := by
  induction path with
  | nil => trivial
  | cons s path ih =>
    refine ⟨?_, fun _ => ih⟩
    cases s <;> trivial

/-- Two paths that fit the same document agree where one of them is there. -/
theorem agree_of_reach (hreach : reach path t ≠ none) (hfits : Fits room path' t) :
    Agree path path' := by
  induction path generalizing path' t with
  | nil => cases path' <;> trivial
  | cons s path ih =>
    cases path' with
    | nil => trivial
    | cons s' path' =>
      cases hs : s.child t with
      | none => simp [reach, hs] at hreach
      | some inner =>
        have hput : s.put inner t = t := Step.put_of_child hs
        refine ⟨?_, ?_⟩
        · have hsits : s'.Sits room (s.put inner t) ↔ _ :=
            Step.sits_put inner (Step.sits_of_child hs)
          rw [hput] at hsits
          exact (hsits.1 hfits.1).2
        · rintro rfl
          refine ih (t := inner) (by simpa [reach, hs] using hreach) ?_
          simpa [Step.inside_of_child hs] using hfits.2

end Lib.Toml
