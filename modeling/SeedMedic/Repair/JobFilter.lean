/-
  Finding jobs: how their list is narrowed, ordered and paged
  (`repair/ports.rs`, `repair/adapters/sqlite.rs`).
-/
import SeedMedic.Config.Domain
import SeedMedic.Lib.Keyset
import SeedMedic.Lib.Text
import SeedMedic.Repair.Store
import Mathlib.Data.Prod.Lex
import Mathlib.Order.OrderDual

namespace SeedMedic

open Lib

def ReviewReason.parse (value : String) : Option ReviewReason :=
  [ambiguousMatch, noCandidates, confidenceBelowPolicy, materializationUnavailable,
    insufficientStagingSpace, incompleteData, aliasedIncompleteData, recheckTimedOut, recheckErrored,
    autoResumeDisabled, retryBudgetExhausted, adapterNotImplemented, trackerStatusUnclear,
    downloadingDuringSeeding, hitAndRunDeadlinePassed, unsafeTorrentPaths, torrentUnreadable,
    infoHashMismatch, libraryChanged].find? fun reason => reason.asStr = value

theorem ReviewReason.parse_asStr (r : ReviewReason) : parse r.asStr = some r := by
  cases r <;> decide

/-- The columns a list of jobs may be ordered by. -/
inductive JobSort where
  | updatedAt
  | createdAt
  deriving DecidableEq

/-- Where a page resumes: the sort column's value as stored, and the id that breaks ties on it. -/
structure JobCursor where
  sortValue : String
  id : JobId

/-- How a list of jobs is narrowed and ordered. -/
structure JobFilter where
  states : List RepairState
  reviewReasons : List ReviewReason
  trackers : List TrackerId
  /-- A part of the name, or a whole info-hash. -/
  search : Option String
  sort : JobSort
  descending : Bool
  /-- The last row of the previous page. -/
  after : Option JobCursor
  limit : ℤ

/-- The whole table, newest activity first. -/
def JobFilter.default : JobFilter := ⟨[], [], [], none, .updatedAt, true, none, 50⟩

/-! ## What a filter admits -/

/-- A search term as the pattern of a name, or as the info-hash it might be instead. -/
def splitSearch (search : Option String) : Option String × Option String :=
  match (search.map trim).filter fun term => term ≠ "" with
  | none => (none, none)
  | some term =>
    if term.utf8ByteSize = 40 ∧ term.toList.all fun c => (digitIn 16 c).isSome then
      (none, some (String.ofList (term.toList.map Char.toLower)))
    else (some (String.ofList ('%' :: escapeLike term.toList ++ ['%'])), none)

/-- The database reads a text up to its first null character. -/
def sqlText (s : String) : List Char := s.toList.takeWhile fun c => c ≠ '\x00'

/-- Whether a column is among some values; no values ask for nothing, and no value is among any. -/
def among (values : List String) (column : Option String) : Bool :=
  values = [] || column.any fun value => value ∈ values

/-- The `WHERE` clause of both queries. -/
def JobFilter.admits (f : JobFilter) (r : JobRow) : Bool :=
  let (name, hash) := splitSearch f.search
  among (f.states.map RepairState.asStr) (some r.state.asStr) &&
    among (f.reviewReasons.map ReviewReason.asStr) (r.reviewReason.map ReviewReason.asStr) &&
    among (f.trackers.map TrackerId.str) (some r.trackerId.str) &&
    (name.all fun pattern => like (sqlText pattern) (sqlText r.torrentName)) &&
    hash.all fun hash => (r.infoHash.map InfoHash.toHex) = some hash

/-! ## Pages -/

def JobSort.column : JobSort → JobRow → Stamp
  | updatedAt => JobRow.updatedAt
  | createdAt => JobRow.createdAt

/-- The point in time of a job that its list is ordered by. -/
def JobSort.time : JobSort → RepairJob → Time
  | updatedAt => RepairJob.updatedAt
  | createdAt => RepairJob.createdAt

@[simp] theorem JobSort.time_readJob (sort : JobSort) (r : JobRow) :
    sort.time (readJob r) = parseTime (sort.column r) := by
  cases sort <;> rfl

/-- The row value of a cursor. -/
def JobCursor.place (c : JobCursor) : String ×ₗ ℤ := toLex (c.sortValue, c.id.val.toInt)

section
-- how the columns spell a point in time
variable (text : Stamp → String)

/-- The row value a page is ordered by. -/
def JobRow.place (column : JobRow → Stamp) (r : JobRow) : String ×ₗ ℤ :=
  toLex (text (column r), r.id.val.toInt)

namespace SqliteRepairStore

variable (s : SqliteRepairStore)

/-- One page: the rows whose place is past the cursor's, in the order in which `past` has them. -/
def pageSql (column : JobRow → Stamp) (past : String ×ₗ ℤ → String ×ₗ ℤ → Prop)
    [DecidableRel past] (f : JobFilter) : List JobRow :=
  let rows := s.jobs.rows.filter fun r =>
    f.admits r && f.after.all fun c => past (r.place text column) c.place
  limited f.limit (rows.insertionSort fun a b => ¬past (a.place text column) (b.place text column))

/-- The page of jobs a filter asks for. -/
def findJobs (f : JobFilter) : List RepairJob :=
  (match f.sort, f.descending with
    | .updatedAt, true => s.pageSql text JobRow.updatedAt (· < ·) f
    | .updatedAt, false => s.pageSql text JobRow.updatedAt (· > ·) f
    | .createdAt, true => s.pageSql text JobRow.createdAt (· < ·) f
    | .createdAt, false => s.pageSql text JobRow.createdAt (· > ·) f).map readJob

/-- How many jobs a filter admits, on whatever page. -/
def countJobs (f : JobFilter) : ℕ := (s.jobs.rows.filter f.admits).length

end SqliteRepairStore

/-! ## Pages by keys -/

variable {text} {s : SqliteRepairStore} {f : JobFilter}

theorem limited_of_nonneg {α : Type} {limit : ℤ} (h : 0 ≤ limit) (rows : List α) :
    SqliteRepairStore.limited limit rows = rows.take limit.toNat := if_neg (not_lt.2 h)

/-- A page is one of the rows the filter admits, by their keys. -/
theorem pageSql_eq {κ : Type} [LinearOrder κ] {column : JobRow → Stamp}
    {past : String ×ₗ ℤ → String ×ₗ ℤ → Prop} [DecidableRel past] (turn : String ×ₗ ℤ → κ)
    (hturn : ∀ x y, past x y ↔ turn y < turn x) (hlimit : 0 ≤ f.limit) :
    s.pageSql text column past f =
      keysetPage (fun r => turn (r.place text column)) (s.jobs.rows.filter f.admits) f.limit.toNat
        (f.after.map fun c => turn c.place) := by
  have horder : (fun a b : JobRow => ¬past (a.place text column) (b.place text column)) =
      fun a b => turn (a.place text column) ≤ turn (b.place text column) := by
    funext a b
    rw [hturn, not_lt]
  have hfilter : (s.jobs.rows.filter fun r =>
        f.admits r && f.after.all fun c => past (r.place text column) c.place) =
      (s.jobs.rows.filter f.admits).filter fun r =>
        (f.after.map fun c => turn c.place).all fun k => k < turn (r.place text column) := by
    rw [List.filter_filter]
    refine List.filter_congr fun r _ => ?_
    rw [Bool.and_comm]
    cases f.after with
    | none => rfl
    | some c => simp [hturn]
  rw [SqliteRepairStore.pageSql, limited_of_nonneg hlimit, keysetPage, rowsPast, hfilter]
  congr!

/-- The key that `turn` makes of a row's place. -/
def JobRow.key {κ : Type} (text : Stamp → String) (f : JobFilter) (turn : String ×ₗ ℤ → κ)
    (r : JobRow) : κ := turn (r.place text f.sort.column)

/-- The rows of the page past a key. -/
def SqliteRepairStore.page {κ : Type} [LinearOrder κ] (text : Stamp → String)
    (s : SqliteRepairStore) (f : JobFilter) (turn : String ×ₗ ℤ → κ) (after : Option κ) : List JobRow :=
  keysetPage (JobRow.key text f turn) (s.jobs.rows.filter f.admits) f.limit.toNat after

/-- The pages of a filter come by keys, which `turn` makes of the places of the rows. -/
structure PagesBy {κ : Type} [LinearOrder κ] (text : Stamp → String) (f : JobFilter)
    (turn : String ×ₗ ℤ → κ) : Prop where
  inj : Function.Injective turn
  find : ∀ (s : SqliteRepairStore) (after : Option JobCursor), s.findJobs text { f with after } =
    (s.page text f turn (after.map fun c => turn c.place)).map readJob

theorem pagesBy_ascending (hdir : f.descending = false) (hlimit : 0 ≤ f.limit) :
    PagesBy text f id where
  inj := Function.injective_id
  find s after := by
    have hpage : s.pageSql text f.sort.column (· > ·) { f with after } =
        s.page text f id (after.map fun c => id c.place) :=
      pageSql_eq id (fun _ _ => Iff.rfl) hlimit
    rw [← hpage, SqliteRepairStore.findJobs, hdir]
    cases f.sort <;> rfl

theorem pagesBy_descending (hdir : f.descending = true) (hlimit : 0 ≤ f.limit) :
    PagesBy text f OrderDual.toDual where
  inj := OrderDual.toDual.injective
  find s after := by
    have hpage : s.pageSql text f.sort.column (· < ·) { f with after } =
        s.page text f OrderDual.toDual (after.map fun c => OrderDual.toDual c.place) :=
      pageSql_eq OrderDual.toDual (fun _ _ => Iff.rfl) hlimit
    rw [← hpage, SqliteRepairStore.findJobs, hdir]
    cases f.sort <;> rfl

/-- Whether a job comes before another in the order of a list: by the time of the column, then by
    the id. -/
def JobFilter.Before (f : JobFilter) (a b : RepairJob) : Prop :=
  let key := fun job : RepairJob => toLex (f.sort.time job, job.id.val.toInt)
  if f.descending then key b < key a else key a < key b

end

end SeedMedic
