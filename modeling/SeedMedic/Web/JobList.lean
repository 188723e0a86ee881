/-
  The list of jobs, page by page (`web/api/jobs.rs`).
-/
import SeedMedic.Lib.Fallible
import SeedMedic.Repair.JobFilter

namespace SeedMedic

open Lib

namespace Api

/-- The most jobs of one page. -/
def MAX_LIMIT : ℤ := 200

def DEFAULT_LIMIT : ℤ := 50

/-- The parsed query string. -/
structure ListQuery where
  state : List String
  reason : List String
  tracker : List String
  q : Option String
  sort : Option String
  order : Option String
  limit : Option Int64
  cursor : Option String

/-- A value of the query string that its key does not have. -/
structure UnknownField where
  text : String

/-- What the API returns for one page. -/
structure ListResponse where
  jobs : List RepairJob
  /-- Where the next page begins; nothing on the last one. -/
  nextCursor : Option String
  totalMatching : ℕ

/-! ## Cursors -/

def decodeCursor (raw : String) : Option JobCursor :=
  (rsplitOnce '|' raw.toList).bind fun (sortValue, id) =>
    (parseI64 id).map fun n => ⟨String.ofList sortValue, ⟨n⟩⟩

section
variable (text : Stamp → String)

def encodeCursor (job : RepairJob) (sort : JobSort) : String :=
  text (timestamp (sort.time job)) ++ "|" ++ job.id.toText

theorem toList_encodeCursor (job : RepairJob) (sort : JobSort) :
    (encodeCursor text job sort).toList =
      (text (timestamp (sort.time job))).toList ++ '|' :: job.id.toText.toList := by
  rw [encodeCursor, String.toList_append, String.toList_append, List.append_assoc]
  rfl

theorem encodeCursor_ne_empty (job : RepairJob) (sort : JobSort) :
    encodeCursor text job sort ≠ "" := by
  intro h
  have hlist := congrArg String.toList h
  rw [toList_encodeCursor] at hlist
  exact absurd hlist (by simp)

/-- A cursor is read back. -/
theorem decodeCursor_encodeCursor (job : RepairJob) (sort : JobSort) :
    decodeCursor (encodeCursor text job sort) =
      some ⟨text (timestamp (sort.time job)), job.id⟩ := by
  have hbar : '|' ∉ job.id.toText.toList := by
    intro h
    rcases job.id.toText_chars _ h with h | h
    · exact absurd h (by decide)
    · exact absurd h (by decide)
  have hid : parseI64 job.id.toText.toList = some job.id.val := parseI64_toString _
  rw [decodeCursor, toList_encodeCursor, rsplitOnce_append hbar, Option.bind_some]
  simp only [hid, Option.map_some, String.ofList_toList]

end

/-! ## Queries -/

namespace ListQuery

def default : ListQuery := ⟨[], [], [], none, none, none, none, none⟩

/-- One more pair of the query string; for a key with one value the last one counts. -/
def push (query : ListQuery) : String × String → ListQuery
  | (key, value) =>
    if value = "" then query
    else match key with
    | "state" => { query with state := query.state ++ [value] }
    | "reason" => { query with reason := query.reason ++ [value] }
    | "tracker" => { query with tracker := query.tracker ++ [value] }
    | "q" => { query with q := some value }
    | "sort" => { query with sort := some value }
    | "order" => { query with order := some value }
    | "limit" => { query with limit := parseI64 value.toList }
    | "cursor" => { query with cursor := some value }
    | _ => query

def fromPairs (pairs : List (String × String)) : ListQuery := pairs.foldl push default

/-- All of some values by their names, or the first that names nothing. -/
def parseAll {α : Type} (key : String) (parse : String → Option α) (values : List String) :
    Except UnknownField (List α) :=
  values.mapM fun value =>
    match parse value with
    | some a => .ok a
    | none => .error ⟨key ++ "=" ++ value⟩

def parseSort : Option String → Except UnknownField JobSort
  | none | some "updated_at" => .ok .updatedAt
  | some "created_at" => .ok .createdAt
  | some other => .error ⟨"sort=" ++ other⟩

/-- Whether an order is the descending one. -/
def parseOrder : Option String → Except UnknownField Bool
  | none | some "desc" => .ok true
  | some "asc" => .ok false
  | some other => .error ⟨"order=" ++ other⟩

/-- The filter a query asks for; unknown values are refused. -/
def toFilter (query : ListQuery) : Except UnknownField JobFilter := do
  let states ← parseAll "state" RepairState.parse query.state
  let reviewReasons ← parseAll "reason" ReviewReason.parse query.reason
  let sort ← parseSort query.sort
  let descending ← parseOrder query.order
  pure {
    states
    reviewReasons
    trackers := query.tracker.map TrackerId.mk
    search := query.q
    sort
    descending
    after := query.cursor.bind decodeCursor
    limit := max 1 (min MAX_LIMIT ((query.limit.map Int64.toInt).getD DEFAULT_LIMIT)) }

/-- Everything a query says but where its page begins. -/
theorem toFilter_ok {query : ListQuery} {f : JobFilter} (h : query.toFilter = .ok f) :
    (1 ≤ f.limit ∧ f.limit ≤ MAX_LIMIT) ∧ ∀ cursor : Option String,
      { query with cursor }.toFilter = .ok { f with after := cursor.bind decodeCursor } := by
  unfold toFilter at h ⊢
  obtain ⟨states, hstates, h⟩ := bind_eq_ok.1 h
  obtain ⟨reasons, hreasons, h⟩ := bind_eq_ok.1 h
  obtain ⟨sort, hsort, h⟩ := bind_eq_ok.1 h
  obtain ⟨descending, horder, h⟩ := bind_eq_ok.1 h
  cases h
  refine ⟨⟨le_max_left .., max_le (by decide) (min_le_left ..)⟩, fun cursor => ?_⟩
  simp only [hstates, hreasons, hsort, horder]
  rfl

/-- A cursor behind the other pairs is the one that counts. -/
theorem fromPairs_cursor {cursor : String} (h : cursor ≠ "") (pairs : List (String × String)) :
    fromPairs (pairs ++ [("cursor", cursor)]) = { fromPairs pairs with cursor := some cursor } := by
  simp only [fromPairs, List.foldl_append, List.foldl_cons, List.foldl_nil, push, if_neg h]

end ListQuery

/-! ## Pages -/

section
variable (text : Stamp → String) (s : SqliteRepairStore)

def list (pairs : List (String × String)) : Except UnknownField ListResponse := do
  let filter ← (ListQuery.fromPairs pairs).toFilter
  let jobs := s.findJobs text filter
  -- a full page implies there may be more, a short one is definitive
  let nextCursor := if jobs.length = filter.limit then
    jobs.getLast?.map fun job => encodeCursor text job filter.sort else none
  pure ⟨jobs, nextCursor, s.countJobs filter⟩

/-- The page for a query and the cursor of the page before, with its own. -/
def nextPage (pairs : List (String × String)) (cursor : Option String) :
    Option (ListResponse × Option String) :=
  match list text s (pairs ++ (cursor.map fun c => ("cursor", c)).toList) with
  | .ok response => some (response, response.nextCursor)
  | .error _ => none

variable {text s} {pairs : List (String × String)} {f : JobFilter}

/-- What the API returns for a page of rows. -/
def response (text : Stamp → String) (s : SqliteRepairStore) (f : JobFilter) (page : List JobRow) :
    ListResponse where
  jobs := page.map readJob
  nextCursor := (pageLast f.limit.toNat page).map fun r => encodeCursor text (readJob r) f.sort
  totalMatching := s.countJobs f

theorem list_eq (hf : (ListQuery.fromPairs pairs).toFilter = .ok f) (hlimit : 1 ≤ f.limit)
    {page : List JobRow} (hpage : s.findJobs text f = page.map readJob) :
    list text s pairs = .ok (response text s f page) := by
  have hfull : ((page.map readJob).length : ℤ) = f.limit ↔ page.length = f.limit.toNat := by
    rw [List.length_map]
    omega
  rw [list, hf]
  show Except.ok _ = Except.ok _
  rw [hpage, response, pageLast]
  simp only [hfull]
  split_ifs with h
  · rw [List.getLast?_map, Option.map_map]
    rfl
  · rfl

variable {κ : Type} [LinearOrder κ] {turn : String ×ₗ ℤ → κ}

/-- The first page of a query. -/
theorem nextPage_none (hkeys : PagesBy text f turn)
    (hf : (ListQuery.fromPairs pairs).toFilter = .ok f) (hfirst : f.after = none) :
    nextPage text s pairs none = some (response text s f (s.page text f turn none),
      (response text s f (s.page text f turn none)).nextCursor) := by
  have hrows := hkeys.find s none
  rw [← hfirst] at hrows
  have hlist := list_eq hf (ListQuery.toFilter_ok hf).1.1 hrows
  rw [nextPage, Option.map_none, Option.toList_none, List.append_nil, hlist, hfirst]
  rfl

/-- The key of a job in a list. -/
def jobKey (text : Stamp → String) (f : JobFilter) (turn : String ×ₗ ℤ → κ) (job : RepairJob) : κ :=
  turn (toLex (text (timestamp (f.sort.time job)), job.id.val.toInt))

omit [LinearOrder κ] in
@[simp] theorem jobKey_readJob (r : JobRow) :
    jobKey text f turn (readJob r) = r.key text f turn := by
  rw [jobKey, JobSort.time_readJob, timestamp_parseTime]
  rfl

/-- The page past a job. -/
theorem nextPage_some (hkeys : PagesBy text f turn)
    (hf : (ListQuery.fromPairs pairs).toFilter = .ok f) (job : RepairJob) :
    nextPage text s pairs (some (encodeCursor text job f.sort)) =
      some (response text s f (s.page text f turn (some (jobKey text f turn job))),
        (response text s f (s.page text f turn (some (jobKey text f turn job)))).nextCursor) := by
  obtain ⟨⟨hlimit, -⟩, hcursor⟩ := ListQuery.toFilter_ok hf
  have hquery := hcursor (some (encodeCursor text job f.sort))
  rw [← ListQuery.fromPairs_cursor (encodeCursor_ne_empty _ _ _)] at hquery
  have hlist := list_eq hquery hlimit (hkeys.find s _)
  rw [Option.bind_some, decodeCursor_encodeCursor, Option.map_some] at hlist
  rw [nextPage, Option.map_some, Option.toList_some, hlist]
  rfl

/-- Following the cursors visits the rows in the order of their keys. -/
theorem exists_pages (hkeys : PagesBy text f turn)
    (hf : (ListQuery.fromPairs pairs).toFilter = .ok f) (hfirst : f.after = none) :
    ∃ (pages : List ListResponse) (visited : List JobRow),
      Follows (nextPage text s pairs) none pages ∧
      pages.flatMap ListResponse.jobs = visited.map readJob ∧
      visited.Perm (s.jobs.rows.filter f.admits) ∧
      visited.Pairwise fun a b => a.key text f turn < b.key text f turn := by
  let rows := s.jobs.rows.filter f.admits
  let key := JobRow.key text f turn
  let spell := fun r : JobRow => encodeCursor text (readJob r) f.sort
  have hnodup : (rows.map key).Nodup := by
    -- the id alone tells two rows apart
    refine List.Nodup.map_on (fun a ha b hb hab => ?_) (s.jobs.nodup.of_map _ |>.filter _)
    have hplace : (a.place text f.sort.column).2 = (b.place text f.sort.column).2 :=
      congrArg Prod.snd (hkeys.inj hab)
    have hid : a.id = b.id := congrArg JobId.mk (Int64.toInt_inj.1 hplace)
    exact List.inj_on_of_nodup_map s.jobs.nodup (List.mem_of_mem_filter ha)
      (List.mem_of_mem_filter hb) hid
  have hserve : ∀ after : Option JobRow, (∀ r ∈ after, r ∈ rows) →
      nextPage text s pairs (after.map spell) =
        some (response text s f (keysetPage key rows f.limit.toNat (after.map key)),
          (pageLast f.limit.toNat (keysetPage key rows f.limit.toNat (after.map key))).map spell) := by
    intro after _
    cases after with
    | none => exact nextPage_none hkeys hf hfirst
    | some r =>
      have hpage := nextPage_some (s := s) hkeys hf (readJob r)
      rw [jobKey_readJob] at hpage
      exact hpage
  have hpos : 0 < f.limit.toNat := by
    have := (ListQuery.toFilter_ok hf).1
    omega
  obtain ⟨pages, hfollows, hflatten⟩ := exists_follows hnodup hpos spell (response text s f)
    hserve none (fun _ h => absurd h (by simp))
  rw [Option.map_none] at hflatten
  refine ⟨pages.map (response text s f), rowsPast key rows none, hfollows, ?_, ?_,
    rowsPast_sorted hnodup none⟩
  · rw [List.flatMap_map, ← hflatten, List.map_flatten, List.flatMap_def]
    rfl
  · exact (rowsPast_perm none).trans (.of_eq (List.filter_eq_self.2 fun _ _ => rfl))

/-- Rows that come one after the other by their texts do so by their times, as long as times are
    spelled in order. -/
theorem time_lt_of_place_lt {horizon : Stamp}
    (htext : ∀ a b, a < b → b < horizon → text a < text b) (sort : JobSort) {a b : JobRow}
    (ha : sort.column a < horizon) (h : a.place text sort.column < b.place text sort.column) :
    toLex (sort.time (readJob a), (readJob a).id.val.toInt) <
      toLex (sort.time (readJob b), (readJob b).id.val.toInt) := by
  have hparse : ∀ {x y : Stamp}, x < y → parseTime x < parseTime y := fun h =>
    Nat.mul_lt_mul_of_pos_right h (by decide)
  rw [Prod.Lex.toLex_lt_toLex, JobSort.time_readJob, JobSort.time_readJob]
  rw [JobRow.place, JobRow.place, Prod.Lex.toLex_lt_toLex] at h
  rcases lt_trichotomy (sort.column a) (sort.column b) with hlt | heq | hgt
  · exact .inl (hparse hlt)
  · rcases h with h | ⟨-, hid⟩
    · dsimp only at h
      rw [heq] at h
      exact absurd h (lt_irrefl _)
    · exact .inr ⟨congrArg parseTime heq, hid⟩
  · have hback := htext _ _ hgt ha
    rcases h with h | ⟨h, -⟩
    · exact absurd (hback.trans h) (lt_irrefl _)
    · dsimp only at h
      rw [h] at hback
      exact absurd hback (lt_irrefl _)

end

/-- Following the cursors of a query visits the jobs it is about, each once and in the order it asks
    for, and ends. -/
theorem list_follows {text : Stamp → String} {horizon : Stamp} {s : SqliteRepairStore}
    {pairs : List (String × String)} {f : JobFilter}
    (htext : ∀ a b, a < b → b < horizon → text a < text b)
    (hrows : ∀ r ∈ s.jobs.rows, r.createdAt < horizon ∧ r.updatedAt < horizon)
    (hf : (ListQuery.fromPairs pairs).toFilter = .ok f) (hfirst : f.after = none) :
    ∃ pages : List ListResponse, Follows (nextPage text s pairs) none pages ∧
      (∀ pages', Follows (nextPage text s pairs) none pages' → pages' = pages) ∧
      (pages.flatMap ListResponse.jobs).Perm ((s.jobs.rows.filter f.admits).map readJob) ∧
      (pages.flatMap ListResponse.jobs).Pairwise f.Before ∧
      (pages.flatMap ListResponse.jobs).length = s.countJobs f := by
  have hcolumn : ∀ r ∈ s.jobs.rows, f.sort.column r < horizon := by
    intro r hr
    cases f.sort with
    | updatedAt => exact (hrows r hr).2
    | createdAt => exact (hrows r hr).1
  -- in either direction the places of the rows are their keys
  have hvisits : ∃ (pages : List ListResponse) (visited : List JobRow),
      Follows (nextPage text s pairs) none pages ∧
      pages.flatMap ListResponse.jobs = visited.map readJob ∧
      visited.Perm (s.jobs.rows.filter f.admits) ∧
      visited.Pairwise fun a b => f.Before (readJob a) (readJob b) := by
    have hlimit : 0 ≤ f.limit := by
      have := (ListQuery.toFilter_ok hf).1
      omega
    cases hdir : f.descending with
    | true =>
      obtain ⟨pages, visited, hfollows, hjobs, hperm, hsorted⟩ :=
        exists_pages (pagesBy_descending hdir hlimit) hf hfirst
      refine ⟨pages, visited, hfollows, hjobs, hperm, hsorted.imp_of_mem fun ha hb hab => ?_⟩
      rw [JobFilter.Before, hdir]
      exact time_lt_of_place_lt htext _ (hcolumn _ (List.mem_of_mem_filter (hperm.mem_iff.1 hb))) hab
    | false =>
      obtain ⟨pages, visited, hfollows, hjobs, hperm, hsorted⟩ :=
        exists_pages (pagesBy_ascending hdir hlimit) hf hfirst
      refine ⟨pages, visited, hfollows, hjobs, hperm, hsorted.imp_of_mem fun ha hb hab => ?_⟩
      rw [JobFilter.Before, hdir]
      exact time_lt_of_place_lt htext _ (hcolumn _ (List.mem_of_mem_filter (hperm.mem_iff.1 ha))) hab
  obtain ⟨pages, visited, hfollows, hjobs, hperm, hsorted⟩ := hvisits
  refine ⟨pages, hfollows, fun _ h => h.unique hfollows, ?_, ?_, ?_⟩
  · rw [hjobs]
    exact hperm.map readJob
  · rw [hjobs]
    exact List.pairwise_map.2 hsorted
  · rw [hjobs, List.length_map, hperm.length_eq, SqliteRepairStore.countJobs]

/-- The first ten microseconds of the clock, as the columns spell them. -/
def earlyText (t : Stamp) : String := "1970-01-01T00:00:00.00000" ++ toString t ++ "Z"

theorem earlyText_lt : ∀ a b, a < b → b < 10 → earlyText a < earlyText b := by
  intro a b hab hb
  interval_cases b <;> interval_cases a <;> decide

/-- Three jobs of one tracker, of which two were updated at the same time. -/
def threeJobs : SqliteRepairStore where
  jobs := ⟨[discoveredRow ⟨1⟩ 3 ⟨⟨"tracker"⟩, ⟨"7"⟩, "show", none, 10, none⟩,
    discoveredRow ⟨2⟩ 5 ⟨⟨"tracker"⟩, ⟨"8"⟩, "film", none, 10, none⟩,
    discoveredRow ⟨3⟩ 3 ⟨⟨"tracker"⟩, ⟨"9"⟩, "song", none, 10, none⟩], by decide⟩
  files := .empty
  transitions := []
  jobSeq := 3

/-- Two pages of two jobs at most, newest first. -/
theorem threeJobs_listed :
    ∃ pages, Follows (nextPage earlyText threeJobs [("limit", "2")]) none pages ∧
      (pages.flatMap ListResponse.jobs).length = 3 := by
  have hrows : ∀ r ∈ threeJobs.jobs.rows, r.createdAt < 10 ∧ r.updatedAt < 10 := by
    simp [threeJobs, discoveredRow]
  have hf : (ListQuery.fromPairs [("limit", "2")]).toFilter =
      .ok { JobFilter.default with limit := 2 } := rfl
  obtain ⟨pages, hfollows, -, -, -, hlength⟩ := list_follows earlyText_lt hrows hf rfl
  exact ⟨pages, hfollows, hlength⟩

end Api

end SeedMedic
