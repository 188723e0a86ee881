/-
  Reading the list of jobs page by page while the jobs change.
-/
import SeedMedic.Repair.Ledger
import SeedMedic.Web.JobList

namespace SeedMedic

open Lib Api SqliteRepairStore

/-! ## What an event does to the times of a job -/

/-- The job a call writes a new time of change for. -/
def StoreCall.touched : StoreCall → Option JobId
  | .apply id .. | .recordProgress id _ | .setReviewResumePoint id _ | .release id .. => some id
  | _ => none

def StoreEvent.touched : StoreEvent → Option JobId
  | .called c => c.touched
  | .discovered _ => none

/-- What becomes of the times of a job, which is touched now or not. -/
structure Restamped (now : Stamp) (touched : Prop) (r r' : JobRow) : Prop where
  id : r'.id = r.id
  created : r'.createdAt = r.createdAt
  updated : r'.updatedAt = r.updatedAt ∨ touched ∧ r'.updatedAt = now

theorem Restamped.refl {now : Stamp} {touched : Prop} (r : JobRow) : Restamped now touched r r :=
  ⟨rfl, rfl, .inl rfl⟩

section
variable {s s' : SqliteRepairStore} {now : Time}

/-- Rows that are written one by one. -/
theorem restamps_of_map {touched : Prop} {k : JobId} {f : JobRow → JobRow}
    (h : s'.jobs.get? k = (s.jobs.get? k).map f)
    (hf : ∀ r, r.id = k → Restamped (timestamp now) touched r (f r)) {r' : JobRow}
    (hr' : s'.jobs.get? k = some r') :
    ∃ r, s.jobs.get? k = some r ∧ Restamped (timestamp now) touched r r' := by
  rw [h] at hr'
  obtain ⟨r, hr, rfl⟩ := Option.map_eq_some_iff.1 hr'
  exact ⟨r, hr, hf r (Table.get?_some hr).2⟩

/-- A write of one row with a new time. -/
theorem restamped_of_ite {id k : JobId} {r r' : JobRow} {p : Prop} [Decidable p] (hk : r.id = k)
    (hp : p → r.id = id) (hid : r'.id = r.id) (hcreated : r'.createdAt = r.createdAt)
    (hupdated : r'.updatedAt = timestamp now) :
    Restamped (timestamp now) (some id = some k) r (if p then r' else r) := by
  split_ifs with h
  · exact ⟨hid, hcreated, .inr ⟨congrArg some ((hp h).symm.trans hk), hupdated⟩⟩
  · exact .refl r

namespace SqliteRepairStore

/-- A statement about leases touches no job. -/
theorem restamps_of_lease {touched : Prop} {k : JobId} {p : JobRow → Bool} {f : JobRow → JobRow}
    {hid : ∀ r, (f r).id = r.id} (h : s'.jobs = s.jobs.update p f hid)
    (hcreated : ∀ r, (f r).createdAt = r.createdAt)
    (hupdated : ∀ r, (f r).updatedAt = r.updatedAt) {r' : JobRow}
    (hr' : s'.jobs.get? k = some r') :
    ∃ r, s.jobs.get? k = some r ∧ Restamped (timestamp now) touched r r' := by
  rw [h] at hr'
  rw [Table.get?_update] at hr'
  obtain ⟨r, hr, rfl⟩ := Option.map_eq_some_iff.1 hr'
  refine ⟨r, hr, ?_⟩
  split_ifs
  · exact ⟨hid r, hcreated r, .inl (hupdated r)⟩
  · exact .refl r

/-- A call leaves the times of the jobs, but that of the last change of the one it touches. -/
theorem answer_restamps (c : StoreCall) {k : JobId} {r' : JobRow}
    (hr' : (s.answer now c).2.jobs.get? k = some r') :
    ∃ r, s.jobs.get? k = some r ∧ Restamped (timestamp now) (c.touched = some k) r r' := by
  cases c with
  | apply id t u =>
    simp only [answer] at hr'
    cases ha : s.apply now id t u with
    | error e =>
      rw [ha] at hr'
      exact ⟨r', hr', .refl r'⟩
    | ok p =>
      obtain ⟨a, s'⟩ := p
      rw [ha] at hr'
      obtain ⟨-, -, ⟨rfl, -⟩ | ⟨-, -, -, rfl⟩⟩ := apply_ok ha
      · exact restamps_of_map (apply_applied_get ha k)
          (fun r hk => restamped_of_ite hk (fun h => h) rfl rfl rfl) hr'
      · exact ⟨r', hr', .refl r'⟩
  | setReviewResumePoint id state =>
    simp only [answer] at hr'
    cases ha : s.setReviewResumePoint now id state with
    | error e =>
      rw [ha] at hr'
      exact ⟨r', hr', .refl r'⟩
    | ok s' =>
      rw [ha] at hr'
      rcases setReviewResumePoint_cases ha with rfl | ⟨_, _, _, -, -, -, rfl⟩
      · exact ⟨r', hr', .refl r'⟩
      · exact restamps_of_map (moveResumePoint_get state k)
          (fun r hk => restamped_of_ite hk (fun h => h) rfl rfl rfl) hr'
  | recordProgress id patch =>
    exact restamps_of_map (updateJobFields_get patch k)
      (fun r hk => restamped_of_ite hk (fun h => h) rfl rfl rfl) hr'
  | release id retryAt countAttempt =>
    have hrows : (s.release now id retryAt countAttempt).jobs.get? k =
        (s.jobs.get? k).map fun r => if decide (r.id = id) then
          releaseRow (retryAt.map timestamp) countAttempt (timestamp now) r else r :=
      Table.get?_update _ _ (releaseRow _ _ _) (fun _ => rfl) k
    exact restamps_of_map hrows (fun r hk => restamped_of_ite hk of_decide_eq_true rfl rfl rfl) hr'
  | claim owner lease limit =>
    have hjobs : (s.claim now owner lease limit).2.jobs =
      s.jobs.update _ (leaseRow owner (leaseEnd now lease)) fun _ => rfl := rfl
    exact restamps_of_lease hjobs (fun _ => rfl) (fun _ => rfl) hr'
  | renewLease id owner lease =>
    have hjobs : (s.renewLease now id owner lease).2.jobs = s.jobs.update _
      (fun r => { r with leaseExpiresAt := some (leaseEnd now lease) }) fun _ => rfl := rfl
    exact restamps_of_lease hjobs (fun _ => rfl) (fun _ => rfl) hr'
  | clearStaleLeases owner =>
    have hjobs : (s.clearStaleLeases now owner).2.jobs = s.jobs.update _
      (fun r => { r with leaseOwner := none, leaseExpiresAt := none }) fun _ => rfl := rfl
    exact restamps_of_lease hjobs (fun _ => rfl) (fun _ => rfl) hr'
  | _ => exact ⟨r', hr', .refl r'⟩

end SqliteRepairStore

/-- An event leaves the times of the jobs that are there, but that of the last change of the one it
    touches; a job that was not there is new. -/
theorem StoreEvent.run_restamps (e : StoreEvent) {k : JobId} {r' : JobRow}
    (hr' : (e.run now s).jobs.get? k = some r') :
    (∃ r, s.jobs.get? k = some r ∧ Restamped (timestamp now) (e.touched = some k) r r') ∨
      s.jobs.get? k = none ∧ r'.createdAt = timestamp now ∧ r'.updatedAt = timestamp now := by
  cases e with
  | called c => exact .inl (answer_restamps c hr')
  | discovered h =>
    have hdid := (StoreEvent.discovered h).run_did now s
    generalize StoreEvent.run now s (.discovered h) = s' at hdid hr'
    cases hdid with
    | opened free trail first rows =>
      rw [rows] at hr'
      split_ifs at hr' with hid
      · cases hr'
        subst hid
        exact .inr ⟨free, rfl, rfl⟩
      · exact .inl ⟨r', hr', .refl r'⟩
    | nothing => exact .inl ⟨r', hr', .refl r'⟩

end

/-! ## Traversals -/

/-- A client that reads the list page by page. -/
structure Traversal where
  store : SqliteRepairStore
  /-- When the store was last written. -/
  now : Time
  /-- The cursor of the page that is read next, none for the first; nothing behind the last. -/
  next : Option (Option String)
  /-- The jobs of each page. -/
  pages : List (List JobId)

namespace Traversal

/-- Something is written, later than everything before; or the next page is read. -/
inductive Step (text : Stamp → String) (horizon : Stamp) (pairs : List (String × String))
    (ok : Traversal → StoreEvent → Prop) : Traversal → Traversal → Prop
  | written {t : Traversal} {now : Time} {e : StoreEvent} (later : t.now < now)
      (soon : timestamp now < horizon) (allowed : ok t e) :
    Step text horizon pairs ok t { t with store := e.run now t.store, now }
  | read {t : Traversal} {cursor next : Option String} {response : ListResponse}
      (due : t.next = some cursor)
      (page : nextPage text t.store pairs cursor = some (response, next)) :
    Step text horizon pairs ok t { t with
      next := next.map some
      pages := t.pages ++ [response.jobs.map RepairJob.id] }

/-- A run of writes that are allowed, and of pages that are read in between. -/
def Run (text : Stamp → String) (horizon : Stamp) (pairs : List (String × String))
    (ok : Traversal → StoreEvent → Prop) : Traversal → Traversal → Prop :=
  Relation.ReflTransGen (Step text horizon pairs ok)

/-- Nothing is read yet, and the jobs were written by now. -/
structure Begins (horizon : Stamp) (t : Traversal) : Prop where
  next : t.next = some none
  pages : t.pages = []
  soon : timestamp t.now < horizon
  written : ∀ k r, t.store.jobs.get? k = some r → r.updatedAt ≤ timestamp t.now

/-- In no run is a job served on two pages of a list in an order, whatever else the query asks for. -/
def NeverRepeats (sort : JobSort) (descending : Bool) (ok : Traversal → StoreEvent → Prop) : Prop :=
  ∀ text horizon pairs f t t', (∀ a b, a < b → b < horizon → text a < text b) →
    (ListQuery.fromPairs pairs).toFilter = .ok f → f.after = none → f.sort = sort →
    f.descending = descending → Begins horizon t → Run text horizon pairs ok t t' →
    t'.pages.Pairwise List.Disjoint

/-- Whatever is written. -/
def Anything (_ : Traversal) (_ : StoreEvent) : Prop := True

/-- Nothing touches a job that was served. -/
def LeavesServed (t : Traversal) (e : StoreEvent) : Prop := ∀ k ∈ e.touched, k ∉ t.pages.flatten

/-! ## What was served lies behind the cursor -/

section
variable {κ : Type} [LinearOrder κ] {text : Stamp → String} {horizon : Stamp}
  {pairs : List (String × String)} {f : JobFilter} {turn : String ×ₗ ℤ → κ}
  {ok : Traversal → StoreEvent → Prop} {t t' : Traversal}

/-- No job was served twice, and none that was lies past the cursor. -/
structure Behind (text : Stamp → String) (horizon : Stamp) (f : JobFilter) (turn : String ×ₗ ℤ → κ)
    (t : Traversal) : Prop where
  disjoint : t.pages.Pairwise List.Disjoint
  soon : timestamp t.now < horizon
  written : ∀ k r, t.store.jobs.get? k = some r → r.updatedAt ≤ timestamp t.now
  first : t.next = some none → t.pages = []
  served : ∀ cursor, t.next = some (some cursor) → ∃ job, cursor = encodeCursor text job f.sort ∧
    ∀ k ∈ t.pages.flatten, ∃ r, t.store.jobs.get? k = some r ∧ r.key text f turn ≤ jobKey text f turn job

/-- A write that is allowed moves no job that was served past where it was. -/
def KeepsBehind (text : Stamp → String) (horizon : Stamp) (f : JobFilter) (turn : String ×ₗ ℤ → κ)
    (ok : Traversal → StoreEvent → Prop) : Prop :=
  ∀ t e now r r', ok t e → r.id ∈ t.pages.flatten → r.updatedAt ≤ now → now < horizon →
    Restamped now (e.touched = some r.id) r r' → r'.key text f turn ≤ r.key text f turn

theorem Begins.behind (h : Begins horizon t) : Behind text horizon f turn t where
  disjoint := h.pages ▸ .nil
  soon := h.soon
  written := h.written
  first _ := h.pages
  served cursor hcursor := absurd (h.next.symm.trans hcursor) (by simp)

/-- A write leaves what was served behind the cursor. -/
theorem Behind.written_step (h : Behind text horizon f turn t)
    (hkeeps : KeepsBehind text horizon f turn ok) {now : Time} {e : StoreEvent} (later : t.now < now)
    (soon : timestamp now < horizon) (allowed : ok t e) :
    Behind text horizon f turn { t with store := e.run now t.store, now } where
  disjoint := h.disjoint
  soon := soon
  written k r' hr' := by
    have hlater := timestamp_mono later.le
    rcases e.run_restamps hr' with ⟨r, hr, hstamps⟩ | ⟨-, -, hnow⟩
    · rcases hstamps.updated with hsame | ⟨-, hnow⟩
      · exact hsame ▸ (h.written k r hr).trans hlater
      · exact hnow.le
    · exact hnow.le
  first := h.first
  served cursor hcursor := by
    obtain ⟨job, hjob, hbehind⟩ := h.served cursor hcursor
    refine ⟨job, hjob, fun k hk => ?_⟩
    obtain ⟨r, hr, hle⟩ := hbehind k hk
    obtain ⟨r', hr'⟩ : ∃ r', (e.run now t.store).jobs.get? k = some r' := e.run_keeps hr
    refine ⟨r', hr', ?_⟩
    rcases e.run_restamps hr' with ⟨r₀, hr₀, hstamps⟩ | ⟨hnone, -⟩
    · cases hr.symm.trans hr₀
      have hid := (Table.get?_some hr).2
      subst hid
      have hwritten := (h.written _ r hr).trans (timestamp_mono later.le)
      exact (hkeeps t e _ r r' allowed hk hwritten soon hstamps).trans hle
    · cases hr.symm.trans hnone

/-- A page past everything that was served serves none of it again, and leaves all of it behind. -/
theorem Behind.read_page (h : Behind text horizon f turn t) {after : Option κ} {next : Option String}
    (hnext : next = (response text t.store f (t.store.page text f turn after)).nextCursor)
    (hserved : ∀ k ∈ t.pages.flatten, ∃ r c, t.store.jobs.get? k = some r ∧ after = some c ∧
      r.key text f turn ≤ c) :
    Behind text horizon f turn { t with
      next := next.map some
      pages := t.pages ++ [(t.store.page text f turn after).map JobRow.id] } := by
  have hrow : ∀ r ∈ t.store.page text f turn after, t.store.jobs.get? r.id = some r := fun r hr =>
    Table.get?_eq_some (List.mem_of_mem_filter (mem_of_mem_keysetPage hr).1)
  refine ⟨?_, h.soon, h.written, ?_, ?_⟩
  · rw [List.pairwise_append]
    refine ⟨h.disjoint, List.pairwise_singleton .., fun page hpage last hlast => ?_⟩
    rw [List.mem_singleton.1 hlast]
    intro k hk hk'
    obtain ⟨r, c, hr, rfl, hle⟩ := hserved k (List.mem_flatten.2 ⟨page, hpage, hk⟩)
    obtain ⟨r', hr', rfl⟩ := List.mem_map.1 hk'
    cases hr.symm.trans (hrow r' hr')
    exact absurd ((mem_of_mem_keysetPage hr').2 c rfl) (not_lt.2 hle)
  · intro hfirst
    cases next with
    | none => cases hfirst
    | some cursor => cases hfirst
  · intro cursor hcursor
    cases next with
    | none => cases hcursor
    | some c =>
      cases hcursor
      obtain ⟨last, hlast, hspell⟩ := Option.map_eq_some_iff.1 hnext.symm
      refine ⟨readJob last, hspell.symm, fun k hk => ?_⟩
      rw [jobKey_readJob]
      rw [List.flatten_append, List.flatten_singleton, List.mem_append] at hk
      rcases hk with hk | hk
      · obtain ⟨r, c, hr, rfl, hle⟩ := hserved k hk
        have hpast := (mem_of_mem_keysetPage (mem_of_pageLast hlast)).2 c rfl
        exact ⟨r, hr, hle.trans hpast.le⟩
      · obtain ⟨r, hr, rfl⟩ := List.mem_map.1 hk
        exact ⟨r, hrow r hr, key_le_pageLast hlast hr⟩

theorem Behind.step (hkeys : PagesBy text f turn)
    (hf : (ListQuery.fromPairs pairs).toFilter = .ok f) (hfirst : f.after = none)
    (hkeeps : KeepsBehind text horizon f turn ok) (h : Behind text horizon f turn t)
    (hstep : Step text horizon pairs ok t t') : Behind text horizon f turn t' := by
  cases hstep with
  | written later soon allowed => exact h.written_step hkeeps later soon allowed
  | @read cursor next page due served =>
    have hids : ∀ rows : List JobRow, (rows.map readJob).map RepairJob.id = rows.map JobRow.id := by
      intro rows
      rw [List.map_map]
      rfl
    cases cursor with
    | none =>
      rw [nextPage_none hkeys hf hfirst] at served
      cases served
      rw [response, hids]
      refine h.read_page rfl fun k hk => ?_
      rw [h.first due] at hk
      cases hk
    | some cursor =>
      obtain ⟨job, rfl, hbehind⟩ := h.served cursor due
      rw [nextPage_some hkeys hf job] at served
      cases served
      rw [response, hids]
      refine h.read_page rfl fun k hk => ?_
      obtain ⟨r, hr, hle⟩ := hbehind k hk
      exact ⟨r, _, hr, rfl, hle⟩

theorem Behind.run (hkeys : PagesBy text f turn)
    (hf : (ListQuery.fromPairs pairs).toFilter = .ok f) (hfirst : f.after = none)
    (hkeeps : KeepsBehind text horizon f turn ok) (h : Behind text horizon f turn t)
    (hrun : Run text horizon pairs ok t t') : Behind text horizon f turn t' := by
  induction hrun with
  | refl => exact h
  | tail _ hstep ih => exact ih.step hkeys hf hfirst hkeeps hstep

/-! ## Which orders keep what was served behind the cursor -/

omit [LinearOrder κ] in
/-- The column and the id are all there is to a key. -/
theorem key_congr {r r' : JobRow} (hid : r'.id = r.id) (hcolumn : f.sort.column r' = f.sort.column r) :
    r'.key text f turn = r.key text f turn := by
  rw [JobRow.key, JobRow.key, JobRow.place, JobRow.place, hid, hcolumn]

/-- The time of a job's creation never changes. -/
theorem keepsBehind_createdAt (hsort : f.sort = .createdAt) :
    KeepsBehind text horizon f turn ok := by
  intro t e now r r' _ _ _ _ hstamps
  refine (key_congr hstamps.id ?_).le
  rw [hsort]
  exact hstamps.created

/-- In descending order a job only ever moves to the front. -/
theorem keepsBehind_descending (htext : ∀ a b, a < b → b < horizon → text a < text b)
    (hsort : f.sort = .updatedAt) : KeepsBehind text horizon f OrderDual.toDual ok := by
  intro t e now r r' _ _ hwritten hsoon hstamps
  rcases hstamps.updated with hsame | ⟨-, hnow⟩
  · refine (key_congr hstamps.id ?_).le
    rw [hsort]
    exact hsame
  · show r.place text f.sort.column ≤ r'.place text f.sort.column
    rw [hsort, JobRow.place, JobRow.place, Prod.Lex.toLex_le_toLex]
    rcases hwritten.lt_or_eq with hlt | heq
    · have hlater : text r.updatedAt < text r'.updatedAt := by
        rw [hnow]
        exact htext _ _ hlt hsoon
      exact .inl hlater
    · refine .inr ⟨congrArg text (heq.trans hnow.symm), ?_⟩
      rw [hstamps.id]

/-- A job that nothing touches stays where it is. -/
theorem keepsBehind_leavesServed : KeepsBehind text horizon f turn LeavesServed := by
  intro t e now r r' hok hserved _ _ hstamps
  refine (key_congr hstamps.id ?_).le
  cases f.sort with
  | createdAt => exact hstamps.created
  | updatedAt =>
    refine hstamps.updated.resolve_right fun h => ?_
    exact hok _ h.1 hserved

theorem Behind.of_run (hkeys : PagesBy text f turn)
    (hf : (ListQuery.fromPairs pairs).toFilter = .ok f) (hfirst : f.after = none)
    (hkeeps : KeepsBehind text horizon f turn ok) (h : Begins horizon t)
    (hrun : Run text horizon pairs ok t t') : t'.pages.Pairwise List.Disjoint :=
  have hbehind : Behind text horizon f turn t := h.behind
  (hbehind.run hkeys hf hfirst hkeeps hrun).disjoint

end

/-! ## A job that is touched between two pages -/

/-- A page with these jobs is read. -/
theorem Step.read_of {text : Stamp → String} {horizon : Stamp} {pairs : List (String × String)}
    {ok : Traversal → StoreEvent → Prop} {t : Traversal} {cursor next : Option String}
    {ids : List JobId} (due : t.next = some cursor)
    (page : (nextPage text t.store pairs cursor).map (fun p => (p.1.jobs.map RepairJob.id, p.2)) =
      some (ids, next)) :
    Step text horizon pairs ok t { t with next := next.map some, pages := t.pages ++ [ids] } := by
  obtain ⟨⟨response, _⟩, hpage, hids⟩ := Option.map_eq_some_iff.1 page
  cases hids
  exact .read due hpage

/-- One job, updated a microsecond into the clock. -/
def oneJob : SqliteRepairStore where
  jobs := ⟨[discoveredRow ⟨1⟩ 1 ⟨⟨"tracker"⟩, ⟨"7"⟩, "show", none, 10, none⟩], by decide⟩
  files := .empty
  transitions := []
  jobSeq := 1

/-- The job is released between two pages of one job each, oldest first. -/
theorem releasedBetween : Begins 10 ⟨oneJob, 1000, some none, []⟩ ∧
    ∃ t, Run earlyText 10 [("order", "asc"), ("limit", "1")] Anything
        ⟨oneJob, 1000, some none, []⟩ t ∧
      ¬t.pages.Pairwise List.Disjoint := by
  have hbegins : Begins 10 ⟨oneJob, 1000, some none, []⟩ := by
    refine ⟨rfl, rfl, by decide, fun k r hr => ?_⟩
    have hmem := (Table.get?_some hr).1
    rw [List.mem_singleton.1 hmem]
    decide
  refine ⟨hbegins, ?_⟩
  let pairs := [("order", "asc"), ("limit", "1")]
  let release : StoreEvent := .called (.release ⟨1⟩ none false)
  have hfirst : (nextPage earlyText oneJob pairs none).map
      (fun p => (p.1.jobs.map RepairJob.id, p.2)) =
        some ([⟨1⟩], some "1970-01-01T00:00:00.000001Z|1") := by decide +kernel
  have hsecond : (nextPage earlyText (release.run 2000 oneJob) pairs
      (some "1970-01-01T00:00:00.000001Z|1")).map (fun p => (p.1.jobs.map RepairJob.id, p.2)) =
        some ([⟨1⟩], some "1970-01-01T00:00:00.000002Z|1") := by decide +kernel
  have hrelease : Step earlyText 10 pairs Anything
      ⟨oneJob, 1000, some (some "1970-01-01T00:00:00.000001Z|1"), [[⟨1⟩]]⟩
      ⟨release.run 2000 oneJob, 2000, some (some "1970-01-01T00:00:00.000001Z|1"), [[⟨1⟩]]⟩ :=
    .written (by decide) (by decide) trivial
  have hread : Step earlyText 10 pairs Anything _ _ :=
    Step.read_of (t := ⟨oneJob, 1000, some none, []⟩) rfl hfirst
  refine ⟨_, ((Relation.ReflTransGen.single hread).tail hrelease).tail (Step.read_of rfl hsecond),
    fun hdisjoint => ?_⟩
  exact (List.pairwise_cons.1 hdisjoint).1 [⟨1⟩] (List.mem_singleton_self _)
    (List.mem_singleton_self _) (List.mem_singleton_self _)

/-- No order but that of the last change, oldest first, serves a job on two pages; and that one does
    not either as long as nothing touches a job that was served. -/
theorem neverRepeats_iff (sort : JobSort) (descending : Bool) :
    (NeverRepeats sort descending Anything ↔ descending = true ∨ sort = .createdAt) ∧
      NeverRepeats sort descending LeavesServed := by
  have hlimit : ∀ {pairs : List (String × String)} {f : JobFilter},
      (ListQuery.fromPairs pairs).toFilter = .ok f → 0 ≤ f.limit := fun hf =>
    le_trans (by decide) (ListQuery.toFilter_ok hf).1.1
  refine ⟨⟨fun h => ?_, fun horder => ?_⟩, ?_⟩
  · by_contra hnot
    rw [not_or, Bool.not_eq_true] at hnot
    obtain ⟨rfl, hsort⟩ := hnot
    obtain rfl : sort = .updatedAt := by
      cases sort with
      | updatedAt => rfl
      | createdAt => exact absurd rfl hsort
    obtain ⟨hbegins, t, hrun, hpages⟩ := releasedBetween
    exact hpages (h earlyText 10 _ { JobFilter.default with descending := false, limit := 1 } _ t
      earlyText_lt rfl rfl rfl rfl hbegins hrun)
  · intro text horizon pairs f t t' htext hf hfirst hsort hdir hbegins hrun
    cases descending with
    | true =>
      have hkeeps : KeepsBehind text horizon f OrderDual.toDual Anything := by
        cases hcolumn : f.sort with
        | updatedAt => exact keepsBehind_descending htext hcolumn
        | createdAt => exact keepsBehind_createdAt hcolumn
      exact Behind.of_run (pagesBy_descending hdir (hlimit hf)) hf hfirst hkeeps hbegins hrun
    | false =>
      have hcreated : f.sort = .createdAt := by simpa [hsort] using horder
      exact Behind.of_run (pagesBy_ascending hdir (hlimit hf)) hf hfirst
        (keepsBehind_createdAt hcreated) hbegins hrun
  · intro text horizon pairs f t t' htext hf hfirst hsort hdir hbegins hrun
    cases descending with
    | true =>
      exact Behind.of_run (pagesBy_descending hdir (hlimit hf)) hf hfirst keepsBehind_leavesServed
        hbegins hrun
    | false =>
      exact Behind.of_run (pagesBy_ascending hdir (hlimit hf)) hf hfirst keepsBehind_leavesServed
        hbegins hrun

/-- The list of the jobs by their last change, oldest first, shows a job again that was released
    after its page. -/
theorem served_twice : ¬ ∀ sort descending, NeverRepeats sort descending Anything := by
  intro h
  obtain ⟨hbegins, t, hrun, hpages⟩ := releasedBetween
  exact hpages (h .updatedAt false earlyText 10 _
    { JobFilter.default with descending := false, limit := 1 } _ t earlyText_lt rfl rfl rfl rfl
    hbegins hrun)

end Traversal

end SeedMedic
