/-
  What a listing of hit-and-runs asks for and comes to, whatever the tracker answers, and
  when the tracker's key stays with the tracker.
-/
import SeedMedic.Lib.Fallible
import SeedMedic.Tracker.Unit3d

namespace SeedMedic

open Lib

/-- What a tracker answers: to which request, by how many came before. -/
abbrev TrackerAnswers := ℕ → HttpRequest → Except String HttpResponse

/-- The requests made so far, answered one after the other. -/
def serveHttp (answers : TrackerAnswers) : (c : HttpCall) → List HttpRequest → c.Ans × List HttpRequest
  | .throttle, sent => ((), sent)
  | .send request, sent => (answers sent.length request, sent ++ [request])

/-- A request has a key in it. -/
def HttpRequest.Carries (q : HttpRequest) (key : String) : Prop :=
  q.bearerAuth = some key ∨ ("api_token", key) ∈ q.query

namespace Unit3dTracker

variable (urls : UrlLibrary) (t : Unit3dTracker) (answers : TrackerAnswers)

/-- What a listing comes to, and the requests it made. -/
def listing : Option (Except TrackerError (List HitAndRun)) × List HttpRequest :=
  (t.listHitAndRuns urls).run (serveHttp answers) []

/-- The page that the `n`-th request, for an address, is answered with. -/
def pageAt (n : ℕ) (url : Url) : Except TrackerError HitAndRunPage :=
  pageOf (answers n (t.authorize url))

/-- The addresses that come up when the pages are read one after the other: the first, and the
    link of each page that is read in full. -/
inductive Asked : ℕ → Url → Prop
  | first {url : Url} (h : t.url urls "api/hit-and-runs" = .ok url) : Asked 0 url
  | next {n : ℕ} {url next : Url} {page : HitAndRunPage} {warnings : List HitAndRun}
      (asked : Asked n url) (read : t.pageAt answers n url = .ok page)
      (link : t.readPage urls page = some (.ok (warnings, some next))) : Asked (n + 1) next

/-- The pages from an address on, to the one without a link. -/
inductive Pages : ℕ → Url → List HitAndRunPage → Prop
  | last {n : ℕ} {url : Url} {page : HitAndRunPage} (read : t.pageAt answers n url = .ok page)
      (none : page.next = none) : Pages n url [page]
  | more {n : ℕ} {url next : Url} {page : HitAndRunPage} {pages : List HitAndRunPage} {link : String}
      (read : t.pageAt answers n url = .ok page) (some : page.next = some link)
      (parsed : urls.parse link = .ok next) (rest : Pages (n + 1) next pages) :
      Pages n url (page :: pages)

/-- An entry as a warning. -/
def warningOf (entry : HitAndRunEntry) : HitAndRun where
  tracker := t.id
  torrentId := ⟨toString entry.id⟩
  torrentName := entry.name
  infoHash := entry.infoHash.bind fun hex => (InfoHash.parseHex hex).bind Except.toOption
  sizeBytes := entry.size
  deadline := entry.hitAndRunDeadline

/-- A listing makes as many requests as it may at most, comes to an error or to the entries of
    all the pages in order, and sends the key nowhere but to where the tracker is. -/
structure ListsSafely : Prop where
  bounded : (t.listing urls answers).2.length ≤ MAX_PAGES
  returns : (t.listing urls answers).1 ≠ none
  complete : ∀ warnings, (t.listing urls answers).1 = some (.ok warnings) →
    ∃ url pages, t.url urls "api/hit-and-runs" = .ok url ∧ t.Pages urls answers 0 url pages ∧
      warnings = pages.flatMap fun page => page.data.map t.warningOf
  kept : ∀ q ∈ (t.listing urls answers).2, q.Carries t.apiKey.value →
    urls.origin q.url = urls.origin t.baseUrl

/-- The pages asked for are where the tracker is, and reading their hashes does not panic. -/
def StaysHome : Prop :=
  ∀ n url, n < MAX_PAGES → t.Asked urls answers n url →
    urls.origin url = urls.origin t.baseUrl ∧
      ∀ page, t.pageAt answers n url = .ok page → t.readPage urls page ≠ none

variable {urls t answers}

theorem authorize_carries (url : Url) : (t.authorize url).Carries t.apiKey.value := by
  unfold authorize
  cases t.tokenPlacement with
  | header => exact .inl rfl
  | query => exact .inr List.mem_cons_self

theorem authorize_url (url : Url) : (t.authorize url).url = url := by
  unfold authorize
  cases t.tokenPlacement <;> rfl

/-- What is read of a page's entries is all of them. -/
theorem readEntries_ok {entries : List HitAndRunEntry} {warnings : List HitAndRun}
    (h : t.readEntries entries = some (.ok warnings)) : warnings = entries.map t.warningOf := by
  induction entries generalizing warnings with
  | nil =>
    cases h
    rfl
  | cons entry entries ih =>
    have hentry : ∀ warning, t.readEntry entry = some (.ok warning) → warning = t.warningOf entry := by
      intro warning hread
      unfold readEntry at hread
      unfold warningOf
      cases hhash : entry.infoHash with
      | none =>
        rw [hhash] at hread
        cases hread
        rfl
      | some hex =>
        rw [hhash] at hread
        obtain ⟨parsed, hparsed, hread⟩ := Option.map_eq_some_iff.1 hread
        cases parsed with
        | error e => cases hread
        | ok hash =>
          cases hread
          simp [hparsed, Except.toOption]
    unfold readEntries at h
    split at h
    · cases h
    · cases h
    · next warning hread =>
      obtain ⟨rest, hrest, h⟩ := Option.map_eq_some_iff.1 h
      cases rest with
      | error e => cases h
      | ok rest =>
        cases h
        rw [List.map_cons, ← hentry warning hread, ← ih hrest]

/-- What a page holds is all its entries, and the address its link parses as. -/
theorem readPage_ok {page : HitAndRunPage} {warnings : List HitAndRun} {next : Option Url}
    (h : t.readPage urls page = some (.ok (warnings, next))) :
    warnings = page.data.map t.warningOf ∧ nextUrl urls page = .ok next := by
  obtain ⟨entries, hentries, h⟩ := Option.map_eq_some_iff.1 h
  obtain ⟨read, hread, h⟩ := bind_eq_ok.1 h
  obtain ⟨link, hlink, h⟩ := bind_eq_ok.1 h
  cases h
  exact ⟨readEntries_ok (hread ▸ hentries), hlink⟩

/-- No two addresses come up at one place. -/
theorem Asked.unique {n : ℕ} {url url' : Url} (h : t.Asked urls answers n url)
    (h' : t.Asked urls answers n url') : url = url' := by
  induction h generalizing url' with
  | first h =>
    cases h' with
    | first h' => exact Except.ok.inj (h.symm.trans h')
  | next asked read link ih =>
    cases h' with
    | next asked' read' link' =>
      cases ih asked'
      cases Except.ok.inj (read.symm.trans read')
      cases link.symm.trans link'
      rfl

/-- Behind a page that has no next one, nothing comes up. -/
theorem Asked.stops {n : ℕ} {url : Url} (h : t.Asked urls answers n url)
    (hlast : ∀ page warnings next, t.pageAt answers n url = .ok page →
      t.readPage urls page ≠ some (.ok (warnings, some next))) :
    ∀ m url', t.Asked urls answers m url' → m ≤ n := by
  intro m
  induction m with
  | zero => exact fun _ _ => Nat.zero_le n
  | succ m ih =>
    intro url' hasked
    cases hasked with
    | next asked read link =>
      rcases (ih _ asked).lt_or_eq with hlt | rfl
      · exact hlt
      · cases asked.unique h
        exact absurd link (hlast _ _ _ read)

/-- What a listing does from the `n`-th request on: it asks for the addresses that come up, dies at
    a page whose hashes panic, and returns the entries of the pages. -/
structure ListsFrom (urls : UrlLibrary) (t : Unit3dTracker) (answers : TrackerAnswers) (left n : ℕ)
    (next : Option Url) (warnings : List HitAndRun) (sent : List HttpRequest)
    (r : Option (Except TrackerError (List HitAndRun)) × List HttpRequest) : Prop where
  sends : ∃ more, r.2 = sent ++ more ∧ more.length ≤ left ∧ ∀ q ∈ more, ∃ m url,
    m < n + left ∧ t.Asked urls answers m url ∧ q = t.authorize url
  asks : ∀ m url, n ≤ m → m < n + left → t.Asked urls answers m url → t.authorize url ∈ r.2
  dies : r.1 = none ↔ ∃ m url page, n ≤ m ∧ m < n + left ∧ t.Asked urls answers m url ∧
    t.pageAt answers m url = .ok page ∧ t.readPage urls page = none
  returns : ∀ listed, r.1 = some (.ok listed) → (next = none ∧ listed = warnings) ∨
    ∃ url pages, next = some url ∧ t.Pages urls answers n url pages ∧
      listed = warnings ++ pages.flatMap fun page => page.data.map t.warningOf

/-- A listing that asks for no address. -/
theorem listsFrom_none {left n : ℕ} {next : Option Url} {warnings : List HitAndRun}
    {sent : List HttpRequest} {result : Except TrackerError (List HitAndRun)}
    (hnone : ∀ m url, n ≤ m → m < n + left → ¬t.Asked urls answers m url)
    (hresult : ∀ listed, result = .ok listed → next = none ∧ listed = warnings) :
    ListsFrom urls t answers left n next warnings sent (some result, sent) where
  sends := ⟨[], (List.append_nil _).symm, Nat.zero_le _, fun q hq => absurd hq List.not_mem_nil⟩
  asks m url hle hlt hasked := absurd hasked (hnone m url hle hlt)
  dies := by
    constructor
    · intro h
      cases h
    · rintro ⟨m, url, page, hle, hlt, hasked, -⟩
      exact absurd hasked (hnone m url hle hlt)
  returns listed h := .inl (hresult listed (Option.some.inj h))

/-- A listing that ends at the page of an address, which cannot be read. -/
theorem listsFrom_last {left n : ℕ} {url : Url} {warnings : List HitAndRun}
    {sent : List HttpRequest} {result : Option (Except TrackerError (List HitAndRun))}
    (hasked : t.Asked urls answers n url)
    (hlast : ∀ page more next, t.pageAt answers n url = .ok page →
      t.readPage urls page ≠ some (.ok (more, some next)))
    (hdies : result = none ↔ ∃ page, t.pageAt answers n url = .ok page ∧
      t.readPage urls page = none)
    (hresult : ∀ listed, result ≠ some (.ok listed)) :
    ListsFrom urls t answers (left + 1) n (some url) warnings sent
      (result, sent ++ [t.authorize url]) where
  sends := by
    refine ⟨[t.authorize url], rfl, by simp, fun q hq => ?_⟩
    exact ⟨n, url, by omega, hasked, List.mem_singleton.1 hq⟩
  asks m url' hle hlt hasked' := by
    have hm : m = n := le_antisymm (hasked.stops hlast m url' hasked') hle
    subst hm
    rw [hasked'.unique hasked]
    exact List.mem_append_right _ List.mem_cons_self
  dies := by
    rw [hdies]
    constructor
    · rintro ⟨page, hread, hpanic⟩
      exact ⟨n, url, page, le_rfl, by omega, hasked, hread, hpanic⟩
    · rintro ⟨m, url', page, hle, hlt, hasked', hread, hpanic⟩
      have hm : m = n := le_antisymm (hasked.stops hlast m url' hasked') hle
      subst hm
      cases hasked'.unique hasked
      exact ⟨page, hread, hpanic⟩
  returns listed h := absurd h (hresult listed)

/-- A listing that goes on behind the page of an address. -/
theorem ListsFrom.cons {left n : ℕ} {url : Url} {page : HitAndRunPage} {next : Option Url}
    {warnings more : List HitAndRun} {sent : List HttpRequest}
    {r : Option (Except TrackerError (List HitAndRun)) × List HttpRequest}
    (hasked : t.Asked urls answers n url) (hread : t.pageAt answers n url = .ok page)
    (hpage : t.readPage urls page = some (.ok (more, next)))
    (h : ListsFrom urls t answers left (n + 1) next (warnings ++ more)
      (sent ++ [t.authorize url]) r) :
    ListsFrom urls t answers (left + 1) n (some url) warnings sent r where
  sends := by
    obtain ⟨rest, hrest, hlength, hurls⟩ := h.sends
    refine ⟨t.authorize url :: rest, by rw [hrest, List.append_assoc]; rfl, by simpa using hlength,
      fun q hq => ?_⟩
    rcases List.mem_cons.1 hq with rfl | hq
    · exact ⟨n, url, by omega, hasked, rfl⟩
    · obtain ⟨m, url', hlt, hasked', rfl⟩ := hurls q hq
      exact ⟨m, url', by omega, hasked', rfl⟩
  asks m url' hle hlt hasked' := by
    rcases hle.lt_or_eq with hlt' | rfl
    · exact h.asks m url' hlt' (by omega) hasked'
    · obtain ⟨rest, hrest, -⟩ := h.sends
      rw [hasked'.unique hasked, hrest]
      simp
  dies := by
    rw [h.dies]
    constructor
    · rintro ⟨m, url', page', hle, hlt, hrest⟩
      exact ⟨m, url', page', by omega, by omega, hrest⟩
    · rintro ⟨m, url', page', hle, hlt, hasked', hread', hpanic⟩
      rcases hle.lt_or_eq with hlt' | rfl
      · exact ⟨m, url', page', hlt', by omega, hasked', hread', hpanic⟩
      · cases hasked'.unique hasked
        cases Except.ok.inj (hread.symm.trans hread')
        rw [hpanic] at hpage
        cases hpage
  returns listed hlisted := by
    obtain ⟨rfl, hlink⟩ := readPage_ok hpage
    rcases h.returns listed hlisted with ⟨rfl, rfl⟩ | ⟨url', pages, rfl, hpages, rfl⟩
    · refine .inr ⟨url, [page], rfl, .last hread ?_, by simp⟩
      unfold nextUrl at hlink
      cases hnext : page.next with
      | none => rfl
      | some link =>
        rw [hnext] at hlink
        dsimp only at hlink
        split at hlink <;> cases hlink
    · refine .inr ⟨url, page :: pages, rfl, ?_, by simp⟩
      unfold nextUrl at hlink
      cases hnext : page.next with
      | none =>
        rw [hnext] at hlink
        cases hlink
      | some link =>
        rw [hnext] at hlink
        dsimp only at hlink
        split at hlink
        · next hparsed =>
          cases hlink
          exact .more hread hnext hparsed hpages
        · cases hlink

theorem listFrom_lists {left n : ℕ} {next : Option Url} {warnings : List HitAndRun}
    {sent : List HttpRequest} (hsent : sent.length = n)
    (hnext : ∀ url, next = some url → t.Asked urls answers n url)
    (hnone : next = none → ∀ m url, n ≤ m → ¬t.Asked urls answers m url) :
    ListsFrom urls t answers left n next warnings sent
      ((t.listFrom urls left next warnings).run (serveHttp answers) sent) := by
  induction left generalizing n next warnings sent with
  | zero =>
    cases next with
    | none =>
      refine listsFrom_none (fun m url hle hlt => ?_) fun listed h => ⟨rfl, (Except.ok.inj h).symm⟩
      exact absurd hlt (by omega)
    | some url =>
      refine listsFrom_none (fun m url hle hlt => ?_) fun listed h => ?_
      · exact absurd hlt (by omega)
      · cases h
  | succ left ih =>
    cases next with
    | none =>
      refine listsFrom_none (fun m url hle _ => hnone rfl m url hle) fun listed h => ?_
      exact ⟨rfl, (Except.ok.inj h).symm⟩
    | some url =>
      have hasked := hnext url rfl
      have hrun : (t.getJson url).run (serveHttp answers) sent =
          (t.pageAt answers n url, sent ++ [t.authorize url]) := by
        rw [← hsent]
        rfl
      rw [listFrom, Prog.run_bind, hrun]
      cases hread : t.pageAt answers n url with
      | error e =>
        refine listsFrom_last hasked (fun page more next h => ?_) ?_ fun listed h => ?_
        · rw [hread] at h
          cases h
        · simp [hread]
        · cases h
      | ok page =>
        cases hpage : t.readPage urls page with
        | none =>
          simp only [hpage]
          refine listsFrom_last hasked (fun page' more next h => ?_) ?_ fun listed h => ?_
          · rw [hread] at h
            cases h
            rw [hpage]
            exact nofun
          · simp [hread, hpage]
          · cases h
        | some read =>
          cases read with
          | error e =>
            simp only [hpage]
            refine listsFrom_last hasked (fun page' more next h => ?_) ?_ fun listed h => ?_
            · rw [hread] at h
              cases h
              rw [hpage]
              exact nofun
            · simp [hread, hpage]
            · cases h
          | ok read =>
            obtain ⟨more, next⟩ := read
            simp only [hpage]
            refine .cons hasked hread hpage (ih (by simp [hsent]) (fun url' hurl' => ?_) ?_)
            · cases hurl'
              exact hasked.next hread hpage
            · rintro rfl m url' hle hasked'
              have hstops := hasked.stops (fun page' more' next' hread' hpage' => ?_) m url' hasked'
              · omega
              · cases Except.ok.inj (hread.symm.trans hread')
                rw [hpage] at hpage'
                cases hpage'

/-- A listing asks for its first address, where there is one. -/
theorem listing_lists : ListsFrom urls t answers MAX_PAGES 0 (t.url urls "api/hit-and-runs").toOption
    [] [] (t.listing urls answers) := by
  unfold listing listHitAndRuns
  cases hurl : t.url urls "api/hit-and-runs" with
  | error e =>
    refine listsFrom_none (fun m url _ _ hasked => ?_) fun listed h => ?_
    · induction hasked with
      | first h =>
        rw [hurl] at h
        cases h
      | next _ _ _ ih => exact ih (by omega) (by omega)
    · cases h
  | ok url =>
    refine listFrom_lists rfl (fun url' h => ?_) fun h => ?_
    · cases h
      exact .first hurl
    · cases h

/-- Addresses of the form `https://host/...`. -/
def hostUrls : UrlLibrary where
  parse text := .ok ⟨text, "https"⟩
  join base path := .ok ⟨base.text ++ path, base.scheme⟩
  origin url := ⟨url.scheme, String.ofList ((url.text.toList.drop 8).takeWhile fun c => c ≠ '/'), 443⟩

def linkedTracker : Unit3dTracker :=
  ⟨⟨"tracker"⟩, ⟨"https://tracker.test/", "https"⟩, .new "key", .header⟩

/-- A page with a link to another host, and a page without one. -/
def linkedAnswers : TrackerAnswers
  | 0, _ => .ok ⟨200, "200 OK", none, .ok ⟨[], some "https://other.test/api/hit-and-runs?page=2"⟩⟩
  | _ + 1, _ => .ok ⟨200, "200 OK", none, .ok ⟨[], none⟩⟩

end Unit3dTracker

end SeedMedic
