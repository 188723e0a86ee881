/-
  Listing hit-and-runs from a Unit3D tracker page by page, and where the requests go that
  carry its key (`tracker/adapters/unit3d.rs`).
-/
import SeedMedic.Config.Domain
import SeedMedic.Lib.Text
import SeedMedic.Torrent.InfoHash
import SeedMedic.Tracker.Domain

namespace SeedMedic

open Lib

/-! ## Addresses and requests -/

structure Origin where
  scheme : String
  host : String
  port : ℕ
  deriving DecidableEq

/-- What is done with addresses. -/
structure UrlLibrary where
  parse : String → Except String Url
  /-- A reference, read where it stands in what is at an address. -/
  join : Url → String → Except String Url
  origin : Url → Origin

structure HttpRequest where
  url : Url
  bearerAuth : Option String
  query : List (String × String)
  deriving DecidableEq

/-- One entry in a page of the listing. -/
structure HitAndRunEntry where
  id : ℕ
  name : String
  size : ℕ
  infoHash : Option String
  hitAndRunDeadline : Option Time

structure HitAndRunPage where
  data : List HitAndRunEntry
  /-- The link to the next page. -/
  next : Option String

structure HttpResponse where
  status : ℕ
  /-- The status with its reason, as it is written. -/
  statusText : String
  retryAfter : Option String
  /-- The body as a page, or the error of reading it as one. -/
  body : Except String HitAndRunPage

inductive HttpCall where
  /-- Wait for the caller's turn. -/
  | throttle
  | send (request : HttpRequest)

@[reducible] def HttpCall.Ans : HttpCall → Type
  | throttle => Unit
  | send _ => Except String HttpResponse

/-- Code that talks to a tracker. -/
abbrev H := Prog HttpCall HttpCall.Ans

def H.ask (c : HttpCall) : H c.Ans := Prog.ask c

/-! ## The adapter -/

def DEFAULT_RETRY_AFTER_SECONDS : ℕ := 60

/-- More pages than these are no account. -/
def MAX_PAGES : ℕ := 1000

structure Unit3dTracker where
  id : TrackerId
  baseUrl : Url
  apiKey : Secret
  tokenPlacement : TokenPlacement

/-- The error of a status that is no success. -/
def statusError (status : ℕ) (statusText : String) (retryAfter : Option ℕ) : TrackerError :=
  match status with
  | 401 | 403 => .unauthorized
  | 429 => .rateLimited (retryAfter.getD DEFAULT_RETRY_AFTER_SECONDS)
  | 404 => .protocol "tracker returned 404"
  | _ => .protocol ("tracker returned status " ++ statusText)

def retryAfterSeconds (response : HttpResponse) : Option ℕ :=
  response.retryAfter.bind fun text => fromStrRadix 10 (2 ^ 64 - 1) text.toList

/-- What is made of an answer: the page of a success, or the error. -/
def pageOf : Except String HttpResponse → Except TrackerError HitAndRunPage
  | .error source => .error (.transport source)
  | .ok response =>
    if 200 ≤ response.status ∧ response.status < 300 then
      response.body.mapError fun error => .protocol ("cannot parse response: " ++ error)
    else .error (statusError response.status response.statusText (retryAfterSeconds response))

namespace Unit3dTracker

variable (urls : UrlLibrary) (t : Unit3dTracker)

def url (path : String) : Except TrackerError Url :=
  (urls.join t.baseUrl path).mapError fun error => .protocol ("cannot build request URL: " ++ error)

/-- The key goes where the tracker wants it. -/
def authorize (url : Url) : HttpRequest :=
  match t.tokenPlacement with
  | .header => ⟨url, some t.apiKey.value, []⟩
  | .query => ⟨url, none, [("api_token", t.apiKey.value)]⟩

def getJson (url : Url) : H (Except TrackerError HitAndRunPage) := do
  H.ask .throttle
  let answer ← H.ask (.send (t.authorize url))
  pure (pageOf answer)

/-- An entry as a warning; nothing where the program panics. -/
def readEntry (entry : HitAndRunEntry) : Option (Except TrackerError HitAndRun) :=
  let warning (infoHash : Option InfoHash) : HitAndRun :=
    ⟨t.id, ⟨toString entry.id⟩, entry.name, infoHash, entry.size, entry.hitAndRunDeadline⟩
  match entry.infoHash with
  | none => some (.ok (warning none))
  | some hex =>
    (InfoHash.parseHex hex).map fun
      | .ok hash => .ok (warning (some hash))
      | .error error => .error (.protocol ("hit-and-run " ++ toString entry.id ++
          " has an unparseable info_hash: " ++ error.toText))

/-- The entries of a page as warnings, up to the first that is none. -/
def readEntries : List HitAndRunEntry → Option (Except TrackerError (List HitAndRun))
  | [] => some (.ok [])
  | entry :: entries =>
    match t.readEntry entry with
    | none => none
    | some (.error e) => some (.error e)
    | some (.ok warning) => (readEntries entries).map fun rest => rest.map (warning :: ·)

/-- The address of the next page, where there is one. -/
def nextUrl (page : HitAndRunPage) : Except TrackerError (Option Url) :=
  match page.next with
  | none => .ok none
  | some next =>
    match urls.parse next with
    | .ok url => .ok (some url)
    | .error error => .error (.protocol ("unparseable pagination link: " ++ error))

/-- What a page holds and the address of the next one; nothing where the program panics. -/
def readPage (page : HitAndRunPage) :
    Option (Except TrackerError (List HitAndRun × Option Url)) :=
  (t.readEntries page.data).map fun entries => do
    let warnings ← entries
    let next ← nextUrl urls page
    pure (warnings, next)

/-- Page by page from an address on, `left` of them at most; nothing where the program panics. -/
def listFrom : (left : ℕ) → Option Url → List HitAndRun →
    H (Option (Except TrackerError (List HitAndRun)))
  | _, none, warnings => pure (some (.ok warnings))
  | 0, some _, _ => pure (some (.error (.protocol ("hit-and-run listing did not terminate after " ++
      toString MAX_PAGES ++ " pages"))))
  | left + 1, some url, warnings => do
    match ← t.getJson url with
    | .error e => pure (some (.error e))
    | .ok page =>
      match t.readPage urls page with
      | none => pure none
      | some (.error e) => pure (some (.error e))
      | some (.ok (more, next)) => listFrom left next (warnings ++ more)

def listHitAndRuns : H (Option (Except TrackerError (List HitAndRun))) :=
  match t.url urls "api/hit-and-runs" with
  | .error e => pure (some (.error e))
  | .ok url => t.listFrom urls MAX_PAGES (some url) []

end Unit3dTracker

end SeedMedic
