/-
  What a request shows, read out of its headers, and what a client is told of its own standing
  (`web/mod.rs`, `web/login.rs`, `web/api/session.rs`).
-/
import Mathlib.Data.Bool.AllAny
import SeedMedic.Lib.Cookies
import SeedMedic.Torrent.InfoHash
import SeedMedic.Web.Sessions

namespace SeedMedic

open Lib Prog

/-! ## Headers -/

/-- The value of a header, as its bytes came. -/
structure HeaderValue where
  bytes : List UInt8

/-- The text of a value of visible ASCII and tabs. -/
def HeaderValue.toStr (value : HeaderValue) : Option String :=
  if value.bytes.all fun b => (32 ≤ b && b < 127) || b = 9 then
    some (String.ofList (value.bytes.map fun b => Char.ofNat b.toNat))
  else none

/-- The headers of a request in their order, their names in lower case. -/
structure HeaderMap where
  entries : List (String × HeaderValue)

namespace HeaderMap

/-- The first header of a name. -/
def get (headers : HeaderMap) (name : String) : Option HeaderValue :=
  (headers.entries.find? fun h => h.1 = name).map (·.2)

def text (headers : HeaderMap) (name : String) : Option String :=
  (headers.get name).bind HeaderValue.toStr

end HeaderMap

def stripPrefix (front text : String) : Option String :=
  if front.toList <+: text.toList then
    some (String.ofList (text.toList.drop front.toList.length))
  else none

/-- The token of a header that authorizes a bearer. -/
def bearerToken (value : HeaderValue) : Option String := value.toStr.bind (stripPrefix "Bearer ")

/-! ## The cookie of a session -/

def COOKIE_NAME : String := "seedmedic_session"

def isHttps (headers : HeaderMap) : Bool := headers.text "x-forwarded-proto" = some "https"

/-- The header that hands a session to a browser. -/
def cookieHeader (sessionId : String) (headers : HeaderMap) : String :=
  COOKIE_NAME ++ "=" ++ sessionId ++ "; HttpOnly; SameSite=Strict; Path=/" ++
    if isHttps headers then "; Secure" else ""

/-- The id of a session, of the bytes that were drawn for it. -/
def randomSessionId (bytes : List UInt8) : String := String.ofList (hexText bytes)

/-- The session a request names in its cookies. -/
def sessionIdFrom (headers : HeaderMap) : Option String :=
  (headers.text "cookie").bind fun raw =>
    (Cookie.find isWhitespace COOKIE_NAME.toList raw.toList).map String.ofList

theorem mem_of_mem_hexText {bytes : List UInt8} {c : Char} (h : c ∈ hexText bytes) :
    c ∈ "0123456789abcdef".toList := by
  have hdigit : ∀ n, hexDigit n ∈ "0123456789abcdef".toList := fun n => by
    have hlt : n % 16 < 16 := Nat.mod_lt _ (by decide)
    rw [hexDigit]
    interval_cases n % 16 <;> decide
  obtain ⟨b, -, hb⟩ := List.mem_flatMap.1 h
  rcases List.mem_cons.1 hb with rfl | hb
  · exact hdigit _
  · rw [List.mem_singleton.1 hb]
    exact hdigit _

/-- The cookie of a session. -/
def sessionCookie (bytes : List UInt8) : Cookie isWhitespace where
  name := COOKIE_NAME.toList
  value := hexText bytes
  named := List.all_iff_forall_prop.1 (by decide)
  valued := by
    have hdigits : ∀ c ∈ "0123456789abcdef".toList, c ≠ ';' ∧ isWhitespace c = false :=
      List.all_iff_forall_prop.1 (by decide)
    exact fun c hc => hdigits c (mem_of_mem_hexText hc)

/-- The header that hands a session to a browser sets its cookie. -/
theorem received_cookieHeader (bytes : List UInt8) (headers : HeaderMap) :
    Cookie.received isWhitespace (cookieHeader (randomSessionId bytes) headers).toList =
      some ((sessionCookie bytes).name, (sessionCookie bytes).value) := by
  have htext : (cookieHeader (randomSessionId bytes) headers).toList =
      (sessionCookie bytes).text ++ ';' :: (" HttpOnly; SameSite=Strict; Path=/".toList ++
        (if isHttps headers then "; Secure" else "").toList) := by
    simp [cookieHeader, randomSessionId, Cookie.text, sessionCookie]
  rw [htext, Cookie.received_text (by decide)]

/-- What is read of the cookies a browser sends is the first of the name that it keeps. -/
theorem sessionIdFrom_header {headers : HeaderMap} {jar : List (Cookie isWhitespace)}
    (h : headers.text "cookie" = some (String.ofList (Cookie.header jar))) :
    sessionIdFrom headers =
      (jar.find? fun cookie => cookie.name = COOKIE_NAME.toList).map
        fun cookie => String.ofList cookie.value := by
  rw [sessionIdFrom, h, Option.bind_some, String.toList_ofList,
    Cookie.find_header (by decide) (by decide), Option.map_map]
  rfl

/-! ## Requests -/

/-- A request, before anything is read out of it. -/
structure RawRequest where
  method : String
  path : String
  headers : HeaderMap

/-- Whether a text has another in it. -/
def hasText (part text : String) : Bool := text.toList.tails.any fun rest => part.toList <+: rest

/-- What is behind the last occurrence of a text. -/
def behindLast (part text : String) : String :=
  match (text.toList.tails.filter fun rest => part.toList <+: rest).getLast? with
  | some rest => String.ofList (rest.drop part.toList.length)
  | none => text

namespace RawRequest

def wantsHtml (request : RawRequest) : Bool :=
  (request.headers.text "accept").any (hasText "text/html")

/-- What the browser says of where a request comes from; else its origin and host. -/
def isCrossSite (request : RawRequest) : Bool :=
  match request.headers.text "sec-fetch-site" with
  | some site => site ≠ "same-origin" && site ≠ "none"
  | none =>
    match request.headers.text "origin" with
    | none => false
    | some origin =>
      match request.headers.text "host" with
      | none => true
      | some host => behindLast "://" origin ≠ host

/-- What is looked at of a request. -/
def read (request : RawRequest) : WebRequest where
  path := request.path
  post := request.method = "POST"
  authorization := (request.headers.get "authorization").map bearerToken
  session := sessionIdFrom request.headers
  wantsHtml := request.wantsHtml
  crossSite := request.isCrossSite

end RawRequest

/-! ## What a client is told of its own standing -/

/-- What the pages are told of the token; nothing where there is no generation to ask. -/
structure Chrome where
  authTokenSet : Option Bool

def Chrome.auth (chrome : Chrome) : String :=
  match chrome.authTokenSet with
  | some true => "set"
  | some false => "unset"
  | none => "unknown"

/-- What the pages of a generation are told. -/
def Runtime.chrome (runtime : Runtime) : Chrome := ⟨some runtime.authToken.isSome⟩

structure Features where
  fakes : Bool
  metrics : Bool

/-- What the program was built as. -/
structure App where
  version : String
  features : Features

structure SessionView where
  auth : String
  authenticated : Bool
  app : App

/-- `GET /api/v1/session`. -/
def session.show (app : App) (headers : HeaderMap) : S SessionView := do
  let runtime : Runtime ← S.ask .current
  match runtime.authToken with
  | none => pure ⟨runtime.chrome.auth, true, app⟩
  | some expected =>
    if ((headers.get "authorization").bind bearerToken).any expected.verify then
      pure ⟨runtime.chrome.auth, true, app⟩
    else
      match sessionIdFrom headers with
      | none => pure ⟨runtime.chrome.auth, false, app⟩
      | some id =>
        let live : Bool ← S.ask (.hasSession id)
        pure ⟨runtime.chrome.auth, live, app⟩

/-! ## The life of a session -/

inductive SessionEvent where
  | opened (id : String)
  | left (id : String)
  | allEnded

/-- A session was opened, and since then it was not left and not all were ended; the newest event
    is the first. -/
def Stays (log : List SessionEvent) (id : String) : Prop :=
  ∃ later earlier, log = later ++ .opened id :: earlier ∧ .left id ∉ later ∧ .allEnded ∉ later

/-- What is noted of the sessions when a call is answered. -/
def noteSessions {ι : Type} (_ : ι) :
    (c : ServiceCall) → c.Ans → Shared ι (List SessionEvent) → List SessionEvent
  | .createSession, id, w => .opened id :: w.notes
  | .destroySession id, _, w => .left id :: w.notes
  | .clearSessions, _, w => .allEnded :: w.notes
  | _, _, w => w.notes

/-- A service that nobody has signed in to. -/
def unvisited {ι : Type} (service : Service) : Shared ι (List SessionEvent) :=
  ⟨{ service with sessions := [] }, none, []⟩

section
variable {log : List SessionEvent} {id id' : String}

theorem not_stays_nil : ¬Stays [] id := by
  rintro ⟨later, earlier, h, -⟩
  cases later <;> cases h

theorem stays_cons {e : SessionEvent} : Stays (e :: log) id ↔
    e = .opened id ∨ e ≠ .left id ∧ e ≠ .allEnded ∧ Stays log id := by
  constructor
  · rintro ⟨later, earlier, h, hleft, hended⟩
    cases later with
    | nil =>
      cases h
      exact .inl rfl
    | cons e later =>
      cases h
      rw [List.mem_cons, not_or] at hleft hended
      exact .inr ⟨Ne.symm hleft.1, Ne.symm hended.1, later, earlier, rfl, hleft.2, hended.2⟩
  · rintro (rfl | ⟨hleft, hended, later, earlier, rfl, hlater⟩)
    · exact ⟨[], log, rfl, List.not_mem_nil, List.not_mem_nil⟩
    · exact ⟨e :: later, earlier, rfl, by simpa [Ne.symm hleft] using hlater.1,
        by simpa [Ne.symm hended] using hlater.2⟩

theorem stays_opened : Stays (.opened id' :: log) id ↔ id = id' ∨ Stays log id := by
  simp [stays_cons, eq_comm]

theorem stays_left : Stays (.left id' :: log) id ↔ id ≠ id' ∧ Stays log id := by
  simp [stays_cons, eq_comm]

theorem not_stays_allEnded : ¬Stays (.allEnded :: log) id := by
  simp [stays_cons]

end

section
variable {ι : Type} [DecidableEq ι] {service : Service} {env : ServiceEnv}
  {s : Lib.Config ι ServiceCall ServiceCall.Ans (Shared ι (List SessionEvent))} {id : String}

/-- In every run the live sessions are those that were opened and stay. -/
theorem live_iff_stays (hreach : (services ι noteSessions).Reach (unvisited service) s) :
    id ∈ s.world.service.sessions ↔ Stays s.world.notes id := by
  induction hreach with
  | refl => exact iff_of_false List.not_mem_nil not_stays_nil
  | tail _ hstep ih =>
    cases hstep with
    | @call i c k r w running answered =>
      obtain ⟨service, holder, hanswered, rfl⟩ := answered
      cases hanswered with
      | lock free => exact ih
      | unlock => exact ih
      | work health diagnostics replied => exact ih
      | plain plain served =>
        cases c with
        | lockWorker => exact plain.elim
        | unlockWorker => exact plain.elim
        | work c => exact plain.elim
        | createSession =>
          cases served
          exact List.mem_cons.trans ((or_congr_right ih).trans stays_opened.symm)
        | destroySession id' =>
          cases served
          refine Iff.trans ?_ (((and_congr_right' ih).trans stays_left.symm))
          simp [and_comm]
        | clearSessions =>
          cases served
          exact iff_of_false List.not_mem_nil not_stays_allEnded
        | _ =>
          cases served
          exact ih
    | move moved =>
      obtain ⟨dir, rfl⟩ | ⟨now, h, d, store, hok, rfl⟩ | ⟨kind, -, rfl⟩ := moved
      all_goals exact ih
    | start free started => exact ih
    | stop i => exact ih

end

/-! ## Who is let through -/

section
variable {env : ServiceEnv} {service : Service} {request : RawRequest} {headers : HeaderMap}
  {app : App} {α : Type}

/-- The request is handled, when nothing else happens while it is looked at. -/
def LetThrough (env : ServiceEnv) (service : Service) (request : RawRequest) : Prop :=
  ((requireAuthToken request.read).exec (Service.serve env) service).map (·.1) = some .next

/-- The client is told that it is signed in, when nothing else happens meanwhile. -/
def ToldSignedIn (env : ServiceEnv) (service : Service) (app : App) (headers : HeaderMap) : Prop :=
  ((session.show app headers).exec (Service.serve env) service).map (·.1.authenticated) = some true

/-- The paths that ask for nothing. -/
def Exempt (path : String) : Prop := path = "/health" ∨ path = "/login"

/-- A form of another site. -/
def RawRequest.Forged (request : RawRequest) : Prop :=
  request.method = "POST" ∧ request.isCrossSite = true

/-- The headers name a session of some. -/
def HeaderMap.InSession (headers : HeaderMap) (sessions : List String) : Prop :=
  ∃ id, sessionIdFrom headers = some id ∧ id ∈ sessions

/-- The value of a header is the token, as a bearer shows it. -/
def HeaderValue.Bears (value : HeaderValue) (expected : Secret) : Prop :=
  (bearerToken value).any expected.verify = true

@[simp] theorem RawRequest.read_authorization :
    request.read.authorization = (request.headers.get "authorization").map bearerToken := rfl

@[simp] theorem RawRequest.read_session :
    request.read.session = sessionIdFrom request.headers := rfl

theorem RawRequest.read_forged :
    (request.read.post && request.read.crossSite) = true ↔ request.Forged := by
  simp [RawRequest.read, RawRequest.Forged]

theorem exec_current (f : Runtime → S α) :
    (do let runtime : Runtime ← S.ask .current; f runtime : S α).exec (Service.serve env) service =
      (f service.current).exec (Service.serve env) service :=
  rfl

theorem exec_hasSession (id : String) (f : Bool → S α) :
    (do let live : Bool ← S.ask (.hasSession id); f live : S α).exec (Service.serve env) service =
      (f (decide (id ∈ service.sessions))).exec (Service.serve env) service :=
  rfl

theorem WebRequest.rejected_ne_next (request : WebRequest) : request.rejected ≠ .next := by
  unfold WebRequest.rejected
  split_ifs <;> decide

theorem bears_iff {expected : Secret} :
    ((headers.get "authorization").bind bearerToken).any expected.verify = true ↔
      ∃ value, headers.get "authorization" = some value ∧ value.Bears expected := by
  cases headers.get "authorization" with
  | none => simp
  | some value => simp [HeaderValue.Bears]

/-- A request is let through with the token, or else in a session that no other site uses. -/
theorem letThrough_iff (hpath : ¬Exempt request.path) :
    LetThrough env service request ↔ ∀ expected, service.current.authToken = some expected →
      match request.headers.get "authorization" with
      | some value => value.Bears expected
      | none => request.headers.InSession service.sessions ∧ ¬request.Forged := by
  unfold LetThrough requireAuthToken
  rw [if_neg (show ¬(request.read.path = "/health" ∨ request.read.path = "/login") from hpath),
    exec_current]
  cases htoken : service.current.authToken with
  | none => exact iff_of_true rfl nofun
  | some expected =>
    simp only [Option.some.injEq, forall_eq', RawRequest.read_authorization]
    cases request.headers.get "authorization" with
    | some value =>
      simp only [HeaderValue.Bears, Option.map_some]
      split_ifs with hbears <;> simp [hbears]
    | none =>
      simp only [Option.map_none, HeaderMap.InSession, RawRequest.read_session]
      cases sessionIdFrom request.headers with
      | none => simp [WebRequest.rejected_ne_next]
      | some id =>
        rw [exec_hasSession]
        by_cases hlive : id ∈ service.sessions
        · rw [if_neg (by simpa using hlive)]
          by_cases hforged : request.Forged
          · rw [if_pos (RawRequest.read_forged.2 hforged)]
            exact iff_of_false nofun fun h => h.2 hforged
          · rw [if_neg (mt RawRequest.read_forged.1 hforged)]
            exact iff_of_true rfl ⟨⟨id, rfl, hlive⟩, hforged⟩
        · simp [hlive, WebRequest.rejected_ne_next]

/-- A client is told that it is signed in with the token, or else in a session. -/
theorem toldSignedIn_iff :
    ToldSignedIn env service app headers ↔ ∀ expected, service.current.authToken = some expected →
      (∃ value, headers.get "authorization" = some value ∧ value.Bears expected) ∨
        headers.InSession service.sessions := by
  unfold ToldSignedIn session.show
  rw [exec_current]
  cases htoken : service.current.authToken with
  | none => exact iff_of_true rfl nofun
  | some expected =>
    simp only [Option.some.injEq, forall_eq', ← bears_iff]
    by_cases hbears : ((headers.get "authorization").bind bearerToken).any expected.verify = true
    · rw [if_pos hbears]
      exact iff_of_true rfl (.inl hbears)
    · rw [if_neg hbears, or_iff_right hbears, HeaderMap.InSession]
      cases sessionIdFrom headers with
      | none => simp
      | some id =>
        rw [exec_hasSession]
        simp

end

/-! ## What a client may rely on -/

section
variable {ι : Type} [DecidableEq ι] {service : Service} {env : ServiceEnv} {app : App}
  {s : Lib.Config ι ServiceCall ServiceCall.Ans (Shared ι (List SessionEvent))}
  {request : RawRequest}

/-- The headers name a session that was opened and stays. -/
def HeaderMap.StaysIn (headers : HeaderMap) (log : List SessionEvent) : Prop :=
  ∃ id, sessionIdFrom headers = some id ∧ Stays log id

theorem inSession_iff_staysIn (hreach : (services ι noteSessions).Reach (unvisited service) s)
    (headers : HeaderMap) :
    headers.InSession s.world.service.sessions ↔ headers.StaysIn s.world.notes :=
  exists_congr fun _ => and_congr_right fun _ => live_iff_stays hreach

end

/-- What a client is told of its standing is that its requests are let through, in every run,
    unless they come in a session that stays and either show something else than the token or are
    forms of another site. -/
theorem told_standing_iff {ι : Type} [DecidableEq ι] {service : Service}
    {s : Lib.Config ι ServiceCall ServiceCall.Ans (Shared ι (List SessionEvent))}
    (hreach : (services ι noteSessions).Reach (unvisited service) s) (env : ServiceEnv) (app : App)
    {request : RawRequest} (hpath : ¬Exempt request.path) :
    (ToldSignedIn env s.world.service app request.headers ↔
        LetThrough env s.world.service request) ↔
      ∀ expected, s.world.service.current.authToken = some expected →
        request.headers.StaysIn s.world.notes →
          match request.headers.get "authorization" with
          | some value => value.Bears expected
          | none => ¬request.Forged := by
  rw [toldSignedIn_iff, letThrough_iff hpath]
  simp only [← inSession_iff_staysIn hreach]
  cases s.world.service.current.authToken with
  | none => simp
  | some expected =>
    simp only [Option.some.injEq, forall_eq']
    cases request.headers.get "authorization" with
    | none => simp
    | some value => simp

namespace Visited

def bytes : List UInt8 := [0xab, 0x01]

def env : ServiceEnv := { RotatedToken.env with nextId := fun _ => randomSessionId bytes }

/-- Signed in with the token. -/
def signedIn : S Unit × Shared Unit (List SessionEvent) :=
  System.drive (Shared.reply env noteSessions ()) 5 (runFor (login.submit "old"))
    (unvisited RotatedToken.service)

theorem reach_signedIn : ∃ s : Lib.Config Unit ServiceCall ServiceCall.Ans
      (Shared Unit (List SessionEvent)),
    (services Unit noteSessions).Reach (unvisited RotatedToken.service) s ∧
      s.world = signedIn.2 := by
  obtain ⟨s, hs, -, hworld⟩ := System.reach_alone (services Unit noteSessions)
    (unvisited RotatedToken.service) () (.login "old")
    (fun c w a h => ⟨w, .refl, Shared.reply_answers h⟩) 5
  exact ⟨s, hs, hworld⟩

/-- A cookie of another page, and the one of the session. -/
def jar : List (Cookie isWhitespace) :=
  [⟨"theme".toList, "dark".toList, List.all_iff_forall_prop.1 (by decide),
    List.all_iff_forall_prop.1 (by decide)⟩, sessionCookie bytes]

def value (text : String) : HeaderValue := ⟨text.toList.map fun c => UInt8.ofNat c.toNat⟩

def page : RawRequest :=
  ⟨"GET", "/settings", ⟨[("cookie", value (String.ofList (Cookie.header jar)))]⟩⟩

/-- The page, asked for by a script with a token that was replaced. -/
def script : RawRequest :=
  { page with headers := ⟨("authorization", value "Bearer older") :: page.headers.entries⟩ }

def app : App := ⟨"0.1.0", ⟨false, false⟩⟩

theorem not_exempt_page : ¬Exempt page.path := by
  unfold Exempt
  decide

end Visited

/-- In a session, and with another token: told to be signed in, and not let through. -/
theorem told_and_refused : ∃ s : Lib.Config Unit ServiceCall ServiceCall.Ans
      (Shared Unit (List SessionEvent)),
    s.world.service = Visited.signedIn.2.service ∧
      ¬(ToldSignedIn Visited.env s.world.service Visited.app Visited.script.headers ↔
        LetThrough Visited.env s.world.service Visited.script) := by
  obtain ⟨s, hs, hworld⟩ := Visited.reach_signedIn
  refine ⟨s, congrArg _ hworld, fun h => ?_⟩
  have hpath : ¬Exempt Visited.script.path := Visited.not_exempt_page
  have hbears := (told_standing_iff hs Visited.env Visited.app hpath).1 h (Secret.new "old")
  rw [hworld] at hbears
  have hstays : Visited.script.headers.StaysIn Visited.signedIn.2.notes :=
    ⟨randomSessionId Visited.bytes, by decide +kernel, stays_opened.2 (.inl rfl)⟩
  have hother : ¬(Visited.value "Bearer older").Bears (Secret.new "old") := by
    unfold HeaderValue.Bears
    decide +kernel
  exact hother (hbears (by decide +kernel) hstays)

/-- A browser that was handed the cookie of a session and sends it first among those of its name
    is let through, in every run, exactly where no token is asked for or the session stays and the
    request is no form of another site. -/
theorem handed_session_iff {ι : Type} [DecidableEq ι] {service : Service}
    {s : Lib.Config ι ServiceCall ServiceCall.Ans (Shared ι (List SessionEvent))}
    (hreach : (services ι noteSessions).Reach (unvisited service) s) (env : ServiceEnv)
    {bytes : List UInt8} {handed : HeaderMap} {cookie : Cookie isWhitespace}
    {jar : List (Cookie isWhitespace)} {request : RawRequest}
    (hhanded : Cookie.received isWhitespace (cookieHeader (randomSessionId bytes) handed).toList =
      some (cookie.name, cookie.value))
    (hkept : (jar.find? fun c => c.name = cookie.name) = some cookie)
    (hsent : request.headers.text "cookie" = some (String.ofList (Cookie.header jar)))
    (hplain : request.headers.get "authorization" = none) (hpath : ¬Exempt request.path) :
    LetThrough env s.world.service request ↔
      s.world.service.current.authToken = none ∨
        Stays s.world.notes (randomSessionId bytes) ∧ ¬request.Forged := by
  rw [received_cookieHeader, Option.some.injEq, Prod.mk.injEq] at hhanded
  obtain ⟨hname, hvalue⟩ := hhanded
  have hid : sessionIdFrom request.headers = some (randomSessionId bytes) := by
    rw [sessionIdFrom_header hsent, show COOKIE_NAME.toList = cookie.name from hname, hkept,
      Option.map_some, ← hvalue]
    rfl
  rw [letThrough_iff hpath, hplain, inSession_iff_staysIn hreach, HeaderMap.StaysIn, hid]
  cases s.world.service.current.authToken with
  | none => simp
  | some expected => simp

/-- The page is handled for the browser that signed in. -/
theorem handed_session_page : ∃ s : Lib.Config Unit ServiceCall ServiceCall.Ans
      (Shared Unit (List SessionEvent)),
    s.world.service = Visited.signedIn.2.service ∧
      LetThrough Visited.env s.world.service Visited.page := by
  obtain ⟨s, hs, hworld⟩ := Visited.reach_signedIn
  have hkept : (Visited.jar.find? fun c => c.name = (sessionCookie Visited.bytes).name) =
      some (sessionCookie Visited.bytes) := rfl
  have hsent : Visited.page.headers.text "cookie" =
      some (String.ofList (Cookie.header Visited.jar)) := by
    decide +kernel
  have hforged : ¬Visited.page.Forged := fun h => absurd h.1 (by decide)
  refine ⟨s, congrArg _ hworld, (handed_session_iff hs Visited.env
    (received_cookieHeader Visited.bytes ⟨[]⟩) hkept hsent rfl Visited.not_exempt_page).2
      (.inr ⟨?_, hforged⟩)⟩
  rw [hworld]
  exact stays_opened.2 (.inl rfl)

end SeedMedic
