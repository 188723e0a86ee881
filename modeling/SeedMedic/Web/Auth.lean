/-
  Signing in and out, and what is asked of a request before it is handled (`web/mod.rs`,
  `web/login.rs`, `web/api/session.rs`).
-/
import SeedMedic.Runtime.Handle

namespace SeedMedic

open Lib

/-! ## Signing in and out -/

/-- How an attempt to sign in ends. -/
inductive SignIn where
  /-- No token is configured. -/
  | nothingToSignInTo
  | incorrect
  | signedIn (session : String)
  deriving DecidableEq

/-- Compare what was typed with the token that is configured, and record a session where they
    agree. -/
def signIn (token : String) : S SignIn := do
  let runtime : Runtime ← S.ask .current
  match runtime.authToken with
  | none => pure .nothingToSignInTo
  | some expected =>
    if expected.verify token then
      let session : String ← S.ask .createSession
      pure (.signedIn session)
    else pure .incorrect

/-- What the sign-in page answers: the home page with a cookie, or itself again. -/
inductive LoginResponse where
  | redirect (cookie : String)
  | page (authEnabled : Bool) (message : Option String)
  deriving DecidableEq

def SignIn.toLoginResponse : SignIn → LoginResponse
  | nothingToSignInTo => .page false none
  | incorrect => .page true (some "Incorrect token.")
  | signedIn session => .redirect session

/-- `POST /login`. -/
def login.submit (token : String) : S LoginResponse := do
  let result ← signIn token
  pure result.toLoginResponse

/-- What `/api/v1/session` answers. -/
inductive SessionResponse where
  | noContent (cookie : String)
  | conflict (message : String)
  | unauthorized (message : String)
  deriving DecidableEq

def SignIn.toSessionResponse : SignIn → SessionResponse
  | nothingToSignInTo => .conflict "No auth token is configured, so there is nothing to sign in to."
  | incorrect => .unauthorized "Incorrect token."
  | signedIn session => .noContent session

/-- `POST /api/v1/session`. -/
def session.create (token : String) : S SessionResponse := do
  let result ← signIn token
  pure result.toSessionResponse

/-- `POST /logout`, and `DELETE /api/v1/session`. -/
def logout (session : Option String) : S Unit :=
  match session with
  | some id => S.ask (.destroySession id)
  | none => pure ()

/-! ## What a request has to show -/

/-- What is looked at of a request. -/
structure WebRequest where
  path : String
  post : Bool
  /-- The header that names a token, if there is one: the token, where it is a bearer's. -/
  authorization : Option (Option String)
  session : Option String
  wantsHtml : Bool
  crossSite : Bool

inductive Verdict where
  | next
  | unauthorized
  | redirectToLogin
  | forbidden
  deriving DecidableEq

/-- What a request without a live session is told. -/
def WebRequest.rejected (request : WebRequest) : Verdict :=
  if request.path.startsWith "/api/" then .unauthorized
  else if request.wantsHtml then .redirectToLogin
  else .unauthorized

/-- Nothing is asked where no token is configured; else the token itself or a live session. -/
def requireAuthToken (request : WebRequest) : S Verdict := do
  if request.path = "/health" ∨ request.path = "/login" then pure .next
  else
    let runtime : Runtime ← S.ask .current
    match runtime.authToken with
    | none => pure .next
    | some expected =>
      match request.authorization with
      | some bearer => pure (if bearer.any expected.verify then .next else .unauthorized)
      | none =>
        match request.session with
        | none => pure request.rejected
        | some id =>
          let live : Bool ← S.ask (.hasSession id)
          if !live then pure request.rejected
          else if request.post && request.crossSite then pure .forbidden
          else pure .next

/-- Handle a request once it has shown what it has to. -/
def guarded {α : Type} (request : WebRequest) (handle : S α) : S (Except Verdict α) := do
  match ← requireAuthToken request with
  | .next => do
    let response ← handle
    pure (.ok response)
  | verdict => pure (.error verdict)

end SeedMedic
