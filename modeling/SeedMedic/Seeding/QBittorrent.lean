/-
  The qBittorrent adapter: a session behind a lock, and the requests of each call
  (`seeding/adapters/qbittorrent.rs`).
-/
import SeedMedic.Repair.Effects
import SeedMedic.Tracker.Unit3d

namespace SeedMedic

open Lib

namespace QBittorrent

/-! ## Requests and responses -/

inductive Method where
  | get
  | post
  deriving DecidableEq

/-- A part of a form that carries a file. -/
inductive Part where
  | file (name fileName mime : String) (bytes : List UInt8)
  | text (name value : String)
  deriving DecidableEq

inductive Body where
  | empty
  | form (fields : List (String × String))
  | multipart (parts : List Part)
  deriving DecidableEq

structure Request where
  method : Method
  url : Url
  cookie : Option String
  query : List (String × String)
  body : Body
  deriving DecidableEq

structure TorrentInfoEntry where
  hash : String
  state : String
  progress : ℚ
  savePath : String
  uploaded : ℤ
  seedingTime : Option ℤ

structure TorrentFileEntry where
  name : String
  progress : ℚ

structure Response where
  status : ℕ
  /-- The status with its reason, as it is written. -/
  statusText : String
  /-- The cookies that are set, where they are text. -/
  setCookie : List (Option String)
  /-- The body as text, as torrents or as files, or the error of reading it so. -/
  text : Except String String
  torrents : Except String (List TorrentInfoEntry)
  files : Except String (List TorrentFileEntry)

/-- `true` from 200 to 299. -/
def Response.isSuccess (r : Response) : Bool := 200 ≤ r.status ∧ r.status < 300

inductive Call where
  /-- Wait for the lock on the session's cookie. -/
  | lock
  /-- What is kept behind it. -/
  | held
  | keep (cookie : String)
  | unlock
  | send (request : Request)
  deriving DecidableEq

@[reducible] def Ans : Call → Type
  | .held => Option String
  | .send _ => Except String Response
  | _ => Unit

/-- Code of the adapter. -/
abbrev Q := Prog Call Ans

def Q.ask (c : Call) : Q (Ans c) := Prog.ask (A := Ans) c

/-! ## What is made of a response -/

def requireSuccess (response : Response) (action : String) : Except ClientError Unit :=
  if response.isSuccess then .ok ()
  else .error (.protocol
    ("qbittorrent returned status " ++ response.statusText ++ " for " ++ action))

/-- The first part of a text, up to a character. -/
def upTo (c : Char) (s : String) : String := String.ofList (s.toList.takeWhile (· ≠ c))

/-- The pair a cookie header sets, if its name has `SID` in it. -/
def sidPair (value : Option String) : Option String :=
  value.bind fun value =>
    let pair := trim (upTo ';' value)
    if "SID".toList <:+: (upTo '=' pair).toList then some pair else none

def extractSidCookie (response : Response) : Option String := response.setCookie.findSome? sidPair

/-- The session a login comes to. -/
def loginResult : Except String Response → Except ClientError String
  | .error source => .error (.transport source)
  | .ok response =>
    match response.text with
    | .error source => .error (.transport source)
    | .ok body =>
      if !response.isSuccess || trim body = "Fails." then .error .unauthorized
      else match extractSidCookie response with
        | some cookie => .ok cookie
        | none => .error (.protocol "qbittorrent login succeeded but set no session cookie")

/-- Everything that is not known is an error. -/
def mapState (value : String) : ClientTorrentState :=
  if value ∈ ["pausedUP", "pausedDL", "stoppedUP", "stoppedDL"] then .paused
  else if value ∈
      ["checkingUP", "checkingDL", "checkingResumeData", "queuedForChecking", "moving"] then
    .checking
  else if value ∈ ["downloading", "stalledDL", "metaDL", "queuedDL", "forcedDL", "allocating"] then
    .downloading
  else if value ∈ ["uploading", "stalledUP", "queuedUP", "forcedUP"] then .seeding
  else .errored

def isQueuedCheck (value : String) : Bool := value = "queuedForChecking"

/-- Text with its capitals of ASCII made small. -/
def asciiLower (s : String) : String := String.ofList (s.toList.map Char.toLower)

/-- The files whose names are safe. -/
def readFiles (entries : List TorrentFileEntry) : List FileProgress :=
  entries.filterMap fun entry =>
    match SafeRelativePath.parse entry.name with
    | .ok torrentPath => some ⟨torrentPath, .fromRatio entry.progress⟩
    | .error _ => none

/-- The entry of one torrent. -/
def findEntry (hex : String) (entries : List TorrentInfoEntry) : Option TorrentInfoEntry :=
  entries.find? fun entry => asciiLower entry.hash = asciiLower hex

def statusOf (entry : TorrentInfoEntry) (files : Option (List FileProgress)) : TorrentStatus where
  state := mapState entry.state
  completeness := .fromRatio entry.progress
  savePath := .ofString entry.savePath
  files := files
  queued := mapState entry.state = .checking ∧ isQueuedCheck entry.state
  message := if mapState entry.state = .errored then some entry.state else none
  uploadedBytes := entry.uploaded.toNat
  seedingSeconds := entry.seedingTime.map Int.toNat

structure ClientSummary where
  torrentCount : ℕ

end QBittorrent

/-! ## The adapter -/

structure QBittorrentClient where
  baseUrl : Url
  username : String
  password : Secret

namespace QBittorrentClient

open QBittorrent

variable (urls : UrlLibrary) (client : QBittorrentClient)

def url (path : String) : Except ClientError Url :=
  (urls.join client.baseUrl path).mapError fun error =>
    .protocol ("cannot build request url: " ++ error)

def loginRequest (url : Url) : Request :=
  ⟨.post, url, none, [],
    .form [("username", client.username), ("password", client.password.value)]⟩

def performLogin : Q (Except ClientError String) :=
  match client.url urls "api/v2/auth/login" with
  | .error e => pure (.error e)
  | .ok url => do
    let answer ← Q.ask (.send (client.loginRequest url))
    pure (loginResult answer)

/-- Log in behind the lock, which is let go of afterwards. -/
def loginLocked : Q (Except ClientError String) := do
  match ← client.performLogin urls with
  | .error e =>
    Q.ask .unlock
    pure (.error e)
  | .ok cookie =>
    Q.ask (.keep cookie)
    Q.ask .unlock
    pure (.ok cookie)

def cookie : Q (Except ClientError String) := do
  Q.ask .lock
  match ← Q.ask .held with
  | some cookie =>
    Q.ask .unlock
    pure (.ok cookie)
  | none => client.loginLocked urls

def relogin : Q (Except ClientError String) := do
  Q.ask .lock
  client.loginLocked urls

/-- Send a request with the session's cookie; where that has expired, log in once and send it once
    more. -/
def sendAuthenticated (build : String → Request) : Q (Except ClientError Response) := do
  match ← client.cookie urls with
  | .error e => pure (.error e)
  | .ok cookie =>
    match ← Q.ask (.send (build cookie)) with
    | .error source => pure (.error (.transport source))
    | .ok response =>
      if response.status ≠ 403 then pure (.ok response)
      else
        match ← client.relogin urls with
        | .error e => pure (.error e)
        | .ok cookie =>
          match ← Q.ask (.send (build cookie)) with
          | .error source => pure (.error (.transport source))
          | .ok response =>
            if response.status = 403 then pure (.error .unauthorized)
            else pure (.ok response)

/-- A request to a path with the session's cookie. -/
def request (path : String) (build : Url → String → Request) : Q (Except ClientError Response) :=
  match client.url urls path with
  | .error e => pure (.error e)
  | .ok url => client.sendAuthenticated urls (build url)

def filesRequest (hex : String) (url : Url) (cookie : String) : Request :=
  ⟨.get, url, some cookie, [("hash", hex)], .empty⟩

def fileProgress (infoHash : InfoHash) : Q (Except ClientError (List FileProgress)) := do
  match ← client.request urls "api/v2/torrents/files" (filesRequest infoHash.toHex) with
  | .error e => pure (.error e)
  | .ok response =>
    match requireSuccess response "torrent files" with
    | .error e => pure (.error e)
    | .ok () =>
      match response.files with
      | .error error => pure (.error (.protocol ("cannot parse torrent files: " ++ error)))
      | .ok entries => pure (.ok (readFiles entries))

/-- The torrents in an answer to the listing. -/
def readInfo (response : Response) : Except ClientError (List TorrentInfoEntry) :=
  match requireSuccess response "torrent info" with
  | .error e => .error e
  | .ok () =>
    response.torrents.mapError fun error => .protocol ("cannot parse torrent info: " ++ error)

def infoRequest (hex : String) (url : Url) (cookie : String) : Request :=
  ⟨.get, url, some cookie, [("hashes", hex)], .empty⟩

def status (infoHash : InfoHash) : Q (Except ClientError (Option TorrentStatus)) := do
  match ← client.request urls "api/v2/torrents/info" (infoRequest infoHash.toHex) with
  | .error e => pure (.error e)
  | .ok response =>
    match readInfo response with
    | .error e => pure (.error e)
    | .ok entries =>
      match findEntry infoHash.toHex entries with
      | none => pure (.ok none)
      | some entry =>
        -- what a running check finds is not asked for
        if mapState entry.state = .checking then pure (.ok (some (statusOf entry none)))
        else
          match ← client.fileProgress urls infoHash with
          | .error e => pure (.error e)
          | .ok files => pure (.ok (some (statusOf entry (some files))))

def addParts (request : AddTorrent) : List Part :=
  [.file "torrents" "upload.torrent" "application/x-bittorrent" request.torrentFile,
    .text "savepath" request.savePath.toStringLossy, .text "skip_checking" "false",
    -- one name before version 5, the other since
    .text "paused" "true", .text "stopped" "true"] ++
    (request.category.map fun category => Part.text "category" category).toList

def addRequest (request : AddTorrent) (url : Url) (cookie : String) : Request :=
  ⟨.post, url, some cookie, [], .multipart (addParts request)⟩

def addPaused (request : AddTorrent) : Q (Except ClientError Unit) := do
  match ← client.status urls request.infoHash with
  | .error e => pure (.error e)
  | .ok (some _) => pure (.ok ())
  | .ok none =>
    match ← client.request urls "api/v2/torrents/add" (addRequest request) with
    | .error e => pure (.error e)
    | .ok response =>
      if response.isSuccess then pure (.ok ())
      else pure (.error (.rejected
        ("qbittorrent returned status " ++ response.statusText ++ " for add")))

def hashesRequest (fields : List (String × String)) (url : Url) (cookie : String) : Request :=
  ⟨.post, url, some cookie, [], .form fields⟩

def recheck (infoHash : InfoHash) : Q (Except ClientError Unit) := do
  match ← client.request urls "api/v2/torrents/recheck"
      (hashesRequest [("hashes", infoHash.toHex)]) with
  | .error e => pure (.error e)
  | .ok response => pure (requireSuccess response "recheck")

def resume (infoHash : InfoHash) : Q (Except ClientError Unit) := do
  match ← client.request urls "api/v2/torrents/resume"
      (hashesRequest [("hashes", infoHash.toHex)]) with
  | .error e => pure (.error e)
  | .ok response =>
    if response.status ≠ 404 then pure (requireSuccess response "resume")
    else
      -- its name since version 5
      match ← client.request urls "api/v2/torrents/start"
          (hashesRequest [("hashes", infoHash.toHex)]) with
      | .error e => pure (.error e)
      | .ok response => pure (requireSuccess response "resume")

def remove (infoHash : InfoHash) (deleteFiles : Bool) : Q (Except ClientError Unit) := do
  if deleteFiles then
    pure (.error (.rejected ("qbittorrent adapter never deletes files; staged data may be " ++
      "hardlinked into the library")))
  else
    match ← client.request urls "api/v2/torrents/delete"
        (hashesRequest [("hashes", infoHash.toHex), ("deleteFiles", "false")]) with
    | .error e => pure (.error e)
    | .ok response => pure (requireSuccess response "remove")

def summary : Q (Except ClientError ClientSummary) := do
  match ← client.request urls "api/v2/torrents/info" fun url cookie =>
      ⟨.get, url, some cookie, [], .empty⟩ with
  | .error e => pure (.error e)
  | .ok response => pure ((readInfo response).map fun entries => ⟨entries.length⟩)

/-- The port's calls. -/
def perform : (c : ClientCall) → Q c.Ans
  | .addPaused request => client.addPaused urls request
  | .status infoHash => client.status urls infoHash
  | .recheck infoHash => client.recheck urls infoHash
  | .resume infoHash => client.resume urls infoHash
  | .remove infoHash deleteFiles => client.remove urls infoHash deleteFiles

end QBittorrentClient

end SeedMedic
