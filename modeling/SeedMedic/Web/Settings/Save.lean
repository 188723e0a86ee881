/-
  What a submitted page does to a draft of the configuration document
  (`web/settings/save.rs`).
-/
import SeedMedic.Web.Settings.Fields

namespace SeedMedic

open Lib Lib.Toml

/-! ## Secrets kept elsewhere -/

/-- Where the secret at a key comes from: unset for any other key, and for a row that is not there
    yet. -/
def currentSecretSource (before : Config) (key : String) : SecretSource :=
  let secret : Option Secret :=
    match dotted key with
    | ["server", "auth_token"] => some before.server.authToken
    | ["download_client", "password"] => before.downloadClient.map (·.password)
    | ["trackers", index, "api_key"] =>
      (parseUsize index).bind fun i => (before.trackers[i]?).map (·.apiKey)
    | ["arr", index, "api_key"] =>
      (parseUsize index).bind fun i => (before.arr[i]?).map (·.apiKey)
    | _ => none
  secret.elim .unset (·.source)

/-- A source the pages cannot change. -/
def SecretSource.isManaged : SecretSource → Bool
  | .environment _ | .file _ => true
  | .unset | .inline => false

/-! ## Values -/

/-- Messages by the key they are about, in order of the keys. -/
abbrev FieldErrors := List (String × String)

def FieldErrors.insert (key message : String) : FieldErrors → FieldErrors
  | [] => [(key, message)]
  | e :: es =>
    if e.1 = key then (key, message) :: es
    else if key < e.1 then (key, message) :: e :: es
    else e :: FieldErrors.insert key message es

/-- The value of a key, and the last one where it is there more than once. -/
def lastValueWins (pairs : List (String × String)) : List (String × String) :=
  pairs.foldl (fun deduped p =>
    if p.1 ∈ deduped.map (·.1) then deduped.map fun e => if e.1 = p.1 then p else e
    else deduped ++ [p]) []

/-- The keys where no value means that there is none. -/
def emptyMeansAbsent : List String :=
  ["server.auth_token_file", "download_client.password_file", "download_client.category",
    "trackers.*.api_key_file", "arr.*.api_key_file", "notifications.webhook_url", "staging.root"]

/-- What a field's value says to do. -/
inductive Parsed where
  | remove
  | set (value : Item)
  | setArray (values : List String)
  | unchanged

/-- The lines of a text, without the white space around them. -/
def trimmedLines (s : String) : List String :=
  (s.toList.splitOn '\n').map fun line => trim (String.ofList line)

/-- The paths of some lines, of which `number` came before. -/
def parsePaths : ℕ → List String → Except String (List String)
  | _, [] => .ok []
  | number, line :: lines =>
    if line = "" then parsePaths (number + 1) lines
    else if !isAbsolute (.ofString line) then
      .error ("line " ++ toString (number + 1) ++ ": `" ++ line ++ "` must be an absolute path")
    else (parsePaths (number + 1) lines).map (line :: ·)

def parseField (host : ConfigHost) (templateKey : String) (kind : Kind) (value : String)
    (clear : Bool) : Except String Parsed :=
  if templateKey ∈ emptyMeansAbsent && trim value = "" then .ok .remove
  else
    match kind with
    | .bool => .ok (.set (.bool (value = "true")))
    | .count min =>
      match fromStrRadix 10 (2 ^ 64 - 1) (trim value).toList with
      | none => .error ("`" ++ value ++ "` is not a whole number")
      | some n =>
        if n < min then .error ("must be at least " ++ toString min)
        else if n < 2 ^ 63 then .ok (.set (.int n))
        else .error "is too large"
    | .text => .ok (.set (.str value))
    | .url =>
      match host.parseUrl value with
      | .error e => .error ("not a valid URL: " ++ e)
      | .ok _ => .ok (.set (.str value))
    | .absolutePath =>
      if isAbsolute (.ofString value) then .ok (.set (.str value))
      else .error ("`" ++ value ++ "` must be an absolute path")
    | .absolutePathList => (parsePaths 0 (trimmedLines value)).map .setArray
    | .choice options =>
      if value ∈ options then .ok (.set (.str value))
      else .error ("`" ++ value ++ "` is not one of the allowed values")
    | .secret =>
      if clear then .ok .remove
      else if value = "" then .ok .unchanged
      else .ok (.set (.str value))
    | .secretFile => .ok .unchanged

/-- The value at a key, as a form submits it. -/
def currentAsString (doc : ConfigDocument) (key : String) (kind : Kind) : String :=
  if kind = .bool then toString (((doc.get key).bind Item.asBool).getD false)
  else ((doc.get key).bind Item.asStr).getD ""

/-! ## Applying a submission -/

/-- What is in front of an ending. -/
def stripSuffix (ending key : String) : Option String :=
  if ending.toList.isSuffixOf key.toList then
    some (String.ofList (key.toList.take (key.toList.length - ending.toList.length)))
  else none

/-- A submission taken apart: the keys to clear, the keys that are confirmed, and the values. -/
structure Submitted where
  clears : List String
  confirms : List String
  values : List (String × String)

def Submitted.ofPairs (pairs : List (String × String)) : Submitted :=
  (lastValueWins pairs).foldr (fun p s =>
    match stripSuffix ".clear" p.1 with
    | some base => if p.2 = "true" then { s with clears := base :: s.clears } else s
    | none =>
      match stripSuffix ".confirm" p.1 with
      | some base => if p.2 = "true" then { s with confirms := base :: s.confirms } else s
      | none => { s with values := p :: s.values }) ⟨[], [], []⟩

section
variable (host : ConfigHost) (before : Config) (form : Submitted)

/-- What a value of a field says to do to the document, or what is wrong with it. -/
def judge (doc : ConfigDocument) (f : Field) (key value : String) : Except String Parsed :=
  if f.danger && currentAsString doc key f.kind ≠ value && key ∉ form.confirms then
    .error "This is a dangerous change — check the confirmation box to save it."
  -- a secret kept elsewhere is not written over, whatever the request says
  else if f.kind = .secret && (currentSecretSource before key).isManaged then .ok .unchanged
  else parseField host f.key f.kind value (key ∈ form.clears)

/-- Do what a value says; none where the code panics. -/
def applyParsed (room : ℕ) (doc : ConfigDocument) (key : String) : Parsed → Option ConfigDocument
  | .remove => some (doc.remove key)
  | .set value => doc.set room key value
  | .setArray values => doc.setArray room key values
  | .unchanged => some doc

variable (room : ℕ) (templates : List Field) (skip : String → Bool)

/-- Every value in turn, up to a key that is no field of the page. -/
def applyValues : List (String × String) → ConfigDocument → FieldErrors →
    Option (ConfigDocument × Except String FieldErrors)
  | [], doc, errors => some (doc, .ok errors)
  | (key, value) :: values, doc, errors =>
    if skip key then applyValues values doc errors
    else
      match findField templates key with
      | none => some (doc, .error ("unknown settings field `" ++ key ++ "`"))
      | some f =>
        match judge host before form doc f key value with
        | .error message => applyValues values doc (errors.insert key message)
        | .ok parsed =>
          (applyParsed room doc key parsed).bind fun doc => applyValues values doc errors

end

/-- The draft a submission makes of a document, with what is wrong with its values or the refusal
    of a key; none where the code panics. -/
def applyPairs (host : ConfigHost) (room : ℕ) (doc : ConfigDocument) (before : Config)
    (templates : List Field) (pairs : List (String × String)) (skip : String → Bool) :
    Option (ConfigDocument × Except String FieldErrors) :=
  let form := Submitted.ofPairs pairs
  applyValues host before form room templates skip form.values doc []

end SeedMedic
