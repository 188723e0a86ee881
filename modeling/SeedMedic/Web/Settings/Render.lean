/-
  The settings pages as they are shown: the controls of every field, with what the document has
  at its key (`web/settings/render.rs`, `web/settings/mod.rs`).
-/
import SeedMedic.Lib.Form
import SeedMedic.Web.Settings.Submit

namespace SeedMedic

open Lib Lib.Toml Lib.Form

/-- What was typed into a page before, by the key. -/
abbrev Overrides := String → Option String

namespace Overrides

def new : Overrides := fun _ => none

/-- The values of a submission, and the last one where there is more than one. -/
def collect (pairs : List (String × String)) : Overrides := fun key =>
  (pairs.reverse.find? fun p => p.1 = key).map (·.2)

end Overrides

/-! ## One field -/

section
variable (doc : ConfigDocument) (overrides : Overrides)

def textValue (key : String) : String :=
  match overrides key with
  | some value => value
  | none =>
    match doc.get key with
    | some (.str s) => s
    | some (.int n) => toString n
    | _ => ""

def boolValue (key : String) : Bool :=
  match overrides key with
  | some value => value = "true"
  | none => ((doc.get key).bind Item.asBool).getD false

def linesValue (key : String) : String :=
  match overrides key with
  | some value => value
  | none =>
    match (doc.get key).bind Item.asArray with
    | some array => "\n".intercalate (array.filterMap Item.asStr)
    | none => ""

/-- A secret is never shown, and cannot be typed in where it is kept elsewhere. -/
def secretInput (key : String) (secret : Secret) : List Form.Control :=
  match secret.source with
  | .environment _ | .file _ => []
  | .inline | .unset => [.password key "", .checkbox (some (key ++ ".clear")) "true" false false]

variable (metrics : Bool)

/-- The controls of a value; `metrics` says whether the program is built with that feature. -/
def input (kind : Kind) (key : String) (secret : Secret) : List Form.Control :=
  match kind with
  | .bool =>
    let value := boolValue doc overrides key
    if key = "metrics.enabled" && !metrics then
      [.hidden key (toString value), .checkbox none "on" value true]
    else [.hidden key "false", .checkbox (some key) "true" value false]
  | .count _ => [.number key (textValue doc overrides key)]
  | .text | .url | .absolutePath => [.line key (textValue doc overrides key)]
  | .absolutePathList => [.area key (linesValue doc overrides key)]
  | .choice options =>
    let value := textValue doc overrides key
    [.select key (options.map fun option => (option, option = value))]
  | .secret => secretInput key secret
  | .secretFile => []

/-- A field of a page, at its key, and the secret of a field that is one. -/
structure PageField where
  field : Field
  key : String
  secret : Secret

def fieldRow (e : PageField) : List Form.Control :=
  input doc overrides metrics e.field.kind e.key e.secret ++
    if e.field.danger then [.checkbox (some (e.key ++ ".confirm")) "true" false false] else []

end

/-! ## Pages -/

def secretFor (config : Config) (key : String) (fallback : Secret) : Secret :=
  if key = "server.auth_token" then config.server.authToken
  else if key = "download_client.password" then
    (config.downloadClient.map (·.password)).getD fallback
  else fallback

/-- The parts of a template, with a number for each star while there are any. -/
def concreteParts : List String → List ℕ → List String
  | [], _ => []
  | part :: parts, indices =>
    if part = "*" then
      match indices with
      | index :: indices => toString index :: concreteParts parts indices
      | [] => part :: concreteParts parts []
    else part :: concreteParts parts indices

def concreteKey (template : String) (indices : List ℕ) : String :=
  undotted (concreteParts (dotted template) indices)

/-- The fields of a row. -/
def rowEntries (rowFields : List Field) (secret : Secret) (indices : List ℕ) : List PageField :=
  rowFields.map fun f => ⟨f, concreteKey f.key indices, secret⟩

namespace SettingsForm

/-- The fields a page shows, of every row that is there and of a blank one behind them. -/
def shown (config : Config) (doc : ConfigDocument) : SettingsForm → List PageField
  | simple page =>
    (fieldsFor page.prefixes).map fun f => ⟨f, f.key, secretFor config f.key .default⟩
  | trackers =>
    (List.range (doc.rowCount "trackers" + 1)).flatMap fun row =>
      rowEntries trackerRowFields (((config.trackers[row]?).map (·.apiKey)).getD .default) [row]
  | arr =>
    (List.range (doc.rowCount "arr" + 1)).flatMap fun row =>
      rowEntries arrRowFields (((config.arr[row]?).map (·.apiKey)).getD .default) [row] ++
        if row < doc.rowCount "arr" then
          (List.range (doc.rowCount ("arr." ++ toString row ++ ".path_mappings") + 1)).flatMap
            fun sub => rowEntries mappingRowFields .default [row, sub]
        else []

/-- The page of a document, with what was typed into it before. -/
def page (host : ConfigHost) (syn : TomlSyntax) (metrics : Bool) (doc : ConfigDocument)
    (overrides : Overrides) (form : SettingsForm) : List Form.Control :=
  (form.shown (configBefore host syn doc) doc).flatMap (fieldRow doc overrides metrics)

end SettingsForm

/-! ## What a field is submitted as -/

section
variable (doc : ConfigDocument) (overrides : Overrides) (metrics : Bool) (e : PageField)

/-- The values that are submitted of a field that nobody touched. -/
def sentValues : List String :=
  match e.field.kind with
  | .bool =>
    let value := boolValue doc overrides e.key
    if e.key = "metrics.enabled" && !metrics then [toString value]
    else "false" :: if value then ["true"] else []
  | .count _ => [String.ofList (toCrlf (numberValue (textValue doc overrides e.key)))]
  | .text | .url | .absolutePath => [String.ofList (lineValue (textValue doc overrides e.key))]
  | .absolutePathList => [String.ofList (toCrlf (areaValue (linesValue doc overrides e.key)))]
  | .choice options =>
    let value := textValue doc overrides e.key
    ((chosen (options.map fun option => (option, option = value))).map fun option =>
      String.ofList (toCrlf (parsed option.toList))).toList
  | .secret => if e.secret.source.isManaged then [] else [""]
  | .secretFile => []

variable {doc overrides metrics e}

/-- The values are submitted at the field's own key, and nothing is at another. -/
theorem submission_fieldRow : submission (fieldRow doc overrides metrics e) =
    (sentValues doc overrides metrics e).map fun value => (e.key, value) := by
  have hconfirm : ((if e.field.danger then
      [Form.Control.checkbox (some (e.key ++ ".confirm")) "true" false false] else []).filterMap
        Form.Control.pair) = [] := by
    split_ifs <;> rfl
  rw [submission, fieldRow, List.filterMap_append, hconfirm, List.append_nil]
  have hbool (b : Bool) : String.ofList (toCrlf (parsed (toString b).toList)) = toString b := by
    cases b <;> exact IsPlain.sent (by decide)
  have hfalse : String.ofList (toCrlf (parsed "false".toList)) = "false" := hbool false
  have htrue : String.ofList (toCrlf (parsed "true".toList)) = "true" := hbool true
  unfold input sentValues
  cases e.field.kind with
  | bool =>
    dsimp only
    split_ifs with hmetrics hvalue
    · simp [Form.Control.pair, hbool]
    · simpa [Form.Control.pair, hvalue] using ⟨hfalse, htrue⟩
    · simpa [Form.Control.pair, hvalue] using hfalse
  | count min => rfl
  | text => simp [Form.Control.pair, toCrlf_lineValue]
  | url => simp [Form.Control.pair, toCrlf_lineValue]
  | absolutePath => simp [Form.Control.pair, toCrlf_lineValue]
  | absolutePathList => rfl
  | choice options =>
    dsimp only
    generalize hchosen : chosen (options.map fun option =>
      (option, decide (option = textValue doc overrides e.key))) = value
    cases value <;> simp [Form.Control.pair, hchosen]
  | secret =>
    unfold secretInput
    cases hsource : e.secret.source <;> rfl
  | secretFile => rfl

end

end SeedMedic
