/-
  Saving the settings and bringing them up (`web/settings/mod.rs`), and what is on disk
  when they are not brought up.
-/
import SeedMedic.Runtime.Failure

namespace SeedMedic

open Lib

/-- Why saved settings are not in effect. -/
inductive SettingsError where
  | save (e : DocumentError)
  | reload (e : ReloadError)
  deriving DecidableEq

def SettingsError.toText : SettingsError → String
  | save e => e.toText
  | reload e => e.toText

/-- What a page of settings tells after a save: what needs a restart, and the session its
    operator was given. -/
structure Saved where
  restartNeeded : List String
  session : Option String
  deriving DecidableEq

/-- A changed token has ended every session, the operator's own too: a fresh one for them, where
    a token is needed at all. -/
def signBackIn (applied : Runtime.Applied) : S (Option String) := do
  if applied.authTokenChanged then
    let current : Runtime ← S.ask .current
    if current.authToken.isSome then
      let session : String ← S.ask .createSession
      pure (some session)
    else pure none
  else pure none

/-- Write a document to disk and replace the generation by one built from it. -/
def saveAndReload (syn : TomlSyntax) (doc : ConfigDocument) : S (Except SettingsError Saved) := do
  match ← S.onFile (doc.save syn) with
  | .error e => pure (.error (.save e))
  | .ok _ =>
    match ← RuntimeHandle.reload with
    | .error e => pure (.error (.reload e))
    | .ok applied =>
      let session ← signBackIn applied
      pure (.ok ⟨applied.restartNeeded, session⟩)

/-- The text of the configuration file. -/
def Service.fileText (w : Service) : Option String := w.dir.config.map (·.text)

/-! ## What a save leaves on disk -/

namespace ConfigDocument

variable {syn : TomlSyntax} {faults : ConfigDir.Faults} {d d' : ConfigDir} {doc : ConfigDocument}

/-- Text written into the file itself is there. -/
theorem writeInPlace_ok {text : String} {outcome : SaveOutcome}
    (h : (doc.writeInPlace text).run (ConfigDir.serve faults) d = (.ok outcome, d')) :
    d'.config.map (·.text) = some text := by
  unfold writeInPlace at h
  simp only [F.ask_bind, Prog.run_call, ConfigDir.serve] at h
  set mode := doc.mode.getD 0o600
  obtain ⟨e, he⟩ | ⟨d₁, hempty, he⟩ := ConfigDir.acting_cases faults (.truncate mode)
    (some { d with config := some ⟨"", d.clock, (d.config.map (·.mode)).getD mode⟩ }) d
  · rw [he] at h
    cases h
  cases hempty
  rw [he] at h
  simp only [Prog.run_call, ConfigDir.serve, Option.map_some] at h
  set mode' := (d.config.map (·.mode)).getD mode
  obtain ⟨e, he⟩ | ⟨d₂, hwritten, he⟩ := ConfigDir.acting_cases faults (.writeAll text)
    (some { d with config := some ⟨text, d.clock, mode'⟩ })
    { d with config := some ⟨"", d.clock, mode'⟩ }
  · rw [he] at h
    cases h
  cases hwritten
  rw [he] at h
  cases h
  simp only [ConfigDir.serve]
  split_ifs <;> rfl

/-- What is moved over the file, or written into it, is the text. -/
theorem replaceWith_ok {text : String} {outcome : SaveOutcome}
    (h : (doc.replaceWith text).run (ConfigDir.serve faults) d = (.ok outcome, d')) :
    d'.config.map (·.text) = some text := by
  unfold replaceWith at h
  simp only [F.ask_bind, Prog.run_call, ConfigDir.serve] at h
  obtain ⟨e, he⟩ | ⟨d₁, htemp, he⟩ := ConfigDir.acting_cases faults (.writeTemp text)
    (some { d with temp := some ⟨text, d.clock, (d.temp.map (·.mode)).getD 0o600⟩ }) d
  · rw [he] at h
    cases h
  cases htemp
  rw [he] at h
  simp only [Prog.run_call, ConfigDir.serve, Option.map_some] at h
  set mode := doc.mode.getD 0o600
  obtain ⟨e, he⟩ | ⟨d₂, hmode, he⟩ := ConfigDir.acting_cases faults (.setPermissions mode)
    (some { d with temp := some ⟨text, d.clock, mode⟩ })
    { d with temp := some ⟨text, d.clock, (d.temp.map (·.mode)).getD 0o600⟩ }
  · rw [he] at h
    cases h
  cases hmode
  rw [he] at h
  simp only [Prog.run_call, ConfigDir.serve, Option.map_some] at h
  obtain ⟨e, he⟩ | ⟨d₃, hmoved, he⟩ := ConfigDir.acting_cases faults .rename
    (some { d with config := some ⟨text, d.clock, mode⟩, temp := none })
    { d with temp := some ⟨text, d.clock, mode⟩ }
  · rw [he] at h
    exact writeInPlace_ok h
  · cases hmoved
    rw [he] at h
    cases h
    rfl

/-- A save that succeeds has left the document's text. -/
theorem save_ok {outcome : SaveOutcome}
    (h : (doc.save syn).run (ConfigDir.serve faults) d = (.ok outcome, d')) :
    d'.config.map (·.text) = some (doc.toText syn) := by
  unfold save at h
  split_ifs at h with hw
  · cases h
  cases hs : doc.stamp with
  | none =>
    rw [hs] at h
    exact replaceWith_ok h
  | some stamp =>
    simp only [hs, Prog.run_bind] at h
    generalize (doc.checkUnchanged syn stamp).run (ConfigDir.serve faults) d = r at h
    obtain ⟨r, d₁⟩ := r
    cases r with
    | error e => cases h
    | ok _ => exact replaceWith_ok h

end ConfigDocument

/-- Code on the file changes nothing of the service but the directory. -/
theorem S.onFile_exec {α : Type} (env : ServiceEnv) (p : F α) : ∀ w : Service,
    (S.onFile p).exec (Service.serve env) w =
      some ((p.run (ConfigDir.serve env.faults) w.dir).1,
        { w with dir := (p.run (ConfigDir.serve env.faults) w.dir).2 }) := by
  induction p with
  | ret a => exact fun w => rfl
  | call c k ih => exact fun w => ih _ _

/-- A reload that fails has not touched the file. -/
theorem RuntimeHandle.reload_error_dir {env : ServiceEnv} {w w' : Service} {e : ReloadError}
    (h : reload.exec (Service.serve env) w = some (.error e, w')) : w'.dir = w.dir := by
  cases hheld : w.locked with
  | true =>
    rw [reload_waits hheld] at h
    cases h
  | false =>
    rw [reload_exec hheld] at h
    obtain ⟨⟨r, w₁⟩, hlocked, hr⟩ := Option.map_eq_some_iff.1 h
    obtain ⟨rfl, rfl⟩ := Prod.mk.inj hr
    obtain rfl | ⟨new, jobs, adapters, e', -, -, -, -, -, rfl⟩ := reloadLocked_error hlocked <;> rfl

/-- Settings that come to a reload are on disk by then. -/
theorem saveAndReload_error {env : ServiceEnv} {syn : TomlSyntax} {doc : ConfigDocument}
    {w w' : Service} {e : ReloadError}
    (h : (saveAndReload syn doc).exec (Service.serve env) w = some (.error (.reload e), w')) :
    w'.fileText = some (doc.toText syn) := by
  unfold saveAndReload at h
  rw [Prog.exec_bind, S.onFile_exec, Option.bind_some] at h
  cases hsave : (doc.save syn).run (ConfigDir.serve env.faults) w.dir with
  | mk r d =>
  cases r with
  | error e' =>
    rw [hsave] at h
    cases h
  | ok outcome =>
    rw [hsave] at h
    simp only [Prog.exec_bind] at h
    cases hreload : RuntimeHandle.reload.exec (Service.serve env) { w with dir := d } with
    | none =>
      rw [hreload] at h
      cases h
    | some r =>
      obtain ⟨r, w₁⟩ := r
      rw [hreload] at h
      cases r with
      | error e' =>
        cases h
        have hdir := RuntimeHandle.reload_error_dir hreload
        exact (congrArg (fun dir : ConfigDir => dir.config.map (·.text)) hdir).trans
          (ConfigDocument.save_ok hsave)
      | ok applied =>
        simp only [Option.bind_some, Prog.exec_bind] at h
        obtain ⟨r, -, hr⟩ := Option.bind_eq_some_iff.1 h
        cases hr

/-- Settings whose reload failed have left the file's text as it was exactly where that text was
    the document's already. -/
theorem failed_settings_unwritten_iff (env : ServiceEnv) (syn : TomlSyntax) (doc : ConfigDocument)
    (w w' : Service) (e : ReloadError)
    (h : (saveAndReload syn doc).exec (Service.serve env) w = some (.error (.reload e), w')) :
    w'.fileText = w.fileText ↔ w.fileText = some (doc.toText syn) := by
  rw [saveAndReload_error h, eq_comm]

/-! ## A tracker removed while a repair is filed under it -/

namespace RemovedTracker

def text : String := "[[trackers]]\nid = \"a\"\nkind = \"fake\"\n"

def tree : Toml.Table := [("trackers", .arrayOfTables [[("id", .str "a"), ("kind", .str "fake")]])]

def syn : TomlSyntax :=
  .known [(text, tree), ("", [])] fun t => if t.isEmpty then "" else text

def env : ServiceEnv := .plain (.plain syn)

def config : Config := { Config.default with
  trackers := [⟨"a", .fake, placeholderUrl, .default, none, .header⟩] }

/-- The store, with a fresh job of the tracker. -/
def store : SqliteRepairStore where
  jobs := ⟨[discoveredRow ⟨1⟩ 0 ⟨⟨"a"⟩, ⟨"7"⟩, "show", none, 10, none⟩], List.nodup_singleton _⟩
  files := .empty
  transitions := []
  jobSeq := 1

def service : Service :=
  .started ⟨some ⟨text, 1, 0o600⟩, none, none, 2⟩ (.plain config env.build) store

/-- The document of the file after the row of the tracker was removed. -/
def doc : ConfigDocument where
  path := env.build.configPath
  text := text
  doc := []
  writable := true
  mode := some 0o600
  stamp := some (text.utf8ByteSize, 1)

def refusal : ReloadError :=
  .refused "tracker `a` cannot be removed or renamed while it has 1 unfinished repair(s)"

/-- The reload is refused. -/
theorem refused : ∃ w', (saveAndReload syn doc).exec (Service.serve env) service =
    some (.error (.reload refusal), w') := by
  have h : ((saveAndReload syn doc).exec (Service.serve env) service).map (·.1) =
      some (.error (.reload refusal)) := by decide +kernel
  obtain ⟨⟨r, w'⟩, hrun, hr⟩ := Option.map_eq_some_iff.1 h
  obtain rfl : r = .error (.reload refusal) := hr
  exact ⟨w', hrun⟩

end RemovedTracker

theorem removed_tracker_written : ∃ w',
    (saveAndReload RemovedTracker.syn RemovedTracker.doc).exec
      (Service.serve RemovedTracker.env) RemovedTracker.service =
        some (.error (.reload RemovedTracker.refusal), w') ∧
    (w'.fileText = RemovedTracker.service.fileText ↔
      RemovedTracker.service.fileText = some (RemovedTracker.doc.toText RemovedTracker.syn)) := by
  obtain ⟨w', hrun⟩ := RemovedTracker.refused
  exact ⟨w', hrun, failed_settings_unwritten_iff _ _ _ _ _ _ hrun⟩

/-- The removal that was refused is on disk, where the next start applies it. -/
theorem not_refused_settings_unwritten : ¬ ∀ message w',
    (saveAndReload RemovedTracker.syn RemovedTracker.doc).exec
      (Service.serve RemovedTracker.env) RemovedTracker.service =
        some (.error (.reload (.refused message)), w') →
    w'.fileText = RemovedTracker.service.fileText := by
  intro h
  obtain ⟨w', hrun⟩ := RemovedTracker.refused
  have hsame := h _ w' hrun
  rw [saveAndReload_error hrun] at hsame
  revert hsame
  decide

end SeedMedic
