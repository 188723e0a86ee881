/-
  The configuration file as a document that is read, edited and written back
  (`config/write.rs`).
-/
import SeedMedic.Config.Decode
import SeedMedic.Lib.Prog

namespace SeedMedic

open Lib Lib.Toml

/-! ## The file and what lies beside it -/

/-- Length, time of the last change and mode bits of a file. -/
structure FileStat where
  len : ℕ
  modified : ℕ
  mode : ℕ
  deriving DecidableEq

inductive FileCall where
  | readToString
  | metadata
  /-- Open the file for writing and create a probe in its directory. -/
  | probeWritable
  /-- Copy the file to the backup beside it. -/
  | copyToBak
  /-- Create the temporary file, write it and flush it to disk. -/
  | writeTemp (text : String)
  | setPermissions (mode : ℕ)
  /-- Move the temporary file over the file. -/
  | rename
  /-- Open the file itself, emptying it. -/
  | truncate (mode : ℕ)
  | writeAll (text : String)
  | removeTemp

def FileCall.Ans : FileCall → Type
  | readToString => Except ReadError String
  | metadata => Except String FileStat
  | probeWritable => Bool
  | copyToBak | writeTemp _ | setPermissions _ | rename | truncate _ | writeAll _ =>
    Except String Unit
  | removeTemp => Unit

/-- Code that works on the configuration file. -/
abbrev F := Prog FileCall FileCall.Ans

namespace F

def ask (c : FileCall) : F c.Ans := Prog.ask c

@[simp] theorem ask_bind {α : Type} (c : FileCall) (f : c.Ans → F α) :
    (ask c >>= f) = .call c f := rfl

end F

/-! ## Documents -/

/-- What a file's state is remembered by. -/
abbrev FileStamp := ℕ × ℕ

structure ConfigDocument where
  path : PathBuf
  /-- The text the document was read as. -/
  text : String
  doc : Table
  writable : Bool
  mode : Option ℕ
  /-- Length and time of change when the document was read. -/
  stamp : Option FileStamp

inductive DocumentError where
  | read (path : PathBuf) (source : String)
  | parse (path : PathBuf) (source : String)
  | notWritable (path : PathBuf)
  | externalEdit (path : PathBuf)
  | nowUnparseable (path : PathBuf)
  | write (path : PathBuf) (source : String)
  deriving DecidableEq

def DocumentError.toText : DocumentError → String
  | read p s => "cannot read " ++ p.toStringLossy ++ ": " ++ s
  | parse p s => "cannot parse " ++ p.toStringLossy ++ ": " ++ s
  | notWritable p => p.toStringLossy ++ " is not writable; fix the file or directory " ++
      "permissions, or the mount it lives on"
  | externalEdit p => p.toStringLossy ++ " changed on disk since this page was loaded; reload " ++
      "the page and try again so nothing you did not intend gets overwritten"
  | nowUnparseable p => p.toStringLossy ++ " was edited by something else since it was last read " ++
      "and no longer parses as TOML; fix it by hand before saving from here"
  | write p s => "cannot write " ++ p.toStringLossy ++ ": " ++ s

/-- Which way a save reached the disk. -/
inductive SaveOutcome where
  | renamed
  | writtenInPlace
  deriving DecidableEq

def FileStat.stamp (s : FileStat) : FileStamp := (s.len, s.modified)

/-- A name in the directory of a path. -/
def beside (path : PathBuf) (name : String) : PathBuf :=
  match parentOf path with
  | some dir => if isUnset dir then (PathBuf.ofString ".").join name else dir.join name
  | none => (PathBuf.ofString ".").join name

def tempPath (path : PathBuf) : PathBuf :=
  let fileName := (path.fileName.bind fun n => PathBuf.toStr ⟨n⟩).getD "config.toml"
  beside path ("." ++ fileName ++ ".tmp")

def bakPath (path : PathBuf) : PathBuf := .ofString (path.toStringLossy ++ ".bak")

namespace ConfigDocument

variable (syn : TomlSyntax)

/-- Read and parse the file, a missing one as an empty document. -/
def read (path : PathBuf) : F (Except DocumentError ConfigDocument) := do
  match ← F.ask .readToString with
  | .error (.other source) => pure (.error (.read path source))
  | .ok raw => parsed raw
  | .error (.notFound _) => parsed ""
where
  /-- What follows once there is a text. -/
  parsed (raw : String) : F (Except DocumentError ConfigDocument) :=
    match syn.parse raw with
    | .error source => pure (.error (.parse path source))
    | .ok doc => do
      let stat ← F.ask .metadata
      let writable ← F.ask .probeWritable
      pure (.ok
        { path, text := raw, doc, writable
          mode := stat.toOption.map (·.mode)
          stamp := stat.toOption.map (·.stamp) })

/-- The document as text. -/
def toText (d : ConfigDocument) : String := syn.render d.text d.doc

/-- The document as the configuration that would run. -/
def toConfig (host : ConfigHost) (d : ConfigDocument) : Except ConfigError Config :=
  Config.ofText host syn d.path (d.toText syn)

/-- Write a text into the file itself. -/
def writeInPlace (d : ConfigDocument) (text : String) : F (Except DocumentError SaveOutcome) := do
  match ← F.ask (.truncate (d.mode.getD 0o600)) with
  | .error source => pure (.error (.write d.path source))
  | .ok () =>
    match ← F.ask (.writeAll text) with
    | .error source => pure (.error (.write d.path source))
    | .ok () =>
      F.ask .removeTemp
      pure (.ok .writtenInPlace)

/-- Put a text where the file is: a temporary file moved over it, or the file itself written
    where that fails. -/
def replaceWith (d : ConfigDocument) (text : String) : F (Except DocumentError SaveOutcome) := do
  match ← F.ask (.writeTemp text) with
  | .error source => pure (.error (.write (tempPath d.path) source))
  | .ok () =>
    match ← F.ask (.setPermissions (d.mode.getD 0o600)) with
    | .error source => pure (.error (.write (tempPath d.path) source))
    | .ok () =>
      match ← F.ask .rename with
      | .ok () => pure (.ok .renamed)
      | .error _ => d.writeInPlace text

/-- Whether the file is still as the document was read from it, and then its backup. -/
def checkUnchanged (d : ConfigDocument) (stamp : FileStamp) : F (Except DocumentError Unit) := do
  match ← F.ask .metadata with
  | .error source => pure (.error (.read d.path source))
  | .ok stat =>
    match ← F.ask .readToString with
    | .error e => pure (.error (.read d.path e.toText))
    | .ok raw =>
      -- a text that does not parse may be an edit in progress
      match syn.parse raw with
      | .error _ => pure (.error (.nowUnparseable d.path))
      | .ok _ =>
        if stat.stamp ≠ stamp then pure (.error (.externalEdit d.path))
        else
          match ← F.ask .copyToBak with
          | .error source => pure (.error (.write (bakPath d.path) source))
          | .ok () => pure (.ok ())

/-- Write the document to disk, unless the file has changed since it was read. -/
def save (d : ConfigDocument) : F (Except DocumentError SaveOutcome) :=
  if !d.writable then pure (.error (.notWritable d.path))
  else
    match d.stamp with
    | none => d.replaceWith (d.toText syn)
    | some stamp => do
      match ← checkUnchanged syn d stamp with
      | .error e => pure (.error e)
      | .ok () => d.replaceWith (d.toText syn)

end ConfigDocument

end SeedMedic
