/-
  Staging on the local filesystem, call by call (`staging/safety.rs`,
  `staging/adapters/local.rs`).
-/
import SeedMedic.Config.Problems
import SeedMedic.Lib.FileTree
import SeedMedic.Staging.Local

namespace SeedMedic

open Lib

/-! ## Calls to the system -/

/-- A path that is handed to the system. -/
inductive FsPath where
  /-- Names joined onto the staging root, one after another. -/
  | staged (names : List String)
  | host (path : PathBuf)
  deriving DecidableEq

inductive FsErrorKind where
  | notFound
  | alreadyExists
  | other
  deriving DecidableEq

structure FsError where
  kind : FsErrorKind
  text : String

inductive FileType where
  | dir
  | file
  | symlink
  | other
  deriving DecidableEq

structure Metadata where
  fileType : FileType
  len : ℕ
  dev : ℕ

inductive FsCall where
  | symlinkMetadata (p : FsPath)
  /-- Of what the path leads to. -/
  | metadata (p : FsPath)
  | createDir (p : FsPath)
  | removeFile (p : FsPath)
  | removeDirAll (p : FsPath)
  | write (p : FsPath) (bytes : List UInt8)
  | copy (source destination : FsPath)
  | hardLink (source destination : FsPath)
  | reflink (source destination : FsPath)
  /-- The bytes free for an unprivileged writer. -/
  | statvfs (p : FsPath)

def FsCall.Ans : FsCall → Type
  | symlinkMetadata _ | metadata _ => Except FsError Metadata
  | statvfs _ => Except FsError ℕ
  | createDir _ | removeFile _ | removeDirAll _ | write .. | copy .. | hardLink .. | reflink .. =>
    Except FsError Unit

/-- Code that works on the staging filesystem. -/
abbrev Sys := Prog FsCall FsCall.Ans

namespace Sys

def ask (c : FsCall) : Sys c.Ans := Prog.ask c

@[simp] theorem ask_bind {α : Type} (c : FsCall) (f : c.Ans → Sys α) :
    (ask c >>= f) = .call c f := rfl

end Sys

namespace Staging

/-- What was learned of pairs of a source device and a staging device. -/
abbrev DeviceProbes := ℕ × ℕ → Option DeviceCapabilities

variable (l : LocalStaging)

/-- A path as the program spells it. -/
def spelled : FsPath → PathBuf
  | .staged names => names.foldl PathBuf.join l.root
  | .host path => path

def display (p : FsPath) : String := (spelled l p).toStringLossy

def joined (path : SafeRelativePath) : FsPath := .staged (splitParts path.str)

/-- A text that starts with a plain name is no absolute path. -/
theorem isAbsolute_append {c : String} (hc : PlainName c) (s : String) :
    (PathBuf.ofString (c ++ s)).isAbsolute = false := by
  obtain ⟨b, bs, hb⟩ := List.exists_cons_of_ne_nil hc.name.ne_nil
  have hhead : (PathBuf.ofString (c ++ s)).bytes.head? = some b := by
    rw [PathBuf.bytes_ofString] at hb
    simp [PathBuf.bytes_ofString, hb]
  rw [PathBuf.isAbsolute, hhead]
  refine decide_eq_false fun h => hc.name.plain ?_
  rw [hb, Option.some.inj h]
  exact List.mem_cons_self ..

/-- Joined one after the other, or at once. -/
theorem join_join {root : PathBuf} {c s : String} (hc : PlainName c)
    (hs : (PathBuf.ofString s).isAbsolute = false) :
    (root.join c).join s = root.join (c ++ "/" ++ s) := by
  have hbytes : (PathBuf.ofString (c ++ "/" ++ s)).bytes =
      (PathBuf.ofString c).bytes ++ PathBuf.slash :: (PathBuf.ofString s).bytes := by
    simp [PathBuf.bytes_ofString]
    rfl
  have hc' : (PathBuf.ofString c).isAbsolute = false := by simpa using isAbsolute_append hc ""
  have hcs : (PathBuf.ofString (c ++ "/" ++ s)).isAbsolute = false := by
    rw [String.append_assoc]
    exact isAbsolute_append hc _
  -- the joined name does not end in a slash
  have hjoined : ¬((root.join c).bytes.getLast? = some PathBuf.slash ∨ (root.join c).bytes = []) := by
    have hx := List.getLast?_eq_some_getLast hc.name.ne_nil
    have hslash := ne_of_mem_of_not_mem (List.getLast_mem hc.name.ne_nil) hc.name.plain
    simp [PathBuf.join, hc', hx, hslash, hc.name.ne_nil]
  rw [PathBuf.join, hs, if_neg Bool.false_ne_true, if_neg hjoined, PathBuf.join, PathBuf.join, hc', hcs,
    if_neg Bool.false_ne_true, if_neg Bool.false_ne_true, hbytes]
  simp

theorem joinParts_singleton (c : String) : joinParts [c] = c :=
  String.toList_inj.1 (by simp [joinParts, List.intercalate])

theorem joinParts_cons {c : String} {cs : List String} (hcs : cs ≠ []) :
    joinParts (c :: cs) = c ++ "/" ++ joinParts cs := by
  rw [← List.singleton_append, SafeRelativePath.joinParts_append (List.cons_ne_nil c []) hcs,
    joinParts_singleton]

theorem isAbsolute_joinParts {cs : List String} (hne : cs ≠ []) (h : ∀ c ∈ cs, PlainName c) :
    (PathBuf.ofString (joinParts cs)).isAbsolute = false := by
  obtain ⟨c, cs, rfl⟩ := List.exists_cons_of_ne_nil hne
  have hc := h c (List.mem_cons_self ..)
  by_cases hcs : cs = []
  · subst hcs
    simpa [joinParts_singleton] using isAbsolute_append hc ""
  · rw [joinParts_cons hcs, String.append_assoc]
    exact isAbsolute_append hc _

/-- A destination is spelled as it is joined onto the root. -/
theorem spelled_joined (path : SafeRelativePath) :
    spelled l (joined path) = path.joinOnto l.root := by
  have hall : ∀ cs : List String, cs ≠ [] → (∀ c ∈ cs, PlainName c) → ∀ root : PathBuf,
      cs.foldl PathBuf.join root = root.join (joinParts cs) := by
    intro cs
    induction cs with
    | nil => exact fun h => absurd rfl h
    | cons c cs ih =>
      intro _ hplain root
      obtain ⟨hc, hcs⟩ := List.forall_mem_cons.1 hplain
      by_cases hnil : cs = []
      · subst hnil
        rw [joinParts_singleton]
        rfl
      · rw [List.foldl_cons, ih hnil hcs, joinParts_cons hnil]
        exact join_join hc (isAbsolute_joinParts hnil hcs)
  obtain ⟨hne, hplain, hstr⟩ := path.parts_spec
  rw [joined, spelled, hall _ hne hplain, ← hstr]
  rfl

/-! ## Escape checks -/

def rejectIfSymlink (p : FsPath) : Sys (Except StagingError Unit) := do
  match ← Sys.ask (.symlinkMetadata p) with
  | .ok metadata =>
    if metadata.fileType = .symlink then
      pure (.error (.unsafePath (spelled l p) "path component is a symlink"))
    else pure (.ok ())
  | .error e =>
    -- does not exist yet: nothing to escape through
    if e.kind = .notFound then pure (.ok ())
    else pure (.error (.io ("cannot stat " ++ display l p ++ ": " ++ e.text)))

/-- Look at the directories named by `components` below those named by `current`. -/
def rejectSymlinks (current : List String) : List String → Sys (Except StagingError Unit)
  | [] => pure (.ok ())
  | component :: components => do
    match ← rejectIfSymlink l (.staged (current ++ [component])) with
    | .error e => pure (.error e)
    | .ok () => rejectSymlinks (current ++ [component]) components

/-- Resolve a path below the root, refusing if a component that already exists is a symlink. -/
def resolveUnder (path : SafeRelativePath) : Sys (Except StagingError FsPath) := do
  match ← rejectIfSymlink l (.host l.root) with
  | .error e => pure (.error e)
  | .ok () =>
    match ← rejectSymlinks l [] path.parentComponents with
    | .error e => pure (.error e)
    | .ok () => pure (.ok (joined path))

/-- Create a directory unless there is something in its place, and look at what is there. -/
def createChecked (directory : FsPath) : Sys (Except StagingError Unit) := do
  match ← Sys.ask (.createDir directory) with
  | .ok () => rejectIfSymlink l directory
  | .error e =>
    if e.kind = .alreadyExists then rejectIfSymlink l directory
    else pure (.error (.io ("cannot create " ++ display l directory ++ ": " ++ e.text)))

/-- Create the directories named by `components` below those named by `current`. -/
def createEach (current : List String) : List String → Sys (Except StagingError Unit)
  | [] => pure (.ok ())
  | component :: components => do
    match ← createChecked l (.staged (current ++ [component])) with
    | .error e => pure (.error e)
    | .ok () => createEach (current ++ [component]) components

/-- Create every directory above a path, checking each level for symlinks as it goes. -/
def createDirectories (path : SafeRelativePath) : Sys (Except StagingError Unit) :=
  createEach l [] path.parentComponents

/-! ## What the devices can do -/

def probeSrc : FsPath := .staged [".seedmedic-reflink-probe-src"]

def probeDst : FsPath := .staged [".seedmedic-reflink-probe-dst"]

/-- A zero-length clone. -/
def cloneEmpty : Sys (Except FsError Unit) := do
  match ← Sys.ask (.write probeSrc []) with
  | .error e => pure (.error e)
  | .ok () =>
    let _ ← Sys.ask (.removeFile probeDst)
    Sys.ask (.reflink probeSrc probeDst)

/-- Confirm reflink support with a real clone. -/
def probeReflinkCapability : Sys ReflinkSupport := do
  let _ ← Sys.ask (.removeFile probeDst)
  let result ← cloneEmpty
  let _ ← Sys.ask (.removeFile probeSrc)
  let _ ← Sys.ask (.removeFile probeDst)
  match result with
  | .ok () => pure .supported
  | .error e => pure (.unsupported ("reflink probe failed: " ++ e.text))

/-- Establish what works between two devices. -/
def deviceCapabilities (sourceDev stagingDev : ℕ) : Sys DeviceCapabilities :=
  if sourceDev = stagingDev then do
    let reflink ← probeReflinkCapability
    pure ⟨true, reflink⟩
  else pure ⟨false, .unsupported "source and staging are on different devices"⟩

/-- Look up, or establish, what works between two devices. -/
def probeDevices (sourceDev stagingDev : ℕ) (probes : DeviceProbes) :
    Sys (DeviceCapabilities × DeviceProbes) :=
  match probes (sourceDev, stagingDev) with
  | some cached => pure (cached, probes)
  | none => do
    let capabilities ← deviceCapabilities sourceDev stagingDev
    pure (capabilities, Function.update probes (sourceDev, stagingDev) (some capabilities))

/-- What the audit trail is told of reflinks. -/
def planReflinkProbe (items : List PlanItem) (preference : List MaterializationStrategy)
    (stagingDev : ℕ) (probes : DeviceProbes) : Sys (Option ReflinkSupport × DeviceProbes) :=
  if .reflink ∈ preference then
    match items with
    | [] => pure (none, probes)
    | item :: _ => do
      match ← Sys.ask (.symlinkMetadata (.host item.source)) with
      | .error _ => pure (none, probes)
      | .ok metadata =>
        let (capabilities, probes) ← probeDevices metadata.dev stagingDev probes
        pure (some capabilities.reflink, probes)
  else pure (none, probes)

/-! ## Whether a plan fits -/

def alreadyStaged (destination : FsPath) (expectedLength : ℕ) : Sys Bool := do
  match ← Sys.ask (.symlinkMetadata destination) with
  | .ok metadata => pure (decide (metadata.fileType = .file ∧ metadata.len = expectedLength))
  | .error _ => pure false

/-- The cost by the first strategy that will work. -/
def costBy (length : ℕ) (capabilities : DeviceCapabilities) : List MaterializationStrategy → ℕ
  | [] => length
  | .copy :: _ => length
  | .reflink :: rest =>
    if capabilities.reflink = .supported then 0 else costBy length capabilities rest
  | .hardlink :: rest => if capabilities.canHardlink then 0 else costBy length capabilities rest

def predictedCost (length : ℕ) (preference : List MaterializationStrategy)
    (sourceDev stagingDev : ℕ) (probes : DeviceProbes) : Sys (ℕ × DeviceProbes) := do
  let (capabilities, probes) ← probeDevices sourceDev stagingDev probes
  pure (costBy length capabilities preference, probes)

/-- The bytes a plan would newly write, on top of `total`. -/
def requiredNewBytes (preference : List MaterializationStrategy) (stagingDev : ℕ) :
    List PlanItem → ℕ → DeviceProbes → Sys (Except StagingError ℕ × DeviceProbes)
  | [], total, probes => pure (.ok total, probes)
  | item :: items, total, probes => do
    match ← resolveUnder l item.destination with
    | .error e => pure (.error e, probes)
    | .ok destination =>
      if ← alreadyStaged destination item.length then
        requiredNewBytes preference stagingDev items total probes
      else
        match ← Sys.ask (.metadata (.host item.source)) with
        | .ok metadata =>
          let (cost, probes) ←
            predictedCost item.length preference metadata.dev stagingDev probes
          requiredNewBytes preference stagingDev items (LocalStaging.saturatingAdd total cost) probes
        | .error _ =>
          requiredNewBytes preference stagingDev items
            (LocalStaging.saturatingAdd total item.length) probes

/-- The bytes free on the staging filesystem. -/
def availableBytes : Sys (Except StagingError ℕ) :=
  if 0 ∈ l.root.bytes then
    pure (.error (.io ("cannot stat " ++ l.root.toStringLossy ++
      ": nul byte found in provided data at position: " ++ toString (l.root.bytes.idxOf 0))))
  else do
    match ← Sys.ask (.statvfs (.host l.root)) with
    | .ok available => pure (.ok available)
    | .error e => pure (.error (.io ("cannot statvfs " ++ l.root.toStringLossy ++ ": " ++ e.text)))

/-- Whether there is space for what a plan would newly write. -/
def checkSpace (needed : ℕ) : Sys (Except StagingError Unit) :=
  if 0 < needed then do
    match ← availableBytes l with
    | .error e => pure (.error e)
    | .ok available =>
      if available - l.minFreeBytes < needed then
        pure (.error (.insufficientSpace needed available l.minFreeBytes))
      else pure (.ok ())
  else pure (.ok ())

/-! ## Materialization -/

def attempt (strategy : MaterializationStrategy) (source destination : FsPath)
    (capabilities : DeviceCapabilities) : Sys (Except StagingError Unit) :=
  match strategy with
  | .reflink =>
    match capabilities.reflink with
    | .unsupported reason => pure (.error (.strategyUnavailable .reflink reason))
    | .supported => do
      match ← Sys.ask (.reflink source destination) with
      | .ok () => pure (.ok ())
      | .error e => pure (.error (.io ("cannot reflink " ++ display l source ++ " to " ++
          display l destination ++ ": " ++ e.text)))
  | .hardlink =>
    if capabilities.canHardlink then do
      match ← Sys.ask (.hardLink source destination) with
      | .ok () => pure (.ok ())
      | .error e => pure (.error (.strategyUnavailable .hardlink e.text))
    else
      pure (.error (.strategyUnavailable .hardlink "source and staging are on different devices"))
  | .copy => do
    match ← Sys.ask (.copy source destination) with
    | .ok () => pure (.ok ())
    | .error e => pure (.error (.io ("cannot copy " ++ display l source ++ " to " ++
        display l destination ++ ": " ++ e.text)))

/-- Catches a short write. -/
def verifyStagedSize (destination : FsPath) (expected : ℕ) : Sys (Except StagingError Unit) := do
  match ← Sys.ask (.metadata destination) with
  | .error e =>
    pure (.error (.io ("cannot verify staged " ++ display l destination ++ ": " ++ e.text)))
  | .ok metadata =>
    if metadata.len ≠ expected then
      pure (.error (.io ("staged " ++ display l destination ++ " is " ++ toString metadata.len ++
        " bytes, expected " ++ toString expected)))
    else pure (.ok ())

/-- Try one strategy after the other; `lastError` is why the last one was not available. -/
def attemptAll (item : PlanItem) (destination : FsPath) (capabilities : DeviceCapabilities) :
    List MaterializationStrategy → Option StagingError → Sys (Except StagingError StagedFile)
  | [], lastError => pure (.error (lastError.getD .noStrategyPermitted))
  | strategy :: rest, _ => do
    match ← attempt l strategy (.host item.source) destination capabilities with
    | .ok () =>
      match ← verifyStagedSize l destination item.length with
      | .error e => pure (.error e)
      | .ok () => pure (.ok ⟨item.destination, strategy, item.length⟩)
    | .error (.strategyUnavailable s reason) =>
      attemptAll item destination capabilities rest (some (.strategyUnavailable s reason))
    | .error e => pure (.error e)

/-- Materialise a file where nothing lies any more. -/
def materializeNew (item : PlanItem) (destination : FsPath)
    (preference : List MaterializationStrategy) (stagingDev : ℕ) (probes : DeviceProbes) :
    Sys (Except StagingError StagedFile × DeviceProbes) := do
  match ← Sys.ask (.symlinkMetadata (.host item.source)) with
  | .error _ => pure (.error (.sourceMissing item.source), probes)
  | .ok source =>
    if source.len ≠ item.length then
      pure (.error (.sourceChanged item.source item.length source.len), probes)
    else
      match ← createDirectories l item.destination with
      | .error e => pure (.error e, probes)
      | .ok () =>
        let (capabilities, probes) ← probeDevices source.dev stagingDev probes
        let result ← attemptAll l item destination capabilities preference none
        pure (result, probes)

def materializeOne (item : PlanItem) (preference : List MaterializationStrategy)
    (stagingDev : ℕ) (probes : DeviceProbes) :
    Sys (Except StagingError StagedFile × DeviceProbes) := do
  match ← resolveUnder l item.destination with
  | .error e => pure (.error e, probes)
  | .ok destination =>
    match ← Sys.ask (.symlinkMetadata destination) with
    | .ok metadata =>
      if metadata.fileType = .symlink then
        pure (.error (.unsafePath (item.destination.joinOnto l.root)
          "destination exists and is a symlink"), probes)
      else if metadata.fileType = .file ∧ metadata.len = item.length then
        -- an earlier attempt got this far, and the job's row tells how
        pure (.ok ⟨item.destination, item.previousStrategy.getD .hardlink, metadata.len⟩, probes)
      else
        match ← Sys.ask (.removeFile destination) with
        | .error e =>
          pure (.error (.io ("cannot replace " ++ display l destination ++ ": " ++ e.text)), probes)
        | .ok () => materializeNew l item destination preference stagingDev probes
    | .error _ => materializeNew l item destination preference stagingDev probes

/-- Materialise items in turn, up to the first that fails. -/
def materializeAll (preference : List MaterializationStrategy) (stagingDev : ℕ) :
    List PlanItem → DeviceProbes → Sys (Except StagingError (List StagedFile) × DeviceProbes)
  | [], probes => pure (.ok [], probes)
  | item :: items, probes => do
    let (staged, probes) ← materializeOne l item preference stagingDev probes
    match staged with
    | .error e => pure (.error e, probes)
    | .ok file =>
      let (files, probes) ← materializeAll preference stagingDev items probes
      pure (files.map (file :: ·), probes)

def deviceId : Sys (Except StagingError ℕ) := do
  match ← Sys.ask (.metadata (.host l.root)) with
  | .ok metadata => pure (.ok metadata.dev)
  | .error e => pure (.error (.io ("cannot stat " ++ l.root.toStringLossy ++ ": " ++ e.text)))

def materialize (plan : MaterializationPlan) (preference : List MaterializationStrategy)
    (probes : DeviceProbes) : Sys (Except StagingError StagedLayout × DeviceProbes) := do
  match ← deviceId l with
  | .error e => pure (.error e, probes)
  | .ok stagingDev =>
    let (reflink, probes) ← planReflinkProbe plan.items preference stagingDev probes
    let (needed, probes) ← requiredNewBytes l preference stagingDev plan.items 0 probes
    match needed with
    | .error e => pure (.error e, probes)
    | .ok needed =>
      match ← checkSpace l needed with
      | .error e => pure (.error e, probes)
      | .ok () =>
        let (files, probes) ← materializeAll l preference stagingDev plan.items probes
        pure (files.map fun files => ⟨files, reflink⟩, probes)

def discard (jobDir : SafeRelativePath) : Sys (Except StagingError Unit) := do
  match ← resolveUnder l jobDir with
  | .error e => pure (.error e)
  | .ok directory =>
    if !startsWith (jobDir.joinOnto l.root) l.root then
      pure (.error (.unsafePath (jobDir.joinOnto l.root) "resolved outside the staging root"))
    else
      match ← Sys.ask (.removeDirAll directory) with
      | .ok () => pure (.ok ())
      | .error e =>
        if e.kind = .notFound then pure (.ok ())
        else pure (.error (.io ("cannot remove " ++ display l directory ++ ": " ++ e.text)))

end Staging

end SeedMedic
