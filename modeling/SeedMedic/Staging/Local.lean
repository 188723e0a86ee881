/-
  Staging on the local filesystem (`staging/adapters/local.rs`).
-/
import Mathlib.Logic.Function.Basic
import SeedMedic.Staging.Domain

namespace SeedMedic

open Lib

/-! ## The disk -/

inductive EntryKind where
  | directory
  | symlink
  | file
  deriving DecidableEq

/-- What lies at a path. -/
structure Entry where
  kind : EntryKind
  inode : ℕ
  deriving DecidableEq

/-- The staging area, by paths relative to its root, and the library, which is apart from it. -/
structure Disk where
  staged : SafeRelativePath → Option Entry
  library : PathBuf → Option Entry
  /-- The length of what an inode holds. -/
  length : ℕ → ℕ
  /-- The first inode that was never allocated. -/
  unused : ℕ
  staged_used : ∀ {d e}, staged d = some e → e.inode < unused
  library_used : ∀ {p e}, library p = some e → e.inode < unused

namespace Disk

variable (disk : Disk)

/-- A staged path and a library path are two names of one inode. -/
def Hardlinked (d : SafeRelativePath) (p : PathBuf) : Prop :=
  ∃ e, disk.staged d = some e ∧ disk.library p = some e

/-- A staged path shares its inode with the library. -/
def Aliases (d : SafeRelativePath) : Prop := ∃ p, disk.Hardlinked d p

/-- `unlink`. -/
def remove (d : SafeRelativePath) : Disk where
  staged := Function.update disk.staged d none
  library := disk.library
  length := disk.length
  unused := disk.unused
  staged_used {d' e} h := by
    rw [Function.update_apply] at h
    split_ifs at h
    exact disk.staged_used h
  library_used := disk.library_used

/-- `link`: a second name for what lies at a library path. -/
def link (d : SafeRelativePath) (p : PathBuf) : Disk where
  staged := Function.update disk.staged d (disk.library p)
  library := disk.library
  length := disk.length
  unused := disk.unused
  staged_used {d' e} h := by
    rw [Function.update_apply] at h
    split_ifs at h
    · exact disk.library_used h
    · exact disk.staged_used h
  library_used := disk.library_used

/-- A new file of some length. -/
def write (d : SafeRelativePath) (bytes : ℕ) : Disk where
  staged := Function.update disk.staged d (some ⟨.file, disk.unused⟩)
  library := disk.library
  length := Function.update disk.length disk.unused bytes
  unused := disk.unused + 1
  staged_used {d' e} h := by
    rw [Function.update_apply] at h
    split_ifs at h
    · cases h
      exact Nat.lt_succ_self _
    · exact (disk.staged_used h).trans (Nat.lt_succ_self _)
  library_used h := (disk.library_used h).trans (Nat.lt_succ_self _)

end Disk

/-! ## What the host answers -/

/-- What became of a file that was written. -/
inductive Written where
  | done (bytes : ℕ)
  /-- An error, and how much of a file it left, if any. -/
  | failed (left : Option ℕ) (error : String)

/-- What the operating system answers while a plan is carried out, where the disk does not
    tell. -/
structure Host where
  /-- The device of the staging root. -/
  stagingDevice : Except StagingError ℕ
  availableBytes : Except StagingError ℕ
  /-- What `resolve_under` objects to in the directories above a path. -/
  resolveUnder : SafeRelativePath → Option StagingError
  /-- Why the directories above a path cannot be created. -/
  createDirectories : SafeRelativePath → Option StagingError
  /-- The device of a library path itself. -/
  deviceOf : PathBuf → ℕ
  /-- The device of what a library path leads to. -/
  followedDevice : PathBuf → Option ℕ
  /-- The length of what a staged path leads to, where it is no file. -/
  followed : SafeRelativePath → Except String ℕ
  /-- What a clone inside the staging root shows, or showed before. -/
  probeReflinkCapability : ReflinkSupport
  removeFile : SafeRelativePath → Option String
  reflink : SafeRelativePath → Written
  hardLink : SafeRelativePath → Option String
  copy : SafeRelativePath → Written

/-! ## The adapter -/

structure DeviceCapabilities where
  canHardlink : Bool
  reflink : ReflinkSupport

structure LocalStaging where
  root : PathBuf
  /-- Free space to keep beyond what a plan needs. -/
  minFreeBytes : ℕ

namespace LocalStaging

variable (l : LocalStaging) (h : Host)

/-- A staged path as it is shown. -/
def display (d : SafeRelativePath) : String := (d.joinOnto l.root).toStringLossy

def probeDevices (sourceDev stagingDev : ℕ) : DeviceCapabilities :=
  if sourceDev = stagingDev then ⟨true, h.probeReflinkCapability⟩
  else ⟨false, .unsupported "source and staging are on different devices"⟩

def alreadyStaged (disk : Disk) (d : SafeRelativePath) (expectedLength : ℕ) : Bool :=
  match disk.staged d with
  | some e => e.kind = .file && disk.length e.inode = expectedLength
  | none => false

/-- What a file costs by the first strategy that will work. -/
def predictedCost (length : ℕ) (preference : List MaterializationStrategy)
    (sourceDev stagingDev : ℕ) : ℕ :=
  let capabilities := probeDevices h sourceDev stagingDev
  match preference with
  | [] => length
  | .copy :: _ => length
  | .reflink :: rest =>
    if capabilities.reflink = .supported then 0 else predictedCost length rest sourceDev stagingDev
  | .hardlink :: rest =>
    if capabilities.canHardlink then 0 else predictedCost length rest sourceDev stagingDev

def saturatingAdd (a b : ℕ) : ℕ := min (a + b) (wordSize - 1)

/-- The bytes a plan would newly write. -/
def requiredNewBytes (disk : Disk) (preference : List MaterializationStrategy) (stagingDev : ℕ)
    (items : List PlanItem) : Except StagingError ℕ :=
  items.foldlM (fun total item =>
    match h.resolveUnder item.destination with
    | some e => .error e
    | none =>
      if alreadyStaged disk item.destination item.length then .ok total
      else .ok (saturatingAdd total (match h.followedDevice item.source with
        | some sourceDev => predictedCost h item.length preference sourceDev stagingDev
        | none => item.length))) 0

/-- What the audit trail is told of reflinks. -/
def planReflinkProbe (disk : Disk) (preference : List MaterializationStrategy) (stagingDev : ℕ)
    (items : List PlanItem) : Option ReflinkSupport :=
  if .reflink ∈ preference then
    match items.head? with
    | none => none
    | some item => (disk.library item.source).map fun _ =>
      (probeDevices h (h.deviceOf item.source) stagingDev).reflink
  else none

/-- The length of what a staged path leads to. -/
def stat (disk : Disk) (d : SafeRelativePath) : Except String ℕ :=
  match disk.staged d with
  | some ⟨.file, inode⟩ => .ok (disk.length inode)
  | _ => h.followed d

/-- Catches a short write. -/
def verifyStagedSize (disk : Disk) (d : SafeRelativePath) (expected : ℕ) : Except StagingError Unit :=
  match stat h disk d with
  | .error error => .error (.io ("cannot verify staged " ++ l.display d ++ ": " ++ error))
  | .ok actual =>
    if actual ≠ expected then
      .error (.io ("staged " ++ l.display d ++ " is " ++ toString actual ++ " bytes, expected " ++
        toString expected))
    else .ok ()

/-- Write a new file, as far as the host gets; `verb` names how. -/
def written (verb : String) (item : PlanItem) (outcome : Written) (disk : Disk) :
    Except StagingError Unit × Disk :=
  match outcome with
  | .done bytes => (.ok (), disk.write item.destination bytes)
  | .failed left error =>
    (.error (.io ("cannot " ++ verb ++ " " ++ item.source.toStringLossy ++ " to " ++
      l.display item.destination ++ ": " ++ error)),
      match left with
      | some bytes => disk.write item.destination bytes
      | none => disk)

def attempt (item : PlanItem) (capabilities : DeviceCapabilities) (disk : Disk) :
    MaterializationStrategy → Except StagingError Unit × Disk
  | .reflink =>
    match capabilities.reflink with
    | .unsupported reason => (.error (.strategyUnavailable .reflink reason), disk)
    | .supported => l.written "reflink" item (h.reflink item.destination) disk
  | .hardlink =>
    if capabilities.canHardlink then
      match h.hardLink item.destination with
      | some error => (.error (.strategyUnavailable .hardlink error), disk)
      | none => (.ok (), disk.link item.destination item.source)
    else
      (.error (.strategyUnavailable .hardlink "source and staging are on different devices"), disk)
  | .copy => l.written "copy" item (h.copy item.destination) disk

/-- Try one strategy after the other; `lastError` is why the last one was not available. -/
def attemptAll (item : PlanItem) (capabilities : DeviceCapabilities) :
    List MaterializationStrategy → Option StagingError → Disk → Except StagingError StagedFile × Disk
  | [], lastError, disk => (.error (lastError.getD .noStrategyPermitted), disk)
  | strategy :: rest, _, disk =>
    match l.attempt h item capabilities disk strategy with
    | (.ok (), disk) =>
      match l.verifyStagedSize h disk item.destination item.length with
      | .error e => (.error e, disk)
      | .ok () => (.ok ⟨item.destination, strategy, item.length⟩, disk)
    | (.error (.strategyUnavailable s reason), disk) =>
      attemptAll item capabilities rest (some (.strategyUnavailable s reason)) disk
    | (.error e, disk) => (.error e, disk)

/-- Materialise a file at a destination where nothing lies. -/
def materializeNew (item : PlanItem) (preference : List MaterializationStrategy)
    (stagingDev : ℕ) (disk : Disk) : Except StagingError StagedFile × Disk :=
  match disk.library item.source with
  | none => (.error (.sourceMissing item.source), disk)
  | some source =>
    if disk.length source.inode ≠ item.length then
      (.error (.sourceChanged item.source item.length (disk.length source.inode)), disk)
    else
      match h.createDirectories item.destination with
      | some e => (.error e, disk)
      | none =>
        l.attemptAll h item (probeDevices h (h.deviceOf item.source) stagingDev) preference none disk

def materializeOne (item : PlanItem) (preference : List MaterializationStrategy) (stagingDev : ℕ)
    (disk : Disk) : Except StagingError StagedFile × Disk :=
  match h.resolveUnder item.destination with
  | some e => (.error e, disk)
  | none =>
    match disk.staged item.destination with
    | none => l.materializeNew h item preference stagingDev disk
    | some found =>
      if found.kind = .symlink then
        (.error (.unsafePath (item.destination.joinOnto l.root)
          "destination exists and is a symlink"), disk)
      else if found.kind = .file ∧ disk.length found.inode = item.length then
        -- an earlier attempt got this far, and the job's row tells how
        (.ok ⟨item.destination, item.previousStrategy.getD .hardlink, disk.length found.inode⟩, disk)
      else
        match h.removeFile item.destination with
        | some error =>
          (.error (.io ("cannot replace " ++ l.display item.destination ++ ": " ++ error)), disk)
        | none => l.materializeNew h item preference stagingDev (disk.remove item.destination)

/-- Materialise the items of a plan in turn, up to the first that fails. -/
def materializeAll (preference : List MaterializationStrategy) (stagingDev : ℕ) :
    List PlanItem → Disk → Except StagingError (List StagedFile) × Disk
  | [], disk => (.ok [], disk)
  | item :: items, disk =>
    match l.materializeOne h item preference stagingDev disk with
    | (.error e, disk) => (.error e, disk)
    | (.ok file, disk) =>
      match materializeAll preference stagingDev items disk with
      | (.error e, disk) => (.error e, disk)
      | (.ok files, disk) => (.ok (file :: files), disk)

/-- Whether a plan fits, before anything is written. -/
def checkSpace (disk : Disk) (preference : List MaterializationStrategy) (stagingDev : ℕ)
    (items : List PlanItem) : Except StagingError Unit := do
  let needed ← requiredNewBytes h disk preference stagingDev items
  if 0 < needed then
    let available ← h.availableBytes
    if available - l.minFreeBytes < needed then
      .error (.insufficientSpace needed available l.minFreeBytes)

def materialize (plan : MaterializationPlan) (preference : List MaterializationStrategy)
    (disk : Disk) : Except StagingError StagedLayout × Disk :=
  match h.stagingDevice with
  | .error e => (.error e, disk)
  | .ok stagingDev =>
    match l.checkSpace h disk preference stagingDev plan.items with
    | .error e => (.error e, disk)
    | .ok () =>
      match l.materializeAll h preference stagingDev plan.items disk with
      | (.error e, disk') => (.error e, disk')
      | (.ok files, disk') =>
        (.ok ⟨files, planReflinkProbe h disk preference stagingDev plan.items⟩, disk')

/-- Whether the planned files are all there. -/
def inspect (plan : MaterializationPlan) (disk : Disk) : StagingPresence :=
  let expected := plan.items.length
  let present := plan.items.countP fun item => alreadyStaged disk item.destination item.length
  if present = 0 then .absent
  else if present = expected then .complete
  else .incomplete present expected

end LocalStaging

/-! ## What a materialization changes -/

namespace Disk

variable {disk disk₁ disk₂ : Disk} {d d' : SafeRelativePath}

/-- Nothing is changed but what lies at some staged paths. -/
structure Within (ds : List SafeRelativePath) (disk disk' : Disk) : Prop where
  library : disk'.library = disk.library
  others : ∀ d, d ∉ ds → disk'.staged d = disk.staged d
  lengths : ∀ n, n < disk.unused → disk'.length n = disk.length n
  unused : disk.unused ≤ disk'.unused

theorem Within.refl (ds : List SafeRelativePath) (disk : Disk) : Within ds disk disk :=
  ⟨rfl, fun _ _ => rfl, fun _ _ => rfl, le_rfl⟩

theorem Within.trans {ds ds' all : List SafeRelativePath} (h : Within ds disk disk₁)
    (h' : Within ds' disk₁ disk₂) (hds : ds ⊆ all) (hds' : ds' ⊆ all) : Within all disk disk₂ where
  library := h'.library.trans h.library
  others d hd := (h'.others d fun hm => hd (hds' hm)).trans (h.others d fun hm => hd (hds hm))
  lengths n hn := (h'.lengths n (hn.trans_le h.unused)).trans (h.lengths n hn)
  unused := h.unused.trans h'.unused

/-- A path nothing is changed at shares its inode as before. -/
theorem Within.aliases {ds : List SafeRelativePath} (h : Within ds disk disk₁) (hd : d ∉ ds) :
    disk₁.Aliases d ↔ disk.Aliases d := by
  unfold Aliases Hardlinked
  rw [h.others d hd, h.library]

theorem within_remove (d : SafeRelativePath) : Within [d] disk (disk.remove d) where
  library := rfl
  others d' hd := Function.update_of_ne (by simpa using hd) ..
  lengths _ _ := rfl
  unused := le_rfl

theorem within_link (d : SafeRelativePath) (p : PathBuf) : Within [d] disk (disk.link d p) where
  library := rfl
  others d' hd := Function.update_of_ne (by simpa using hd) ..
  lengths _ _ := rfl
  unused := le_rfl

theorem within_write (d : SafeRelativePath) (bytes : ℕ) : Within [d] disk (disk.write d bytes) where
  library := rfl
  others d' hd := Function.update_of_ne (by simpa using hd) ..
  lengths n hn := Function.update_of_ne hn.ne ..
  unused := Nat.le_succ _

/-- A new file has an inode of its own. -/
theorem not_aliases_write (d : SafeRelativePath) (bytes : ℕ) : ¬(disk.write d bytes).Aliases d := by
  rintro ⟨p, e, hd, hp⟩
  change Function.update disk.staged d (some ⟨.file, disk.unused⟩) d = some e at hd
  rw [Function.update_self] at hd
  cases hd
  exact absurd (disk.library_used hp) (lt_irrefl _)

/-- What an item finds at its destination is no hardlink, or recorded as one. -/
def Trusts (disk : Disk) (item : PlanItem) : Prop :=
  ∀ e, disk.staged item.destination = some e → e.kind = .file →
    disk.length e.inode = item.length → disk.Aliases item.destination →
      item.previousStrategy.getD .hardlink = .hardlink

/-- An item is as trusted as before where nothing is changed at its destination. -/
theorem Trusts.within {ds : List SafeRelativePath} {item : PlanItem} (h : disk.Trusts item)
    (hw : Within ds disk disk₁) (hd : item.destination ∉ ds) : disk₁.Trusts item := by
  intro e he hkind hlength haliases
  rw [hw.others _ hd] at he
  rw [hw.lengths _ (disk.staged_used he)] at hlength
  exact h e he hkind hlength ((hw.aliases hd).1 haliases)

end Disk

namespace LocalStaging

variable {l : LocalStaging} {h : Host} {item : PlanItem} {disk disk' : Disk}

open Disk

theorem written_cases {verb : String} {outcome : Written} {r : Except StagingError Unit}
    (hr : l.written verb item outcome disk = (r, disk')) : Within [item.destination] disk disk' ∧
      (r = .ok () → ¬disk'.Aliases item.destination) ∧ ∀ s reason, r ≠ .error (.strategyUnavailable s reason) := by
  unfold written at hr
  split at hr
  · cases hr
    exact ⟨within_write .., fun _ => not_aliases_write _ _, by nofun⟩
  · cases hr
    refine ⟨?_, by nofun, by nofun⟩
    split
    · exact within_write ..
    · exact .refl ..

/-- A strategy touches the destination only, shares an inode only by linking, and changes nothing
    where it is not available. -/
theorem attempt_cases {capabilities : DeviceCapabilities} {strategy : MaterializationStrategy}
    {r : Except StagingError Unit} (hr : l.attempt h item capabilities disk strategy = (r, disk')) :
    Within [item.destination] disk disk' ∧
      (r = .ok () → disk'.Aliases item.destination → strategy = .hardlink) ∧
        ∀ s reason, r = .error (.strategyUnavailable s reason) → disk' = disk := by
  cases strategy with
  | reflink =>
    simp only [attempt] at hr
    split at hr
    · cases hr
      exact ⟨.refl .., by nofun, fun _ _ _ => rfl⟩
    · obtain ⟨hwithin, hown, hnone⟩ := written_cases hr
      exact ⟨hwithin, fun hok ha => absurd ha (hown hok), fun s reason he => absurd he (hnone s reason)⟩
  | hardlink =>
    simp only [attempt] at hr
    split_ifs at hr
    · split at hr
      · cases hr
        exact ⟨.refl .., by nofun, fun _ _ _ => rfl⟩
      · cases hr
        exact ⟨within_link .., fun _ _ => rfl, by nofun⟩
    · cases hr
      exact ⟨.refl .., by nofun, fun _ _ _ => rfl⟩
  | copy =>
    obtain ⟨hwithin, hown, hnone⟩ := written_cases hr
    exact ⟨hwithin, fun hok ha => absurd ha (hown hok), fun s reason he => absurd he (hnone s reason)⟩

theorem attemptAll_cases {capabilities : DeviceCapabilities}
    (preference : List MaterializationStrategy) :
    ∀ {lastError : Option StagingError} {disk : Disk} {r : Except StagingError StagedFile},
      l.attemptAll h item capabilities preference lastError disk = (r, disk') →
        Within [item.destination] disk disk' ∧
          ∀ file, r = .ok file → disk'.Aliases item.destination → file.strategy = .hardlink := by
  induction preference with
  | nil =>
    rintro lastError disk r hr
    cases hr
    exact ⟨.refl .., by nofun⟩
  | cons strategy rest ih =>
    intro lastError disk r hr
    simp only [attemptAll] at hr
    cases ha : l.attempt h item capabilities disk strategy with
    | mk r₁ disk₁ =>
      obtain ⟨hwithin, hlink, hsame⟩ := attempt_cases ha
      rw [ha] at hr
      cases r₁ with
      | ok =>
        simp only at hr
        split at hr
        · cases hr
          exact ⟨hwithin, by nofun⟩
        · cases hr
          refine ⟨hwithin, fun file hf haliases => ?_⟩
          cases hf
          exact hlink rfl haliases
      | error e =>
        cases e with
        | strategyUnavailable s reason =>
          obtain rfl := hsame s reason rfl
          exact ih hr
        | _ =>
          cases hr
          exact ⟨hwithin, by nofun⟩

theorem materializeNew_cases {preference : List MaterializationStrategy} {stagingDev : ℕ}
    {r : Except StagingError StagedFile}
    (hr : l.materializeNew h item preference stagingDev disk = (r, disk')) :
    Within [item.destination] disk disk' ∧
      ∀ file, r = .ok file → disk'.Aliases item.destination → file.strategy = .hardlink := by
  unfold materializeNew at hr
  split at hr
  · cases hr
    exact ⟨.refl .., by nofun⟩
  · split_ifs at hr
    · cases hr
      exact ⟨.refl .., by nofun⟩
    · split at hr
      · cases hr
        exact ⟨.refl .., by nofun⟩
      · exact attemptAll_cases _ hr

/-- A file that shares its inode is told of as a hardlink, if what was found is trusted. -/
theorem materializeOne_cases {preference : List MaterializationStrategy} {stagingDev : ℕ}
    {r : Except StagingError StagedFile}
    (hr : l.materializeOne h item preference stagingDev disk = (r, disk')) :
    Within [item.destination] disk disk' ∧ (disk.Trusts item →
      ∀ file, r = .ok file → disk'.Aliases item.destination → file.strategy = .hardlink) := by
  unfold materializeOne at hr
  split at hr
  · cases hr
    exact ⟨.refl .., by nofun⟩
  · split at hr
    · obtain ⟨hwithin, hlink⟩ := materializeNew_cases hr
      exact ⟨hwithin, fun _ => hlink⟩
    · rename_i found hfound
      split_ifs at hr with hsymlink hstaged
      · cases hr
        exact ⟨.refl .., by nofun⟩
      · cases hr
        refine ⟨.refl .., fun htrusts file hf haliases => ?_⟩
        cases hf
        exact htrusts found hfound hstaged.1 hstaged.2 haliases
      · split at hr
        · cases hr
          exact ⟨.refl .., by nofun⟩
        · obtain ⟨hwithin, hlink⟩ := materializeNew_cases hr
          exact ⟨(within_remove _).trans hwithin (List.Subset.refl _) (List.Subset.refl _),
            fun _ => hlink⟩

/-- The files of a plan are told of as a hardlink at least once if one of their destinations shares
    its inode. -/
theorem materializeAll_cases {preference : List MaterializationStrategy} {stagingDev : ℕ}
    (items : List PlanItem) : ∀ {disk disk' : Disk} {r : Except StagingError (List StagedFile)},
      l.materializeAll h preference stagingDev items disk = (r, disk') →
        Within (items.map PlanItem.destination) disk disk' ∧
          ((∀ item ∈ items, disk.Trusts item) → ∀ files, r = .ok files →
            (∃ file ∈ files, file.strategy = .hardlink) ∨
              ∀ item ∈ items, ¬disk'.Aliases item.destination) := by
  induction items with
  | nil =>
    rintro disk disk' r hr
    cases hr
    exact ⟨.refl .., fun _ _ _ => .inr (by nofun)⟩
  | cons item items ih =>
    intro disk disk' r hr
    simp only [materializeAll] at hr
    cases hone : l.materializeOne h item preference stagingDev disk with
    | mk r₁ disk₁ =>
      obtain ⟨hfirst, hlink⟩ := materializeOne_cases hone
      rw [hone] at hr
      cases r₁ with
      | error e =>
        cases hr
        exact ⟨hfirst.trans (.refl [] _) (by simp) (by simp), by nofun⟩
      | ok file =>
        simp only at hr
        cases hall : l.materializeAll h preference stagingDev items disk₁ with
        | mk r₂ disk₂ =>
          obtain ⟨hrest, hlinks⟩ := ih hall
          rw [hall] at hr
          cases r₂ with
          | error e =>
            cases hr
            exact ⟨hfirst.trans hrest (by simp) (by simp), by nofun⟩
          | ok files =>
            cases hr
            refine ⟨hfirst.trans hrest (by simp) (by simp), fun htrusts files' hf => ?_⟩
            cases hf
            by_cases hstrategy : file.strategy = .hardlink
            · exact .inl ⟨file, List.mem_cons_self .., hstrategy⟩
            have hfree : ¬disk₁.Aliases item.destination := fun ha =>
              hstrategy (hlink (htrusts item (List.mem_cons_self ..)) file rfl ha)
            -- an item for the same destination finds no hardlink there
            have htrusts' : ∀ other ∈ items, disk₁.Trusts other := by
              intro other ho
              by_cases hd : other.destination = item.destination
              · exact fun _ _ _ _ ha => absurd (hd ▸ ha) hfree
              · exact (htrusts other (List.mem_cons_of_mem _ ho)).within hfirst (by simpa using hd)
            rcases hlinks htrusts' files rfl with ⟨other, ho, hs⟩ | hnone
            · exact .inl ⟨other, List.mem_cons_of_mem _ ho, hs⟩
            · refine .inr fun other ho => ?_
              rcases List.mem_cons.1 ho with rfl | ho
              · by_cases hd : other.destination ∈ items.map PlanItem.destination
                · obtain ⟨same, hsame, he⟩ := List.mem_map.1 hd
                  exact he ▸ hnone same hsame
                · exact fun ha => hfree ((hrest.aliases hd).1 ha)
              · exact hnone other ho

/-- A materialization touches the destinations of its plan only, and is summarised as hardlinked if
    one of them shares its inode, where what it found is trusted. -/
theorem materialize_cases {plan : MaterializationPlan} {preference : List MaterializationStrategy}
    {r : Except StagingError StagedLayout} (hr : l.materialize h plan preference disk = (r, disk')) :
    Within (plan.items.map PlanItem.destination) disk disk' ∧
      ((∀ item ∈ plan.items, disk.Trusts item) → ∀ layout, r = .ok layout →
        ∀ item ∈ plan.items, disk'.Aliases item.destination →
          layout.summaryStrategy = some .hardlink) := by
  unfold materialize at hr
  split at hr
  · cases hr
    exact ⟨.refl .., by nofun⟩
  · split at hr
    · cases hr
      exact ⟨.refl .., by nofun⟩
    · rename_i stagingDev _ _ _
      cases hall : l.materializeAll h preference stagingDev plan.items disk with
      | mk r₁ disk₁ =>
        obtain ⟨hwithin, hlinks⟩ := materializeAll_cases _ hall
        rw [hall] at hr
        cases r₁ with
        | error e =>
          cases hr
          exact ⟨hwithin, by nofun⟩
        | ok files =>
          cases hr
          refine ⟨hwithin, fun htrusts layout hl item hitem ha => ?_⟩
          cases hl
          rcases hlinks htrusts files rfl with ⟨file, hf, hs⟩ | hnone
          · exact StagedLayout.summaryStrategy_hardlink hf hs
          · exact absurd ha (hnone item hitem)

end LocalStaging

end SeedMedic
