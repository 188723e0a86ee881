/-
  What the system makes of a staging call: the trees it can leave behind, with links
  planted anywhere and any call failing.
-/
import SeedMedic.Staging.Syscalls

namespace SeedMedic

open Lib FileTree

/-- A name as the system has it. -/
abbrev FileName := List UInt8

def fileName (component : String) : FileName := (PathBuf.ofString component).bytes

/-- The step of a component; none where it stays in place. -/
def pathStep : Component → Option (PathStep FileName)
  | .rootDir | .curDir => none
  | .parentDir => some .up
  | .normal name => some (.name name)

/-- Links that are followed for one path at most. -/
def maxLinks : ℕ := 40

/-- Where a process stands: its working directory, and the directory that the staging root, which
    is canonical, names. -/
structure Place where
  cwd : List FileName
  dir : List FileName

namespace Place

variable (at' : Place)

/-- The place names joined onto the staging root stand for. -/
def named (names : List String) : List FileName := at'.dir ++ names.map fileName

/-- Where a path leads, through a link in its last step or not. -/
def LeadsTo (follow : Bool) (fs : FileTree FileName) : FsPath → List FileName → Prop
  | .staged names, l => fs.Leads follow maxLinks at'.dir ((names.map fileName).map .name) l
  | .host path, l => fs.Leads follow maxLinks (if path.isAbsolute then [] else at'.cwd)
      (path.components.filterMap pathStep) l

/-- The file a path leads to. -/
def LeadsToFile (fs : FileTree FileName) (p : FsPath) (i : ℕ) : Prop :=
  ∃ l, at'.LeadsTo true fs p l ∧ fs.node l = some (.file i)

/-- A path leads to where a file can be made. -/
structure Free (follow : Bool) (fs : FileTree FileName) (p : FsPath) (d : List FileName)
    (n : FileName) : Prop where
  leads : at'.LeadsTo follow fs p (d ++ [n])
  dir : fs.node d = some .dir
  free : fs.node (d ++ [n]) = none

/-- Open for writing, made or emptied, and written to. -/
inductive Opened (fs : FileTree FileName) (p : FsPath) (bytes : List UInt8) :
    FileTree FileName → Prop
  | existing {i} (h : at'.LeadsToFile fs p i) : Opened fs p bytes (fs.rewrite i bytes)
  | created {d n} (h : at'.Free true fs p d n) :
      Opened fs p bytes (fs.create d n bytes h.dir h.free)

/-- A path leads to a pipe, a socket or a device. -/
def LeadsToSpecial (fs : FileTree FileName) (p : FsPath) : Prop :=
  ∃ l, at'.LeadsTo true fs p l ∧ fs.node l = some .special

end Place

/-- What is told of what lies at a place. -/
def Describes (fs : FileTree FileName) (l : List FileName) (m : Metadata) : Prop :=
  match fs.node l with
  | none => False
  | some .dir => m.fileType = .dir
  | some (.file i) => m.fileType = .file ∧ m.len = (fs.data i).bytes.length
  | some (.link ..) => m.fileType = .symlink
  | some .special => m.fileType = .other

/-- The clone of a file: a third party's code, which makes a new file or leaves none behind. -/
structure Reflink (at' : Place) where
  outcome : FileTree FileName → FsPath → FsPath → Except FsError Unit → FileTree FileName → Prop
  createsNew : ∀ {fs source destination r fs'}, outcome fs source destination r fs' → fs' = fs ∨
    ∃ d n bytes, ∃ h : at'.Free false fs destination d n, fs' = fs.create d n bytes h.dir h.free

namespace Place

variable (at' : Place)

/-- What a recursive removal can leave: some of what a directory holds, and nothing of it where it
    succeeds. A link in its last step is taken out itself. -/
def Removed (fs : FileTree FileName) (p : FsPath) (r : Except FsError Unit)
    (fs' : FileTree FileName) : Prop :=
  ∃ l gone hgone, at'.LeadsTo false fs p l ∧
    (fs.node l = some .dir ∨ ∃ a t, fs.node l = some (.link a t)) ∧
    (∀ l', gone l' = true → l <+: l') ∧ (r = .ok () → ∀ l', l <+: l' → gone l' = true) ∧
    fs' = fs.prune gone hgone

/-- A call on a tree, its answer and the tree afterwards. -/
def Serves (clone : Reflink at') :
    (c : FsCall) → c.Ans → FileTree FileName → FileTree FileName → Prop
  | .symlinkMetadata p, r, fs, fs' => fs' = fs ∧
    match r with
    | .ok m => ∃ l, at'.LeadsTo false fs p l ∧ Describes fs l m
    | .error e => e.kind = .notFound → ∀ l, at'.LeadsTo false fs p l → fs.node l = none
  | .metadata p, r, fs, fs' => fs' = fs ∧
    match r with
    | .ok m => ∃ l, at'.LeadsTo true fs p l ∧ Describes fs l m
    | .error _ => True
  | .statvfs _, _, fs, fs' => fs' = fs
  | .createDir p, .ok (), fs, fs' =>
    ∃ d n, ∃ h : at'.Free false fs p d n, fs' = fs.mkdir d n h.dir h.free
  | .createDir p, .error e, fs, fs' => fs' = fs ∧
    (e.kind = .alreadyExists → ∃ l, at'.LeadsTo false fs p l ∧ fs.node l ≠ none)
  | .removeFile p, .ok (), fs, fs' => ∃ l, ∃ hl : fs.node l ≠ some .dir,
    at'.LeadsTo false fs p l ∧ fs.node l ≠ none ∧ fs' = fs.unlink l hl
  | .removeFile _, .error _, fs, fs' => fs' = fs
  | .removeDirAll p, r, fs, fs' => (fs' = fs ∧ r ≠ .ok ()) ∨ at'.Removed fs p r fs'
  | .write p bytes, .ok (), fs, fs' =>
    at'.Opened fs p bytes fs' ∨ (at'.LeadsToSpecial fs p ∧ fs' = fs)
  | .write p _, .error _, fs, fs' => fs' = fs ∨ ∃ written, at'.Opened fs p written fs'
  -- what is copied onto itself is emptied first
  | .copy s p, .ok (), fs, fs' => ∃ i, at'.LeadsToFile fs s i ∧
    ((∃ bytes, (bytes = (fs.data i).bytes ∨ at'.LeadsToFile fs p i ∧ bytes = []) ∧
      at'.Opened fs p bytes fs') ∨ (at'.LeadsToSpecial fs p ∧ fs' = fs))
  | .copy s p, .error _, fs, fs' => fs' = fs ∨
    ((∃ i, at'.LeadsToFile fs s i) ∧ ∃ written, at'.Opened fs p written fs')
  -- a link in the last step is not followed, but gets the second name itself
  | .hardLink s p, .ok (), fs, fs' => ∃ l x d n, ∃ h : at'.Free false fs p d n, ∃ hx,
    at'.LeadsTo false fs s l ∧ fs.node l = some x ∧ x ≠ .dir ∧
      fs' = fs.insert d n x h.dir h.free hx
  | .hardLink .., .error _, fs, fs' => fs' = fs
  | .reflink s p, r, fs, fs' => clone.outcome fs s p r fs'

/-! ## Calls that make no link -/

variable {at'} {clone : Reflink at'} {fs fs' : FileTree FileName}

theorem Opened.grows {p : FsPath} {bytes : List UInt8} (h : at'.Opened fs p bytes fs') :
    Grows fs fs' := by
  cases h with
  | existing h => exact grows_rewrite
  | created h => exact grows_create

/-- A hard link can be a second name of a symbolic link; no other call makes one. -/
theorem Serves.grows {c : FsCall} {r : c.Ans} (h : at'.Serves clone c r fs fs')
    (hc : ∀ s p, c ≠ .hardLink s p) : Grows fs fs' := by
  cases c with
  | symlinkMetadata p | metadata p =>
    rw [h.1]
    exact Grows.refl fs
  | statvfs p =>
    obtain rfl : fs' = fs := h
    exact Grows.refl _
  | createDir p =>
    rcases r with e | ⟨⟩
    · rw [h.1]
      exact Grows.refl fs
    · obtain ⟨d, n, hfree, rfl⟩ := h
      exact grows_mkdir
  | removeFile p =>
    rcases r with e | ⟨⟩
    · obtain rfl : fs' = fs := h
      exact Grows.refl _
    · obtain ⟨l, hl, -, -, rfl⟩ := h
      exact grows_unlink
  | removeDirAll p =>
    rcases h with ⟨rfl, -⟩ | ⟨l, gone, hgone, -, -, -, -, rfl⟩
    · exact Grows.refl _
    · exact grows_prune
  | write p bytes =>
    rcases r with e | ⟨⟩
    · rcases h with rfl | ⟨written, h⟩
      · exact Grows.refl _
      · exact h.grows
    · rcases h with h | ⟨-, rfl⟩
      · exact h.grows
      · exact Grows.refl _
  | copy s p =>
    rcases r with e | ⟨⟩
    · rcases h with rfl | ⟨-, written, h⟩
      · exact Grows.refl _
      · exact h.grows
    · obtain ⟨i, -, ⟨bytes, -, h⟩ | ⟨-, rfl⟩⟩ := h
      · exact h.grows
      · exact Grows.refl _
  | hardLink s p => exact absurd rfl (hc s p)
  | reflink s p =>
    rcases clone.createsNew h with rfl | ⟨d, n, bytes, hfree, rfl⟩
    · exact Grows.refl _
    · exact grows_create

/-- No inode is given back. -/
theorem Serves.unused_le {c : FsCall} {r : c.Ans} (h : at'.Serves clone c r fs fs') :
    fs.unused ≤ fs'.unused := by
  by_cases hc : ∃ s p, c = .hardLink s p
  · obtain ⟨s, p, rfl⟩ := hc
    rcases r with e | ⟨⟩
    · obtain rfl : fs' = fs := h
      exact le_rfl
    · obtain ⟨l, x, d, n, hfree, hx, -, -, -, rfl⟩ := h
      exact le_rfl
  · exact (h.grows fun s p he => hc ⟨s, p, he⟩).unused

/-- A path leads to one place. -/
theorem LeadsTo.unique {follow : Bool} {p : FsPath} {l l' : List FileName}
    (h : at'.LeadsTo follow fs p l) (h' : at'.LeadsTo follow fs p l') : l = l' := by
  cases p with
  | staged names => exact Leads.unique h h'
  | host path => exact Leads.unique h h'

/-! ## Paths below the staging root -/

/-- None of the directories named one after another is a link. -/
def Plain (at' : Place) (fs : FileTree FileName) (names : List String) : Prop :=
  ∀ p, p ≠ [] → p <+: names → fs.NoLink (at'.named p)

theorem Plain.nil : at'.Plain fs [] := fun _ hp hpre => absurd (List.prefix_nil.1 hpre) hp

theorem Plain.grows {names : List String} (h : at'.Plain fs names) (hg : Grows fs fs') :
    at'.Plain fs' names := fun p hp hpre => hg.noLink (h p hp hpre)

theorem Plain.concat {names : List String} {n : String} (h : at'.Plain fs names)
    (hn : fs.NoLink (at'.named (names ++ [n]))) : at'.Plain fs (names ++ [n]) := by
  intro p hp hpre
  rcases List.prefix_concat_iff.1 hpre with rfl | hpre
  · exact hn
  · exact h p hp hpre

/-- Below directories that are none of them links a path stays where it says. -/
theorem LeadsTo.eq_named {follow : Bool} {names : List String} {n : String} {l : List FileName}
    (h : at'.LeadsTo follow fs (.staged (names ++ [n])) l) (hplain : at'.Plain fs names)
    (hlast : follow = true → fs.NoLink (at'.named (names ++ [n]))) :
    l = at'.named (names ++ [n]) := by
  refine Leads.eq_append h (fun p hp hpre hne => ?_) hlast
  have hp' : p = (names.take p.length).map fileName := by
    have htake := List.prefix_iff_eq_take.1 hpre
    rw [← List.map_take, List.take_append_of_le_length] at htake
    · exact htake
    · have hlength := hpre.length_le
      have hne' : p.length ≠ ((names ++ [n]).map fileName).length := fun he =>
        hne (hpre.eq_of_length he)
      simp only [List.length_map, List.length_append, List.length_singleton] at hlength hne'
      omega
  rw [hp']
  refine hplain _ (fun hnil => hp ?_) (List.take_prefix ..)
  rw [hp', hnil]
  rfl

/-- A place below the staging root. -/
theorem below_named (names : List String) (n : String) :
    Below at'.dir (at'.named (names ++ [n])) := below_append (by simp)

/-- What is named in no directory is nothing. -/
theorem node_named_of_ne_dir {names : List String} (h : fs.node (at'.named names) ≠ some .dir)
    (ns : List String) (hns : ns ≠ []) : fs.node (at'.named (names ++ ns)) = none := by
  induction ns using List.reverseRecOn with
  | nil => exact absurd rfl hns
  | append_singleton ns n ih =>
    have hnamed : at'.named (names ++ (ns ++ [n])) = at'.named (names ++ ns) ++ [fileName n] := by
      simp [named]
    rw [hnamed]
    refine node_eq_none ?_
    by_cases hnil : ns = []
    · subst hnil
      simpa using h
    · rw [ih hnil]
      nofun

/-- A path leads where it says unless a directory on the way is missing, and then there is nothing
    in that place. -/
theorem leadsTo_or_none (fs : FileTree FileName) (names : List String) (n : String) :
    at'.LeadsTo false fs (.staged (names ++ [n])) (at'.named (names ++ [n])) ∨
      fs.node (at'.named (names ++ [n])) = none := by
  have hmain : ∀ ns before, fs.Leads false maxLinks (at'.named before)
      (((ns ++ [n]).map fileName).map .name) (at'.named (before ++ (ns ++ [n]))) ∨
        fs.node (at'.named (before ++ (ns ++ [n]))) = none := by
    intro ns
    induction ns with
    | nil =>
      intro before
      left
      have hnamed : at'.named (before ++ ([] ++ [n])) = at'.named before ++ [fileName n] := by
        simp [named]
      rw [hnamed]
      exact .last nofun
    | cons m ns ih =>
      intro before
      have hcons : before ++ (m :: ns ++ [n]) = before ++ [m] ++ (ns ++ [n]) := by simp
      have hstep : at'.named (before ++ [m]) = at'.named before ++ [fileName m] := by simp [named]
      rw [hcons]
      by_cases hdir : fs.node (at'.named (before ++ [m])) = some .dir
      · refine (ih (before ++ [m])).imp (fun h => ?_) id
        rw [hstep] at hdir h
        exact .down hdir h
      · exact .inr (node_named_of_ne_dir hdir _ (by simp))
  have h := hmain names []
  have hroot : at'.named [] = at'.dir := by simp [named]
  rw [hroot] at h
  exact h

end Place

end SeedMedic
