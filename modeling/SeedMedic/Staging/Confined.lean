/-
  What staging changes of a tree in which links were planted: entries below its root.
-/
import SeedMedic.Lib.Hoare
import SeedMedic.Staging.Outcomes

namespace SeedMedic

open Lib FileTree Staging

/-- The tree as it is, and the paths whose entry could not be looked at, though it was not reported
    missing. -/
structure Watch where
  tree : FileTree FileName
  doubts : List FsPath

/-- The paths in doubt after a call. -/
def doubted (doubts : List FsPath) : (c : FsCall) → c.Ans → List FsPath
  | .symlinkMetadata p, .error e => if e.kind = .notFound then doubts else p :: doubts
  | _, _ => doubts

theorem subset_doubted (doubts : List FsPath) (c : FsCall) (r : c.Ans) :
    doubts ⊆ doubted doubts c r := by
  unfold doubted
  split
  · split_ifs
    · exact List.Subset.refl _
    · exact List.subset_cons_self _ _
  · exact List.Subset.refl _

namespace Place

variable (at' : Place) (clone : Reflink at') (P : ℕ → Prop)

/-- The files that are not to be written to: those with a name outside of the staging root, and the
    sources of a plan. -/
def Protected (fs : FileTree FileName) (plan : MaterializationPlan) (i : ℕ) : Prop :=
  (∃ l, ¬Below at'.dir l ∧ fs.node l = some (.file i)) ∨
    ∃ item ∈ plan.items, at'.LeadsToFile fs (.host item.source) i

/-- Whatever becomes of a call, only entries below the staging root are changed, and no protected
    file. -/
def confining : Rules FsCall FsCall.Ans Watch where
  may c w := ∀ r fs', at'.Serves clone c r w.tree fs' → Confined at'.dir P w.tree fs'
  next c r w w' := at'.Serves clone c r w.tree w'.tree ∧ w'.doubts = doubted w.doubts c r

/-- A path leads to no protected file, and to a file that can be made only below the staging
    root. -/
structure SafeTarget (fs : FileTree FileName) (p : FsPath) : Prop where
  file : ∀ i, at'.LeadsToFile fs p i → ¬P i
  free : ∀ d n, at'.Free true fs p d n → Below at'.dir (d ++ [n])

/-- What is written by path, and what is copied to where the entry could not be looked at, goes to a
    safe target. -/
def Careful : FsCall → Watch → Prop
  | .write p _, w => at'.SafeTarget P w.tree p
  | .copy s p, w => p ∈ w.doubts → (∃ i, at'.LeadsToFile w.tree s i) → at'.SafeTarget P w.tree p
  | _, _ => True

variable {at' clone P} {fs fs' : FileTree FileName}

theorem Protected.lt_unused {plan : MaterializationPlan} {i : ℕ} (h : at'.Protected fs plan i) :
    i < fs.unused := by
  rcases h with ⟨l, -, hi⟩ | ⟨item, -, l, -, hi⟩ <;> exact fs.used hi

/-- To open a safe target is confined. -/
theorem Opened.confined {p : FsPath} {bytes : List UInt8} (h : at'.Opened fs p bytes fs')
    (hp : at'.SafeTarget P fs p) (hP : ∀ i, P i → i < fs.unused) : Confined at'.dir P fs fs' := by
  cases h with
  | existing h => exact confined_rewrite_iff.2 (hp.file _ h)
  | created h => exact confined_create (hp.free _ _ h) hP

/-- A target is safe when whatever opening it does is confined. -/
theorem SafeTarget.of_opened {p : FsPath}
    (h : ∀ bytes fs', at'.Opened fs p bytes fs' → Confined at'.dir P fs fs') :
    at'.SafeTarget P fs p where
  file _ hi := confined_rewrite_iff.1 (h [] _ (.existing hi))
  free _ _ hfree := below_of_confined_create (h [] _ (.created hfree))

/-- Calls that are confined are careful. -/
theorem careful_of_confining (c : FsCall) (w : Watch) (h : (at'.confining clone P).may c w) :
    at'.Careful P c w := by
  let e : FsError := ⟨.other, ""⟩
  cases c with
  | write p bytes => exact .of_opened fun bs fs' hopen => h (.error e) fs' (.inr ⟨bs, hopen⟩)
  | copy s p =>
    exact fun _ hs => .of_opened fun bs fs' hopen => h (.error e) fs' (.inr ⟨hs, bs, hopen⟩)
  | _ => trivial

/-! ## Calls that are confined -/

/-- Calls that concern entries of the staging root and of directories above a destination. -/
def Tame (parents : List String) : FsCall → Prop
  | .symlinkMetadata _ | .metadata _ | .statvfs _ | .write .. => True
  | .createDir p | .removeFile p | .removeDirAll p | .reflink _ p =>
    ∃ names n, p = .staged (names ++ [n]) ∧ names <+: parents
  | .copy .. | .hardLink .. => False

/-- What such a call changes has the name that the path says. -/
theorem Tame.eq_named {parents names : List String} {n : String} {l : List FileName}
    (hplain : at'.Plain fs parents) (hnames : names <+: parents)
    (h : at'.LeadsTo false fs (.staged (names ++ [n])) l) : l = at'.named (names ++ [n]) :=
  h.eq_named (fun p hp hpre => hplain p hp (hpre.trans hnames)) nofun

theorem Tame.below {parents names : List String} {n : String} {l : List FileName}
    (hplain : at'.Plain fs parents) (hnames : names <+: parents)
    (h : at'.LeadsTo false fs (.staged (names ++ [n])) l) : Below at'.dir l :=
  Tame.eq_named hplain hnames h ▸ at'.below_named names n

/-- Where the directories above the destination are no links, a careful call of them is
    confined. -/
theorem Tame.confined {parents : List String} {c : FsCall} {r : c.Ans} {w : Watch}
    (hc : Tame parents c) (hplain : at'.Plain w.tree parents)
    (hP : ∀ i, P i → i < w.tree.unused) (hcareful : at'.Careful P c w)
    (h : at'.Serves clone c r w.tree fs') : Confined at'.dir P w.tree fs' := by
  cases c with
  | symlinkMetadata p | metadata p =>
    rw [h.1]
    exact Confined.refl w.tree
  | statvfs p =>
    obtain rfl : fs' = w.tree := h
    exact Confined.refl _
  | createDir p =>
    obtain ⟨names, n, rfl, hnames⟩ := hc
    rcases r with e | ⟨⟩
    · rw [h.1]
      exact Confined.refl w.tree
    · obtain ⟨d, m, hfree, rfl⟩ := h
      exact confined_insert (Tame.below hplain hnames hfree.leads)
  | removeFile p =>
    obtain ⟨names, n, rfl, hnames⟩ := hc
    rcases r with e | ⟨⟩
    · obtain rfl : fs' = w.tree := h
      exact Confined.refl _
    · obtain ⟨l, hl, hleads, -, rfl⟩ := h
      exact confined_unlink (Tame.below hplain hnames hleads)
  | removeDirAll p =>
    obtain ⟨names, n, rfl, hnames⟩ := hc
    rcases h with ⟨rfl, -⟩ | ⟨l, gone, hgone, hleads, -, hin, -, rfl⟩
    · exact Confined.refl _
    · exact confined_prune fun l' hl' => (Tame.below hplain hnames hleads).of_isPrefix (hin l' hl')
  | write p bytes =>
    have htarget : at'.SafeTarget P w.tree p := hcareful
    rcases r with e | ⟨⟩
    · rcases h with rfl | ⟨written, h⟩
      · exact Confined.refl _
      · exact h.confined htarget hP
    · rcases h with h | ⟨-, rfl⟩
      · exact h.confined htarget hP
      · exact Confined.refl _
  | copy s p | hardLink s p => exact hc.elim
  | reflink s p =>
    obtain ⟨names, n, rfl, hnames⟩ := hc
    rcases clone.createsNew h with rfl | ⟨d, m, bytes, hfree, rfl⟩
    · exact Confined.refl _
    · exact confined_create (Tame.below hplain hnames hfree.leads) hP

theorem Serves.confined_look {p : FsPath} {r : Except FsError Metadata}
    (h : at'.Serves clone (.symlinkMetadata p) r fs fs') : Confined at'.dir P fs fs' := by
  rw [h.1]
  exact Confined.refl fs

theorem Tame.ne_hardLink {parents : List String} {c : FsCall} (hc : Tame parents c) (s p : FsPath) :
    c ≠ .hardLink s p := by
  rintro rfl
  exact hc

/-- What holds of a run as long as no link is made. -/
structure Steady (at' : Place) (P : ℕ → Prop) (parents : List String) (I : Watch → Prop) :
    Prop where
  plain : ∀ {w}, I w → at'.Plain w.tree parents
  known : ∀ {w}, I w → ∀ i, P i → i < w.tree.unused
  grows : ∀ {w w' : Watch}, I w → Grows w.tree w'.tree → w.doubts ⊆ w'.doubts → I w'

/-- The rules for the runs that are careful. -/
abbrev Guarded (at' : Place) (clone : Reflink at') (P : ℕ → Prop) :
    Rules FsCall FsCall.Ans Watch := (at'.confining clone P).given (at'.Careful P)

variable {parents : List String} {I : Watch → Prop} {α : Type} {w w' : Watch}

theorem Steady.next {c : FsCall} {r : c.Ans} (hI : at'.Steady P parents I) (hw : I w)
    (hc : ∀ s p, c ≠ .hardLink s p) (h : (at'.Guarded clone P).next c r w w') : I w' :=
  hI.grows hw (h.2.1.grows hc) (h.2.2 ▸ subset_doubted w.doubts c r)

/-- A program of such calls. -/
theorem Steady.only {p : Sys α} (hI : at'.Steady P parents I) (hp : p.Only (Tame parents))
    (hw : I w) : p.Obeys (at'.Guarded clone P) w fun _ w' => I w' :=
  hp.obeys hw fun _ _ hc hw =>
    ⟨fun hcareful _ _ h => hc.confined (hI.plain hw) (hI.known hw) hcareful h,
      fun _ _ hn => hI.next hw hc.ne_hardLink hn⟩

/-- No protected file has an inode that was not allocated yet. -/
def Known (P : ℕ → Prop) (w : Watch) : Prop := ∀ i, P i → i < w.tree.unused

theorem steady_known : at'.Steady P [] (Known P) where
  plain _ := .nil
  known h := h
  grows h hg _ i hi := (h i hi).trans_le hg.unused

theorem Known.next {c : FsCall} {r : c.Ans} (hw : Known P w)
    (h : (at'.Guarded clone P).next c r w w') : Known P w' :=
  fun i hi => (hw i hi).trans_le h.2.1.unused_le

end Place

/-! ## Which calls the parts of the program make -/

namespace Staging

open Place

variable (l : LocalStaging) {parents : List String}

/-- A look at an entry. -/
def Looks : FsCall → Prop
  | .symlinkMetadata _ => True
  | _ => False

theorem Looks.tame {c : FsCall} (h : Looks c) : Tame parents c := by
  cases c with
  | symlinkMetadata p => trivial
  | _ => exact h.elim

theorem rejectIfSymlink_only (p : FsPath) : (rejectIfSymlink l p).Only Looks := by
  rw [rejectIfSymlink, Sys.ask_bind, Prog.only_call]
  refine ⟨trivial, fun r => ?_⟩
  rcases r with e | m <;> dsimp only <;> split_ifs <;> trivial

theorem rejectSymlinks_only (components : List String) : ∀ current,
    (rejectSymlinks l current components).Only Looks := by
  induction components with
  | nil => exact fun _ => trivial
  | cons component components ih =>
    intro current
    refine (rejectIfSymlink_only l _).bind fun r => ?_
    rcases r with e | ⟨⟩
    · trivial
    · exact ih _

theorem resolveUnder_only (path : SafeRelativePath) : (resolveUnder l path).Only Looks := by
  refine (rejectIfSymlink_only l _).bind fun r => ?_
  rcases r with e | ⟨⟩
  · trivial
  · refine (rejectSymlinks_only l _ _).bind fun r => ?_
    rcases r with e | ⟨⟩ <;> trivial

theorem createChecked_only {directory : FsPath}
    (hdirectory : ∃ names n, directory = .staged (names ++ [n]) ∧ names <+: parents) :
    (createChecked l directory).Only (Tame parents) := by
  have hlook : (rejectIfSymlink l directory).Only (Tame parents) :=
    (rejectIfSymlink_only l directory).mono fun _ => Looks.tame
  rw [createChecked, Sys.ask_bind, Prog.only_call]
  refine ⟨hdirectory, fun r => ?_⟩
  rcases r with e | ⟨⟩
  · dsimp only
    split_ifs
    · exact hlook
    · trivial
  · exact hlook

theorem createEach_only (components : List String) : ∀ current,
    current ++ components <+: parents → (createEach l current components).Only (Tame parents) := by
  induction components with
  | nil => exact fun _ _ => trivial
  | cons component components ih =>
    intro current hpre
    have hnew : ∃ names n, FsPath.staged (current ++ [component]) = .staged (names ++ [n]) ∧
        names <+: parents := ⟨current, component, rfl, (List.prefix_append _ _).trans hpre⟩
    refine (createChecked_only l hnew).bind fun r => ?_
    rcases r with e | ⟨⟩
    · trivial
    · exact ih _ (by simpa using hpre)

/-- A look, or a call of the reflink probe. -/
def ProbeCall : FsCall → Prop
  | .symlinkMetadata _ | .metadata _ | .statvfs _ => True
  | .write p bytes => p = probeSrc ∧ bytes = []
  | .removeFile p => p = probeSrc ∨ p = probeDst
  | .reflink s p => s = probeSrc ∧ p = probeDst
  | .createDir _ | .removeDirAll _ | .copy .. | .hardLink .. => False

theorem Looks.probeCall {c : FsCall} (h : Looks c) : ProbeCall c := by
  cases c with
  | symlinkMetadata p => trivial
  | _ => exact h.elim

/-- The probe concerns entries of the staging root itself. -/
theorem ProbeCall.tame {c : FsCall} (h : ProbeCall c) : Tame parents c := by
  have hroot : ∀ {p}, p = probeSrc ∨ p = probeDst →
      ∃ names n, p = .staged (names ++ [n]) ∧ names <+: parents := by
    rintro p (rfl | rfl) <;> exact ⟨[], _, rfl, List.nil_prefix⟩
  cases c with
  | symlinkMetadata p | metadata p | statvfs p | write p bytes => trivial
  | removeFile p => exact hroot h
  | reflink s p => exact hroot (.inr h.2)
  | _ => exact h.elim

theorem probeReflinkCapability_only : probeReflinkCapability.Only ProbeCall := by
  have hclone : cloneEmpty.Only ProbeCall := by
    refine ⟨⟨rfl, rfl⟩, fun r => ?_⟩
    rcases r with e | ⟨⟩
    · trivial
    · exact ⟨.inr rfl, fun _ => ⟨⟨rfl, rfl⟩, fun _ => trivial⟩⟩
  refine ⟨.inr rfl, fun _ => hclone.bind fun r => ?_⟩
  refine ⟨.inl rfl, fun _ => ⟨.inr rfl, fun _ => ?_⟩⟩
  rcases r with e | ⟨⟩ <;> trivial

theorem probeDevices_only (sourceDev stagingDev : ℕ) (probes : DeviceProbes) :
    (probeDevices sourceDev stagingDev probes).Only ProbeCall := by
  have hnew : (deviceCapabilities sourceDev stagingDev).Only ProbeCall := by
    unfold deviceCapabilities
    split_ifs
    · exact probeReflinkCapability_only.bind fun _ => trivial
    · trivial
  unfold probeDevices
  split
  · trivial
  · exact hnew.bind fun _ => trivial

theorem planReflinkProbe_only (items : List PlanItem) (preference : List MaterializationStrategy)
    (stagingDev : ℕ) (probes : DeviceProbes) :
    (planReflinkProbe items preference stagingDev probes).Only ProbeCall := by
  unfold planReflinkProbe
  split_ifs
  · cases items with
    | nil => trivial
    | cons item items =>
      refine ⟨trivial, fun r => ?_⟩
      rcases r with e | m
      · trivial
      · exact (probeDevices_only _ _ _).bind fun _ => trivial
  · trivial

theorem alreadyStaged_only (destination : FsPath) (expectedLength : ℕ) :
    (alreadyStaged destination expectedLength).Only Looks :=
  ⟨trivial, fun r => by rcases r with e | m <;> trivial⟩

theorem requiredNewBytes_only (preference : List MaterializationStrategy) (stagingDev : ℕ)
    (items : List PlanItem) : ∀ total probes,
    (requiredNewBytes l preference stagingDev items total probes).Only ProbeCall := by
  induction items with
  | nil => exact fun _ _ => trivial
  | cons item items ih =>
    intro total probes
    refine ((resolveUnder_only l _).mono fun _ => Looks.probeCall).bind fun r => ?_
    rcases r with e | destination
    · trivial
    · refine ((alreadyStaged_only _ _).mono fun _ => Looks.probeCall).bind fun staged => ?_
      split_ifs
      · exact ih _ _
      · refine ⟨trivial, fun r => ?_⟩
        rcases r with e | m
        · exact ih _ _
        · exact ((probeDevices_only _ _ _).bind fun _ => Prog.only_ret.2 trivial).bind fun _ => ih _ _

theorem checkSpace_only (needed : ℕ) : (checkSpace l needed).Only ProbeCall := by
  have havailable : (availableBytes l).Only ProbeCall := by
    unfold availableBytes
    split_ifs
    · trivial
    · refine ⟨trivial, fun r => ?_⟩
      rcases r with e | n <;> trivial
  unfold checkSpace
  split_ifs
  · refine havailable.bind fun r => ?_
    rcases r with e | n
    · trivial
    · dsimp only
      split_ifs <;> trivial
  · trivial

theorem verifyStagedSize_only (destination : FsPath) (expected : ℕ) :
    (verifyStagedSize l destination expected).Only ProbeCall := by
  rw [verifyStagedSize, Sys.ask_bind, Prog.only_call]
  refine ⟨trivial, fun r => ?_⟩
  rcases r with e | m
  · trivial
  · dsimp only
    split_ifs <;> trivial

theorem deviceId_only : (deviceId l).Only ProbeCall := by
  refine ⟨trivial, fun r => ?_⟩
  rcases r with e | m <;> trivial

/-! ## Materialization -/

variable {l} {at' : Place} {clone : Reflink at'} {P : ℕ → Prop} {w : Watch}

/-- A program that only looks and probes. -/
theorem steady_probe {parents : List String} {I : Watch → Prop} {α : Type} {p : Sys α}
    (hI : at'.Steady P parents I) (hp : p.Only ProbeCall) (hw : I w) :
    p.Obeys (at'.Guarded clone P) w fun _ w' => I w' :=
  hI.only (hp.mono fun _ => ProbeCall.tame) hw

/-- A destination, as directories and a name. -/
theorem joined_eq (path : SafeRelativePath) :
    ∃ n, joined path = .staged (path.parentComponents ++ [n]) := by
  obtain ⟨hne, -, -⟩ := path.parts_spec
  refine ⟨(splitParts path.str).getLast hne, ?_⟩
  rw [SafeRelativePath.parentComponents, List.dropLast_append_getLast hne]
  rfl

/-- What a look at a directory below directories that are no links shows, when it is not
    refused. -/
theorem rejectIfSymlink_obeys {names : List String} {n : String} {tree : FileTree FileName}
    (hw : w.tree = tree) (hplain : at'.Plain tree names) :
    (rejectIfSymlink l (.staged (names ++ [n]))).Obeys (at'.Guarded clone P) w fun r w' =>
      w'.tree = tree ∧ w.doubts ⊆ w'.doubts ∧ (r = .ok () → tree.NoLink (at'.named (names ++ [n]))) := by
  subst hw
  rw [rejectIfSymlink, Sys.ask_bind, Prog.obeys_call]
  refine ⟨fun _ r fs' h => h.confined_look, fun r w' hn => ?_⟩
  obtain ⟨-, ⟨htree, hr⟩, hdoubts⟩ := hn
  have hsub : w.doubts ⊆ w'.doubts := hdoubts ▸ subset_doubted ..
  rcases r with e | m
  · dsimp only at hr ⊢
    split_ifs with hkind
    · refine ⟨htree, hsub, fun _ a t hnode => ?_⟩
      -- a path that leads there would have been reported missing
      rcases at'.leadsTo_or_none w.tree names n with hleads | hnone
      · rw [hr hkind _ hleads] at hnode
        cases hnode
      · rw [hnone] at hnode
        cases hnode
    · exact ⟨htree, hsub, nofun⟩
  · dsimp only at hr ⊢
    split_ifs with hlink
    · exact ⟨htree, hsub, nofun⟩
    · refine ⟨htree, hsub, fun _ a t hnode => ?_⟩
      obtain ⟨place, hleads, hm⟩ := hr
      rw [hleads.eq_named hplain nofun, Describes, hnode] at hm
      exact hlink hm

theorem rejectSymlinks_obeys {tree : FileTree FileName} (components : List String) :
    ∀ {current w}, w.tree = tree → at'.Plain tree current →
      (rejectSymlinks l current components).Obeys (at'.Guarded clone P) w fun r w' =>
        w'.tree = tree ∧ w.doubts ⊆ w'.doubts ∧ (r = .ok () → at'.Plain tree (current ++ components)) := by
  induction components with
  | nil =>
    intro current w hw hplain
    exact ⟨hw, List.Subset.refl _, fun _ => (List.append_nil current).symm ▸ hplain⟩
  | cons component components ih =>
    intro current w hw hplain
    refine (rejectIfSymlink_obeys hw hplain).bind fun r w₁ h₁ => ?_
    obtain ⟨hw₁, hsub₁, hr⟩ := h₁
    rcases r with e | ⟨⟩
    · exact ⟨hw₁, hsub₁, nofun⟩
    · refine (ih hw₁ (hplain.concat (hr rfl))).mono fun r w₂ h₂ => ?_
      refine ⟨h₂.1, List.Subset.trans hsub₁ h₂.2.1, fun hok => ?_⟩
      simpa using h₂.2.2 hok

/-- Where a path is resolved, the directories above it are no links. -/
theorem resolveUnder_obeys (path : SafeRelativePath) :
    (resolveUnder l path).Obeys (at'.Guarded clone P) w fun r w' => w'.tree = w.tree ∧
      ∀ p, r = .ok p → p = joined path ∧ at'.Plain w.tree path.parentComponents := by
  have hroot : (rejectIfSymlink l (.host l.root)).Obeys (at'.Guarded clone P) w
      fun _ w' => w'.tree = w.tree := by
    rw [rejectIfSymlink, Sys.ask_bind, Prog.obeys_call]
    refine ⟨fun _ r fs' h => h.confined_look, fun r w' hn => ?_⟩
    rcases r with e | m <;> dsimp only <;> split_ifs <;> exact hn.2.1.1
  refine hroot.bind fun r w₁ h₁ => ?_
  rcases r with e | ⟨⟩
  · exact ⟨h₁, nofun⟩
  · refine (rejectSymlinks_obeys _ h₁ Plain.nil).bind fun r w₂ h₂ => ?_
    rcases r with e | ⟨⟩
    · exact ⟨h₂.1, nofun⟩
    · refine ⟨h₂.1, fun p hp => ?_⟩
      cases hp
      exact ⟨rfl, h₂.2.2 rfl⟩

/-- What is known of a destination from when it was looked at: neither a link nor a protected file
    stands there, or it is in doubt. -/
structure Ready (at' : Place) (P : ℕ → Prop) (path : SafeRelativePath) (w : Watch) : Prop where
  plain : at'.Plain w.tree path.parentComponents
  known : Known P w
  target : (w.tree.NoLink (at'.named (splitParts path.str)) ∧
    ∀ i, w.tree.node (at'.named (splitParts path.str)) = some (.file i) → ¬P i) ∨
      joined path ∈ w.doubts

theorem steady_ready (path : SafeRelativePath) :
    at'.Steady P path.parentComponents (Ready at' P path) where
  plain h := h.plain
  known h := h.known
  grows h hg hsub := by
    refine ⟨h.plain.grows hg, fun i hi => (h.known i hi).trans_le hg.unused, ?_⟩
    refine h.target.imp (fun htarget => ⟨hg.noLink htarget.1, fun i hi hPi => ?_⟩) fun h => hsub h
    rcases hg.node _ _ hi with hold | hdir | ⟨j, hj, hnew⟩
    · exact htarget.2 i hold hPi
    · cases hdir
    · cases hj
      exact absurd (h.known i hPi) hnew.not_gt

/-- The directories above a destination and a name. -/
theorem parts_eq {path : SafeRelativePath} {n : String}
    (h : joined path = .staged (path.parentComponents ++ [n])) :
    splitParts path.str = path.parentComponents ++ [n] := FsPath.staged.inj h

/-- A destination that is ready and not in doubt is a safe target. -/
theorem Ready.safeTarget {path : SafeRelativePath} (h : Ready at' P path w)
    (hdoubt : joined path ∉ w.doubts) : at'.SafeTarget P w.tree (joined path) := by
  obtain ⟨n, hjoined⟩ := joined_eq path
  obtain ⟨hlink, hfile⟩ := h.target.resolve_right hdoubt
  rw [parts_eq hjoined] at hlink hfile
  rw [hjoined]
  refine ⟨fun i hi => ?_, fun d m hfree => ?_⟩
  · obtain ⟨place, hleads, hnode⟩ := hi
    rw [hleads.eq_named h.plain fun _ => hlink] at hnode
    exact hfile i hnode
  · rw [hfree.leads.eq_named h.plain fun _ => hlink]
    exact at'.below_named _ _

theorem Ready.known_next {path : SafeRelativePath} {c : FsCall} {r : c.Ans} {w' : Watch}
    (h : Ready at' P path w) (hn : (at'.Guarded clone P).next c r w w') : Known P w' :=
  Known.next h.known hn

/-- One strategy at a destination that is ready; a strategy that is not available changes
    nothing. -/
theorem attempt_obeys {path : SafeRelativePath} (strategy : MaterializationStrategy)
    (source : FsPath) (capabilities : DeviceCapabilities) (hw : Ready at' P path w) :
    (attempt l strategy source (joined path) capabilities).Obeys (at'.Guarded clone P) w
      fun r w' => Known P w' ∧
        ∀ s reason, r = .error (.strategyUnavailable s reason) → Ready at' P path w' := by
  obtain ⟨n, hjoined⟩ := joined_eq path
  cases strategy with
  | reflink =>
    rcases hcan : capabilities.reflink with _ | reason
    · have htame : Tame path.parentComponents (.reflink source (joined path)) :=
        ⟨_, n, hjoined, List.prefix_rfl⟩
      simp only [attempt, hcan, Sys.ask_bind]
      refine ⟨fun hcareful r fs' h => htame.confined hw.plain hw.known hcareful h, ?_⟩
      intro r w' hn
      rcases r with e | ⟨⟩ <;> exact ⟨hw.known_next hn, nofun⟩
    · simp only [attempt, hcan]
      exact ⟨hw.known, fun _ _ _ => hw⟩
  | hardlink =>
    by_cases hcan : capabilities.canHardlink = true
    · simp only [attempt, hcan, if_true, Sys.ask_bind]
      refine ⟨fun _ r fs' h => ?_, fun r w' hn => ?_⟩
      · rcases r with e | ⟨⟩
        · obtain rfl : fs' = w.tree := h
          exact Confined.refl _
        · obtain ⟨place, x, d, m, hfree, hx, -, -, -, rfl⟩ := h
          have hleads := hfree.leads
          rw [hjoined] at hleads
          exact confined_insert (Tame.below hw.plain List.prefix_rfl hleads)
      · rcases r with e | ⟨⟩
        · refine ⟨hw.known_next hn, fun _ _ _ => ?_⟩
          obtain ⟨-, htree, hdoubts⟩ := hn
          have htree' : w'.tree = w.tree := htree
          exact (steady_ready path).grows hw (htree' ▸ Grows.refl _) (hdoubts ▸ subset_doubted ..)
        · exact ⟨hw.known_next hn, nofun⟩
    · simp only [attempt, hcan]
      exact ⟨hw.known, fun _ _ _ => hw⟩
  | copy =>
    simp only [attempt, Sys.ask_bind]
    refine ⟨fun hcareful r fs' h => ?_, fun r w' hn => ?_⟩
    · -- either the path is in doubt, and the run is careful, or it was found to be safe
      have hsafe : (∃ i, at'.LeadsToFile w.tree source i) →
          at'.SafeTarget P w.tree (joined path) := fun hs => by
        by_cases hdoubt : joined path ∈ w.doubts
        · exact hcareful hdoubt hs
        · exact hw.safeTarget hdoubt
      rcases r with e | ⟨⟩
      · rcases h with rfl | ⟨hs, written, hopen⟩
        · exact Confined.refl _
        · exact hopen.confined (hsafe hs) hw.known
      · obtain ⟨i, hs, ⟨bytes, -, hopen⟩ | ⟨-, rfl⟩⟩ := h
        · exact hopen.confined (hsafe ⟨i, hs⟩) hw.known
        · exact Confined.refl _
    · rcases r with e | ⟨⟩ <;> exact ⟨hw.known_next hn, nofun⟩

theorem attemptAll_obeys {item : PlanItem} (capabilities : DeviceCapabilities)
    (preference : List MaterializationStrategy) : ∀ {lastError w},
    Ready at' P item.destination w →
      (attemptAll l item (joined item.destination) capabilities preference lastError).Obeys
        (at'.Guarded clone P) w fun _ w' => Known P w' := by
  induction preference with
  | nil => exact fun hw => hw.known
  | cons strategy rest ih =>
    intro lastError w hw
    refine (attempt_obeys strategy _ capabilities hw).bind fun r w₁ h₁ => ?_
    rcases r with e | ⟨⟩
    · cases e with
      | strategyUnavailable s reason => exact ih (h₁.2 s reason rfl)
      | _ => exact h₁.1
    · refine (steady_probe steady_known (verifyStagedSize_only l _ _) h₁.1).bind fun r w₂ h₂ => ?_
      rcases r with e | ⟨⟩ <;> exact h₂

theorem materializeNew_obeys {item : PlanItem} (preference : List MaterializationStrategy)
    (stagingDev : ℕ) (probes : DeviceProbes) (hw : Ready at' P item.destination w) :
    (materializeNew l item (joined item.destination) preference stagingDev probes).Obeys
      (at'.Guarded clone P) w fun _ w' => Known P w' := by
  have hsteady : at'.Steady P _ (Ready at' P item.destination) := steady_ready item.destination
  rw [materializeNew, Sys.ask_bind, Prog.obeys_call]
  refine ⟨fun _ r fs' h => h.confined_look, fun r w₁ hn => ?_⟩
  have h₁ : Ready at' P item.destination w₁ := hsteady.next hw (fun _ _ => FsCall.noConfusion) hn
  rcases r with e | source
  · exact h₁.known
  · dsimp only
    split_ifs
    · exact h₁.known
    · refine (hsteady.only (createEach_only l _ [] List.prefix_rfl) h₁).bind fun r w₂ h₂ => ?_
      rcases r with e | ⟨⟩
      · exact h₂.known
      · refine (steady_probe hsteady (probeDevices_only _ _ _) h₂).bind fun r w₃ h₃ => ?_
        exact (attemptAll_obeys r.1 preference h₃).bind fun _ _ h => h

theorem materializeOne_obeys (item : PlanItem) (preference : List MaterializationStrategy)
    (stagingDev : ℕ) (probes : DeviceProbes) (hw : Known P w) :
    (materializeOne l item preference stagingDev probes).Obeys (at'.Guarded clone P) w
      fun _ w' => Known P w' := by
  obtain ⟨n, hjoined⟩ := joined_eq item.destination
  have hparts := parts_eq hjoined
  refine (resolveUnder_obeys item.destination).bind fun r w₁ h₁ => ?_
  have hknown : Known P w₁ := fun i hi => by
    rw [h₁.1]
    exact hw i hi
  rcases r with e | destination
  · exact hknown
  obtain ⟨rfl, hplain⟩ := h₁.2 destination rfl
  rw [← h₁.1] at hplain
  dsimp only
  rw [Sys.ask_bind, Prog.obeys_call]
  refine ⟨fun _ r fs' h => h.confined_look, fun r w₂ hn => ?_⟩
  obtain ⟨-, ⟨htree, hr⟩, hdoubts⟩ := hn
  have hknown₂ : Known P w₂ := fun i hi => by
    rw [htree]
    exact hknown i hi
  have hplain₂ : at'.Plain w₂.tree item.destination.parentComponents := htree ▸ hplain
  rcases r with e | m
  · -- nothing stands there, or it is in doubt
    refine materializeNew_obeys preference stagingDev probes ⟨hplain₂, hknown₂, ?_⟩
    by_cases hkind : e.kind = .notFound
    · left
      have hnone : w₂.tree.node (at'.named (splitParts item.destination.str)) = none := by
        rw [htree, hparts]
        refine (at'.leadsTo_or_none w₁.tree _ n).elim (fun hleads => ?_) id
        rw [← hjoined] at hleads
        exact hr hkind _ hleads
      refine ⟨fun a t hnode => ?_, fun i hnode => ?_⟩ <;> rw [hnone] at hnode <;> cases hnode
    · right
      rw [hdoubts, doubted, if_neg hkind]
      exact List.mem_cons_self ..
  · dsimp only
    split_ifs
    · exact hknown₂
    · exact hknown₂
    · have htame : Tame item.destination.parentComponents
          (.removeFile (joined item.destination)) := ⟨_, n, hjoined, List.prefix_rfl⟩
      rw [Sys.ask_bind, Prog.obeys_call]
      refine ⟨fun hcareful r fs' h => htame.confined hplain₂ hknown₂ hcareful h, fun r w₃ hn => ?_⟩
      have hknown₃ : Known P w₃ := Known.next hknown₂ hn
      rcases r with e | ⟨⟩
      · exact hknown₃
      · -- the leftover is gone
        have hgrows : Grows w₂.tree w₃.tree := hn.2.1.grows fun _ _ => FsCall.noConfusion
        refine materializeNew_obeys preference stagingDev probes ⟨hplain₂.grows hgrows, hknown₃, .inl ?_⟩
        obtain ⟨place, hplace, hleads, -, hunlink⟩ := hn.2.1
        rw [hjoined] at hleads
        have hnone : w₃.tree.node (at'.named (splitParts item.destination.str)) = none := by
          rw [hparts, ← hleads.eq_named hplain₂ nofun, hunlink]
          exact unlink_self
        refine ⟨fun a t hnode => ?_, fun i hnode => ?_⟩ <;> rw [hnone] at hnode <;> cases hnode

theorem materializeAll_obeys (preference : List MaterializationStrategy) (stagingDev : ℕ)
    (items : List PlanItem) : ∀ {probes w}, Known P w →
    (materializeAll l preference stagingDev items probes).Obeys (at'.Guarded clone P) w
      fun _ w' => Known P w' := by
  induction items with
  | nil => exact fun hw => hw
  | cons item items ih =>
    intro probes w hw
    refine (materializeOne_obeys item preference stagingDev probes hw).bind fun r w₁ h₁ => ?_
    obtain ⟨staged, probes₁⟩ := r
    rcases staged with e | file
    · exact h₁
    · exact (ih h₁).bind fun _ _ h => h

/-- Every call of a careful run is confined. -/
theorem materialize_obeys (plan : MaterializationPlan) (preference : List MaterializationStrategy)
    (probes : DeviceProbes) (hw : Known P w) :
    (materialize l plan preference probes).Obeys (at'.Guarded clone P) w
      fun _ w' => Known P w' := by
  have hsteady : at'.Steady P [] (Known P) := steady_known
  refine (steady_probe hsteady (deviceId_only l) hw).bind fun r w₁ h₁ => ?_
  rcases r with e | stagingDev
  · exact h₁
  refine (steady_probe hsteady (planReflinkProbe_only _ _ _ _) h₁).bind fun r w₂ h₂ => ?_
  refine (steady_probe hsteady (requiredNewBytes_only l _ _ _ _ _) h₂).bind fun r w₃ h₃ => ?_
  obtain ⟨needed, probes₃⟩ := r
  rcases needed with e | needed
  · exact h₃
  refine (steady_probe hsteady (checkSpace_only l needed) h₃).bind fun r w₄ h₄ => ?_
  rcases r with e | ⟨⟩
  · exact h₄
  · exact (materializeAll_obeys preference stagingDev plan.items h₄).bind fun _ _ h => h

/-- To discard a job's directory is confined. -/
theorem discard_obeys (jobDir : SafeRelativePath) (hw : Known P w) :
    (discard l jobDir).Obeys (at'.Guarded clone P) w fun _ w' => Known P w' := by
  obtain ⟨n, hjoined⟩ := joined_eq jobDir
  refine (resolveUnder_obeys jobDir).bind fun r w₁ h₁ => ?_
  have hknown : Known P w₁ := fun i hi => by
    rw [h₁.1]
    exact hw i hi
  rcases r with e | directory
  · exact hknown
  obtain ⟨rfl, hplain⟩ := h₁.2 directory rfl
  rw [← h₁.1] at hplain
  have htame : Tame jobDir.parentComponents (.removeDirAll (joined jobDir)) :=
    ⟨_, n, hjoined, List.prefix_rfl⟩
  dsimp only
  split_ifs
  · exact hknown
  · rw [Sys.ask_bind, Prog.obeys_call]
    refine ⟨fun hcareful r fs' h => htame.confined hplain hknown hcareful h, fun r w₂ hn => ?_⟩
    have hknown₂ : Known P w₂ := Known.next hknown hn
    rcases r with e | ⟨⟩
    · dsimp only
      split_ifs <;> exact hknown₂
    · exact hknown₂

/-- No part of a discard opens a file. -/
theorem discard_careful (jobDir : SafeRelativePath) :
    (discard l jobDir).Only fun c => ∀ w, at'.Careful P c w := by
  refine ((resolveUnder_only l jobDir).mono fun c hc w => ?_).bind fun r => ?_
  · cases c with
    | symlinkMetadata p => trivial
    | _ => exact hc.elim
  rcases r with e | directory
  · trivial
  dsimp only
  split_ifs
  · trivial
  · rw [Sys.ask_bind, Prog.only_call]
    refine ⟨fun _ => trivial, fun r => ?_⟩
    rcases r with e | ⟨⟩
    · dsimp only
      split_ifs <;> trivial
    · trivial

end Staging

namespace Place

variable {at' : Place} {clone : Reflink at'} {P : ℕ → Prop} {fs : FileTree FileName} {α : Type}
  {p : Sys α} {Q : α → Watch → Prop}

/-- A run of confined calls changes no more than they do. -/
theorem obeys_confined (h : p.Obeys (at'.confining clone P) ⟨fs, []⟩ Q) :
    p.Obeys (at'.confining clone P) ⟨fs, []⟩ fun _ w => Confined at'.dir P fs w.tree :=
  (h.invariant (Confined.refl fs) fun _ r _ w' hmay hnext hw =>
    hw.trans (hmay r w'.tree hnext.1)).mono fun _ _ hw => hw.2

theorem guarded_confined (h : p.Obeys (at'.Guarded clone P) ⟨fs, []⟩ Q) :
    p.Obeys (at'.Guarded clone P) ⟨fs, []⟩ fun _ w => Confined at'.dir P fs w.tree :=
  (h.invariant (Confined.refl fs) fun _ r _ w' hmay hnext hw =>
    hw.trans (hmay hnext.1 r w'.tree hnext.2.1)).mono fun _ _ hw => hw.2

end Place

open Place in
/-- In a tree with links in any place, whatever calls fail: a materialization changes only entries
    below the staging root, and neither a source of its plan nor any file that has a name outside,
    as long as what it opens for writing by the path of a probe, or to copy to where it could not
    look, is a safe target; it does in every run exactly when that is so in every run. A discard
    always does. -/
theorem materialize_discard_confined (l : LocalStaging) (at' : Place) (clone : Reflink at')
    (fs : FileTree FileName) (plan : MaterializationPlan)
    (preference : List MaterializationStrategy) (probes : DeviceProbes) :
    (materialize l plan preference probes).Obeys
      ((at'.confining clone (at'.Protected fs plan)).given (at'.Careful (at'.Protected fs plan)))
      ⟨fs, []⟩ (fun _ w => Confined at'.dir (at'.Protected fs plan) fs w.tree) ∧
    ((materialize l plan preference probes).Obeys (at'.confining clone (at'.Protected fs plan))
        ⟨fs, []⟩ (fun _ w => Confined at'.dir (at'.Protected fs plan) fs w.tree) ↔
      (materialize l plan preference probes).Obeys
        ⟨at'.Careful (at'.Protected fs plan), (at'.confining clone (at'.Protected fs plan)).next⟩
        ⟨fs, []⟩ fun _ _ => True) ∧
    ∀ jobDir, (discard l jobDir).Obeys (at'.confining clone (at'.Protected fs plan)) ⟨fs, []⟩
      fun _ w => Confined at'.dir (at'.Protected fs plan) fs w.tree := by
  have hknown : Known (at'.Protected fs plan) ⟨fs, []⟩ := fun _ hi => hi.lt_unused
  have hrun : (materialize l plan preference probes).Obeys
      (at'.Guarded clone (at'.Protected fs plan)) ⟨fs, []⟩ _ :=
    materialize_obeys plan preference probes hknown
  refine ⟨guarded_confined hrun, ⟨fun h => ?_, fun h => ?_⟩, fun jobDir => ?_⟩
  · exact (h.permits careful_of_confining).mono fun _ _ _ => trivial
  · exact obeys_confined (hrun.of_given h)
  · have hcareful : (discard l jobDir).Obeys
        ⟨at'.Careful (at'.Protected fs plan), (at'.confining clone (at'.Protected fs plan)).next⟩
        ⟨fs, []⟩ fun _ _ => True :=
      (discard_careful jobDir).obeys trivial fun c w hc _ => ⟨hc w, fun _ _ _ => trivial⟩
    exact obeys_confined ((discard_obeys jobDir hknown).of_given hcareful)

/-- Nothing lies below the root of a tree that has nothing else. -/
theorem bare_rooted {d : List FileName} {n : FileName} :
    (if d ++ [n] = [] then some (Node.dir (ν := FileName)) else none) ≠ none →
      (if d = [] then some (Node.dir (ν := FileName)) else none) = some .dir := by
  simp

/-- A library of one file beside a staging root. -/
def stagingBesideLibrary : FileTree FileName :=
  let bare : FileTree FileName :=
    { node := fun l => if l = [] then some .dir else none
      data := fun _ => ⟨[1], 0⟩
      unused := 1
      used := fun h => by split_ifs at h; cases h
      rooted := bare_rooted }
  ((bare.mkdir [] (fileName "staging") rfl rfl).mkdir [] (fileName "library") rfl rfl).insert
    [fileName "library"] (fileName "e01.mkv") (.file 0) rfl rfl fun _ h => by
      cases h
      exact Nat.zero_lt_one

theorem staging_is_dir : stagingBesideLibrary.node [fileName "staging"] = some .dir := rfl

theorem scratch_free : stagingBesideLibrary.node
    ([fileName "staging"] ++ [fileName ".seedmedic-reflink-probe-src"]) = none := rfl

theorem libraryLink_no_file (i : ℕ) :
    Node.link true [.name (fileName "library"), .name (fileName "e01.mkv")] = .file i →
      i < stagingBesideLibrary.unused := nofun

/-- The same with a link to the file where the probe writes. -/
def plantedTree : FileTree FileName :=
  stagingBesideLibrary.insert [fileName "staging"] (fileName ".seedmedic-reflink-probe-src")
    (.link true [.name (fileName "library"), .name (fileName "e01.mkv")]) staging_is_dir
    scratch_free libraryLink_no_file

def besideLibrary : Place := ⟨[], [fileName "staging"]⟩

/-- Clones on a filesystem that has none. -/
def unsupportedReflink : Reflink besideLibrary where
  outcome fs _ _ r fs' := fs' = fs ∧ r ≠ .ok ()
  createsNew h := .inl h.1

def onePlan : MaterializationPlan :=
  ⟨[⟨.ofString "/library/e01.mkv", .ofComponent "e01.mkv" rfl, 1, none⟩]⟩

def besideStaging : LocalStaging := ⟨.ofString "/staging", 0⟩

/-- The file in the library. -/
def libraryEpisode : List FileName := [fileName "library", fileName "e01.mkv"]

theorem node_libraryEpisode : plantedTree.node libraryEpisode = some (.file 0) := rfl

theorem leads_libraryEpisode {follow : Bool} {k : ℕ} : plantedTree.Leads follow k []
    [.name (fileName "library"), .name (fileName "e01.mkv")] libraryEpisode :=
  .down rfl (.last fun _ _ _ h => nomatch Option.some.inj (node_libraryEpisode.symm.trans h))

/-- A link in the place of the probe's source has the probe empty a library file. -/
theorem planted_probe_escapes : ¬(materialize besideStaging onePlan [.reflink] fun _ => none).Obeys
    (besideLibrary.confining unsupportedReflink (besideLibrary.Protected plantedTree onePlan))
    ⟨plantedTree, []⟩ fun _ w =>
      Confined besideLibrary.dir (besideLibrary.Protected plantedTree onePlan) plantedTree w.tree := by
  intro h
  have hprotected : besideLibrary.Protected plantedTree onePlan 0 :=
    .inl ⟨libraryEpisode, fun hb => absurd hb.1 (by decide), rfl⟩
  -- the root and the library lie on one device, and nothing was probed before
  have hroot := h.2 (.ok ⟨.dir, 0, 7⟩) ⟨plantedTree, []⟩
    ⟨⟨rfl, [fileName "staging"], .down rfl .here, rfl⟩, rfl⟩
  have hsource := hroot.2 (.ok ⟨.file, 1, 7⟩) ⟨plantedTree, []⟩
    ⟨⟨rfl, libraryEpisode, leads_libraryEpisode, rfl, rfl⟩, rfl⟩
  have hclear := hsource.2 (.error ⟨.notFound, "No such file or directory (os error 2)"⟩)
    ⟨plantedTree, []⟩ ⟨rfl, rfl⟩
  have hwrite := hclear.1 (.ok ()) (plantedTree.rewrite 0 [])
    (.inl (.existing ⟨libraryEpisode, .link rfl (.inr rfl) leads_libraryEpisode, rfl⟩))
  exact confined_rewrite_iff.1 hwrite hprotected

end SeedMedic
