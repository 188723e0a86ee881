/-
  Staging runs in which every look is answered as the tree is: which entries and contents the calls
  can alter, and how many bytes they copy.
-/
import SeedMedic.Staging.Confined

namespace SeedMedic

open Lib FileTree Staging

/-- The tree as it is, and the bytes that were copied. -/
structure Trial where
  tree : FileTree FileName
  copied : ℕ

namespace Place

variable (at' : Place) (clone : Reflink at') (dev : List FileName → ℕ)

/-- A look shows the device of what it sees, and fails only where nothing is. -/
def LooksTrue (fs : FileTree FileName) : (c : FsCall) → c.Ans → Prop
  | .symlinkMetadata p, .ok m => ∀ l, at'.LeadsTo false fs p l → m.dev = dev l
  | .symlinkMetadata p, .error _ => ∀ l, at'.LeadsTo false fs p l → fs.node l = none
  | .metadata p, .ok m => ∀ l, at'.LeadsTo true fs p l → m.dev = dev l
  | .metadata p, .error _ => ∀ l, at'.LeadsTo true fs p l → fs.node l = none
  | _, _ => True

/-- The bytes a call copies: all that is to be copied, or less where it fails. -/
def Copies (fs : FileTree FileName) : (c : FsCall) → c.Ans → ℕ → Prop
  | .copy s _, .ok (), n => ∃ i, at'.LeadsToFile fs s i ∧ n = (fs.data i).bytes.length
  | .copy s _, .error _, n => n = 0 ∨ ∃ i, at'.LeadsToFile fs s i ∧ n ≤ (fs.data i).bytes.length
  | _, _, n => n = 0

/-- A call, its answer and what comes of it. -/
structure Tried (c : FsCall) (r : c.Ans) (w w' : Trial) : Prop where
  serves : at'.Serves clone c r w.tree w'.tree
  looks : at'.LooksTrue dev w.tree c r
  copies : ∃ n, at'.Copies w.tree c r n ∧ w'.copied = w.copied + n

/-- Every call changes the tree only as `K` allows. -/
def trying (K : FileTree FileName → FileTree FileName → Prop) : Rules FsCall FsCall.Ans Trial where
  may c w := ∀ r w', at'.Tried clone dev c r w w' → K w.tree w'.tree
  next := at'.Tried clone dev

/-- Where the probe makes the file it clones. -/
def scratchSrc : List FileName := at'.named [".seedmedic-reflink-probe-src"]

/-- Where the probe clones it to. -/
def scratchDst : List FileName := at'.named [".seedmedic-reflink-probe-dst"]

/-- The place of a destination. -/
def stagedAt (item : PlanItem) : List FileName := at'.named (splitParts item.destination.str)

/-- A destination holds a regular file of the right length. -/
def Staged (fs : FileTree FileName) (item : PlanItem) : Prop :=
  ∃ i, fs.node (at'.stagedAt item) = some (.file i) ∧ (fs.data i).bytes.length = item.length

/-- Sources and destinations that the probe has nothing to do with: it finds no link in its way, and
    writes to none of their files. -/
structure Apart (plan : MaterializationPlan) (src : PlanItem → List FileName)
    (fs : FileTree FileName) : Prop where
  root : fs.node at'.dir = some .dir
  leads : ∀ item ∈ plan.items, at'.LeadsTo false fs (.host item.source) (src item)
  /-- Where a source was, there is no link. -/
  source : ∀ item ∈ plan.items, ∀ x, fs.node (src item) = some x → x = .dir ∨ ∃ i, x = .file i
  noLink : fs.NoLink at'.scratchSrc ∧ fs.NoLink at'.scratchDst
  elsewhere : ∀ item ∈ plan.items, ∀ l, l = src item ∨ l = at'.stagedAt item →
    l ≠ at'.scratchSrc ∧ l ≠ at'.scratchDst
  alone : ∀ i, fs.node at'.scratchSrc = some (.file i) → ∀ item ∈ plan.items,
    ∀ l, l = src item ∨ l = at'.stagedAt item → fs.node l ≠ some (.file i)

variable {at' clone dev} {plan : MaterializationPlan} {src : PlanItem → List FileName}
  {fs fs' : FileTree FileName} {w w' : Trial}

/-- The entry at a place, if any is replaced, leads nowhere, and what replaces it is new or a
    source; the probe's own files are never a source. -/
structure Harmless (at' : Place) (plan : MaterializationPlan) (src : PlanItem → List FileName)
    (place : Option (List FileName)) (P : ℕ → Prop) (fs : FileTree FileName) : Prop where
  leaf : ∀ l, place = some l → fs.node l ≠ some .dir ∧ fs.NoLink l
  linked : ∀ i, P i → (∃ item ∈ plan.items, fs.node (src item) = some (.file i)) ∧
    place ≠ some at'.scratchSrc

theorem Apart.alters {place : Option (List FileName)} {P Q : ℕ → Prop} {D : List FileName → Prop}
    (h : at'.Apart plan src fs) (ha : Alters place P Q D fs fs')
    (hplace : Harmless at' plan src place P fs) : at'.Apart plan src fs' where
  root := ha.kept _ _ h.root fun he => (hplace.leaf _ he).1 h.root
  leads item hitem := Leads.alters (h.leads item hitem) ha hplace.leaf
  source item hitem x hx := by
    rcases ha.made _ x hx with hold | ⟨hdir, -⟩ | ⟨-, i, hfile, -⟩
    · exact h.source item hitem x hold
    · exact .inl hdir
    · exact .inr ⟨i, hfile⟩
  noLink := ⟨ha.noLink h.noLink.1, ha.noLink h.noLink.2⟩
  elsewhere := h.elsewhere
  alone i hscratch item hitem l hl hnode := by
    rcases ha.made _ _ hscratch with hold | ⟨hdir, -⟩ | ⟨hplaced, j, hfile, hnew⟩
    · -- the probe's file was there before
      have hused := fs.used hold
      rcases ha.made _ _ hnode with hold' | ⟨hdir, -⟩ | ⟨-, j, hfile, hnew⟩
      · exact h.alone i hold item hitem l hl hold'
      · cases hdir
      · cases hfile
        rcases hnew with hnew | hlinked
        · omega
        · obtain ⟨⟨other, hother, hsource⟩, -⟩ := hplace.linked i hlinked
          exact h.alone i hold other hother _ (.inl rfl) hsource
    · cases hdir
    · -- it is new, and only one entry is
      cases hfile
      have hnew' : fs.unused ≤ i := hnew.resolve_right fun hi => (hplace.linked i hi).2 hplaced
      rcases ha.made _ _ hnode with hold' | ⟨hdir, -⟩ | ⟨hplaced', -⟩
      · exact absurd (fs.used hold') (by omega)
      · cases hdir
      · rw [hplaced] at hplaced'
        exact (h.elsewhere item hitem l hl).1 (Option.some.inj hplaced').symm

/-! ## Runs -/

section
variable {K K' : FileTree FileName → FileTree FileName → Prop} {α : Type} {p : Sys α}
  {Q : α → Trial → Prop}

/-- More is allowed. -/
theorem trying_mono (h : p.Obeys (at'.trying clone dev K) w Q)
    (hK : ∀ {fs fs'}, K fs fs' → K' fs fs') : p.Obeys (at'.trying clone dev K') w Q :=
  h.permits fun _ _ hmay r w' hnext => hK (hmay r w' hnext)

/-- What every change keeps is kept. -/
theorem trying_keeps {I : FileTree FileName → Prop} (h : p.Obeys (at'.trying clone dev K) w Q)
    (hI : I w.tree) (hK : ∀ {fs fs'}, K fs fs' → I fs → I fs') :
    p.Obeys (at'.trying clone dev K) w fun a w' => Q a w' ∧ I w'.tree :=
  h.invariant hI fun _ r _ w' hmay hnext => hK (hmay r w' hnext)

end

/-! ## What a call can alter -/

/-- No call but a copy copies. -/
theorem Tried.copied_eq {c : FsCall} {r : c.Ans} (h : at'.Tried clone dev c r w w')
    (hc : ∀ s p, c ≠ .copy s p) : w'.copied = w.copied := by
  obtain ⟨n, hn, hcopied⟩ := h.copies
  have hzero : n = 0 := by
    cases c with
    | copy s p => exact absurd rfl (hc s p)
    | _ => exact hn
  rw [hcopied, hzero, Nat.add_zero]

/-- A look changes nothing. -/
theorem Tried.look_eq {p : FsPath} {r : Except FsError Metadata}
    (h : at'.Tried clone dev (.symlinkMetadata p) r w w') : w' = w := by
  have hcopied := h.copied_eq fun _ _ => FsCall.noConfusion
  have htree : w'.tree = w.tree := h.serves.1
  cases w
  cases w'
  cases hcopied
  cases htree
  rfl

theorem Tried.metadata_eq {p : FsPath} {r : Except FsError Metadata}
    (h : at'.Tried clone dev (.metadata p) r w w') : w' = w := by
  have hcopied := h.copied_eq fun _ _ => FsCall.noConfusion
  have htree : w'.tree = w.tree := h.serves.1
  cases w
  cases w'
  cases hcopied
  cases htree
  rfl

theorem Tried.statvfs_eq {p : FsPath} {r : Except FsError ℕ}
    (h : at'.Tried clone dev (.statvfs p) r w w') : w' = w := by
  have hcopied := h.copied_eq fun _ _ => FsCall.noConfusion
  have htree : w'.tree = w.tree := h.serves
  cases w
  cases w'
  cases hcopied
  cases htree
  rfl

/-- What a look at a path shows that leads to a place. -/
theorem Tried.look {p : FsPath} {l : List FileName} {r : Except FsError Metadata}
    (h : at'.Tried clone dev (.symlinkMetadata p) r w w') (hl : at'.LeadsTo false w.tree p l) :
    (∃ m, r = .ok m ∧ Describes w.tree l m ∧ m.dev = dev l) ∨
      ∃ e, r = .error e ∧ w.tree.node l = none := by
  obtain ⟨⟨-, hr⟩, hlooks, -⟩ := h
  rcases r with e | m
  · exact .inr ⟨e, rfl, hlooks l hl⟩
  · obtain ⟨l', hl', hm⟩ := hr
    rw [hl'.unique hl] at hm
    exact .inl ⟨m, rfl, hm, hlooks l hl⟩

theorem Tried.follow {p : FsPath} {l : List FileName} {r : Except FsError Metadata}
    (h : at'.Tried clone dev (.metadata p) r w w') (hl : at'.LeadsTo true w.tree p l) :
    (∃ m, r = .ok m ∧ Describes w.tree l m ∧ m.dev = dev l) ∨
      ∃ e, r = .error e ∧ w.tree.node l = none := by
  obtain ⟨⟨-, hr⟩, hlooks, -⟩ := h
  rcases r with e | m
  · exact .inr ⟨e, rfl, hlooks l hl⟩
  · obtain ⟨l', hl', hm⟩ := hr
    rw [hl'.unique hl] at hm
    exact .inl ⟨m, rfl, hm, hlooks l hl⟩

/-- To follow a source is to look at it. -/
theorem Apart.follows {item : PlanItem} (h : at'.Apart plan src fs) (hitem : item ∈ plan.items) :
    at'.LeadsTo true fs (.host item.source) (src item) := by
  refine Leads.followed (h.leads item hitem) fun a t hlink => ?_
  rcases h.source item hitem _ hlink with hdir | ⟨i, hfile⟩
  · cases hdir
  · cases hfile

/-- What is told of a destination shows whether it is staged. -/
theorem staged_iff_of_describes {item : PlanItem} {m : Metadata}
    (hm : Describes fs (at'.stagedAt item) m) :
    at'.Staged fs item ↔ m.fileType = .file ∧ m.len = item.length := by
  constructor
  · rintro ⟨i, hi, hlength⟩
    rw [Describes, hi] at hm
    exact ⟨hm.1, hm.2.trans hlength⟩
  · rintro ⟨htype, hlength⟩
    cases hnode : fs.node (at'.stagedAt item) with
    | none =>
      rw [Describes, hnode] at hm
      exact hm.elim
    | some x =>
      rw [Describes, hnode] at hm
      cases x with
      | file i => exact ⟨i, hnode, hm.2.symm.trans hlength⟩
      | dir | special => cases hm.symm.trans htype
      | link a t => cases hm.symm.trans htype

/-! ## The probe -/

/-- What a call of the probe can alter: its own two entries, and the file at the first of them. -/
structure Probed (at' : Place) (place : Option (List FileName)) (fs fs' : FileTree FileName) :
    Prop where
  scratch : ∀ l, place = some l → l = at'.scratchSrc ∨ l = at'.scratchDst
  leaf : ∀ l, place = some l → fs.node l ≠ some .dir
  alters : Alters place (fun _ => False) (fun i => fs.node at'.scratchSrc = some (.file i))
    (fun _ => False) fs fs'

/-- A name in the staging root. -/
theorem LeadsTo.eq_scratch {follow : Bool} {n : String} {l : List FileName}
    (h : at'.LeadsTo follow fs (.staged [n]) l) (hlink : fs.NoLink (at'.named [n])) :
    l = at'.named [n] := by
  have h' : at'.LeadsTo follow fs (.staged ([] ++ [n])) l := h
  exact h'.eq_named Plain.nil fun _ => hlink

theorem probed_refl (fs : FileTree FileName) : Probed at' none fs fs := ⟨nofun, nofun, .refl fs⟩

/-- The probe opens nothing but its own file. -/
theorem probed_opened {bytes : List UInt8} (h : at'.Opened fs probeSrc bytes fs')
    (hlink : fs.NoLink at'.scratchSrc) : ∃ place, Probed at' place fs fs' := by
  cases h with
  | existing hfile =>
    obtain ⟨l, hleads, hnode⟩ := hfile
    rw [hleads.eq_scratch hlink] at hnode
    exact ⟨none, nofun, nofun, alters_rewrite hnode⟩
  | @created d n hfree =>
    have hplace : d ++ [n] = at'.scratchSrc := hfree.leads.eq_scratch hlink
    refine ⟨some (d ++ [n]), ?_, ?_, alters_create⟩
    · rintro _ ⟨⟩
      exact .inl hplace
    · rintro _ ⟨⟩
      rw [hfree.free]
      nofun

theorem Tried.probed {c : FsCall} {r : c.Ans} (h : at'.Tried clone dev c r w w') (hc : ProbeCall c)
    (hlink : w.tree.NoLink at'.scratchSrc ∧ w.tree.NoLink at'.scratchDst) :
    ∃ place, Probed at' place w.tree w'.tree := by
  have hserves := h.serves
  cases c with
  | symlinkMetadata p =>
    rw [h.look_eq]
    exact ⟨none, probed_refl _⟩
  | metadata p =>
    rw [h.metadata_eq]
    exact ⟨none, probed_refl _⟩
  | statvfs p =>
    rw [h.statvfs_eq]
    exact ⟨none, probed_refl _⟩
  | write p bytes =>
    obtain ⟨rfl, rfl⟩ := hc
    rcases r with e | ⟨⟩
    · rcases hserves with htree | ⟨written, hopen⟩
      · rw [htree]
        exact ⟨none, probed_refl _⟩
      · exact probed_opened hopen hlink.1
    · rcases hserves with hopen | ⟨-, htree⟩
      · exact probed_opened hopen hlink.1
      · rw [htree]
        exact ⟨none, probed_refl _⟩
  | removeFile p =>
    rcases r with e | ⟨⟩
    · have htree : w'.tree = w.tree := hserves
      rw [htree]
      exact ⟨none, probed_refl _⟩
    · obtain ⟨l, hl, hleads, -, htree⟩ := hserves
      have hplace : l = at'.scratchSrc ∨ l = at'.scratchDst := by
        rcases hc with rfl | rfl
        · exact .inl (hleads.eq_scratch hlink.1)
        · exact .inr (hleads.eq_scratch hlink.2)
      refine ⟨some l, ?_, ?_, by rw [htree]; exact alters_unlink⟩
      · rintro _ ⟨⟩
        exact hplace
      · rintro _ ⟨⟩
        exact hl
  | reflink s p =>
    obtain ⟨rfl, rfl⟩ := hc
    rcases clone.createsNew hserves with htree | ⟨d, n, bytes, hfree, htree⟩
    · rw [htree]
      exact ⟨none, probed_refl _⟩
    · have hplace : d ++ [n] = at'.scratchDst := hfree.leads.eq_scratch hlink.2
      refine ⟨some (d ++ [n]), ?_, ?_, by rw [htree]; exact alters_create⟩
      · rintro _ ⟨⟩
        exact .inr hplace
      · rintro _ ⟨⟩
        rw [hfree.free]
        nofun
  | _ => exact hc.elim

theorem ProbeCall.ne_copy {c : FsCall} (hc : ProbeCall c) (s p : FsPath) : c ≠ .copy s p := by
  rintro rfl
  exact hc

theorem Apart.probed {place : Option (List FileName)} (h : at'.Apart plan src fs)
    (hp : Probed at' place fs fs') : at'.Apart plan src fs' := by
  refine h.alters hp.alters ⟨fun l hl => ⟨hp.leaf l hl, ?_⟩, nofun⟩
  rcases hp.scratch l hl with rfl | rfl
  · exact h.noLink.1
  · exact h.noLink.2

/-- The probe leaves the entries of sources and destinations, and what they hold. -/
theorem Probed.kept {place : Option (List FileName)} (hp : Probed at' place fs fs')
    (h : at'.Apart plan src fs) {item : PlanItem} (hitem : item ∈ plan.items) {l : List FileName}
    (hl : l = src item ∨ l = at'.stagedAt item) :
    fs'.node l = fs.node l ∧ ∀ i, fs.node l = some (.file i) → fs'.data i = fs.data i := by
  obtain ⟨hsrc, hdst⟩ := h.elsewhere item hitem l hl
  have hplace : place ≠ some l := by
    intro hplace
    rcases hp.scratch l hplace with he | he
    · exact hsrc he
    · exact hdst he
  exact ⟨hp.alters.node_eq hplace id, fun i hi => hp.alters.data i (fs.used hi) fun hscratch =>
    h.alone i hscratch item hitem l hl hi⟩

end Place

namespace Staging

open Place

variable {at' : Place} {clone : Reflink at'} {dev : List FileName → ℕ}
  {K : FileTree FileName → FileTree FileName → Prop} {plan : MaterializationPlan}
  {src : PlanItem → List FileName} {w w' : Trial} {α : Type} {l : LocalStaging}

/-- What a program that only looks and probes keeps. -/
structure Untroubled (at' : Place) (K : FileTree FileName → FileTree FileName → Prop)
    (plan : MaterializationPlan) (src : PlanItem → List FileName) (I : Trial → Prop) : Prop where
  apart : ∀ {w}, I w → at'.Apart plan src w.tree
  allowed : ∀ {w w' : Trial} {place}, I w → Probed at' place w.tree w'.tree → K w.tree w'.tree
  kept : ∀ {w w' : Trial} {place}, I w → Probed at' place w.tree w'.tree →
    w'.copied = w.copied → I w'

theorem Untroubled.obeys {I : Trial → Prop} {p : Sys α} (hI : Untroubled at' K plan src I)
    (hp : p.Only ProbeCall) (hw : I w) : p.Obeys (at'.trying clone dev K) w fun _ w' => I w' := by
  refine hp.obeys hw fun c w hc hw => ⟨fun r w' h => ?_, fun r w' h => ?_⟩
  · obtain ⟨place, hprobed⟩ := h.probed hc (hI.apart hw).noLink
    exact hI.allowed hw hprobed
  · obtain ⟨place, hprobed⟩ := h.probed hc (hI.apart hw).noLink
    exact hI.kept hw hprobed (h.copied_eq (ProbeCall.ne_copy hc))

/-! ## Looks -/

/-- What looks find out leaves everything as it is. -/
theorem looks_obeys {p : Sys α} (hp : p.Only Looks) (hK : K w.tree w.tree) :
    p.Obeys (at'.trying clone dev K) w fun _ w' => w' = w := by
  refine hp.obeys rfl fun c w₁ hc hw => ?_
  subst hw
  cases c with
  | symlinkMetadata p =>
    refine ⟨fun r w' h => ?_, fun r w' h => h.look_eq⟩
    rw [h.look_eq]
    exact hK
  | _ => exact hc.elim

/-- A look at a destination below directories that are no links. -/
theorem look_joined {path : SafeRelativePath} {r : Except FsError Metadata}
    (h : at'.Tried clone dev (.symlinkMetadata (joined path)) r w w')
    (hplain : at'.Plain w.tree path.parentComponents) :
    (∃ m, r = .ok m ∧ Describes w.tree (at'.named (splitParts path.str)) m) ∨
      ∃ e, r = .error e ∧ w.tree.node (at'.named (splitParts path.str)) = none := by
  obtain ⟨n, hjoined⟩ := joined_eq path
  rw [parts_eq hjoined]
  rw [hjoined] at h
  rcases at'.leadsTo_or_none w.tree path.parentComponents n with hleads | hnone
  · exact (h.look hleads).imp (fun ⟨m, hr, hm, _⟩ => ⟨m, hr, hm⟩) id
  · rcases r with e | m
    · exact .inr ⟨e, rfl, hnone⟩
    · obtain ⟨place, hplace, hm⟩ := h.serves.2
      rw [hplace.eq_named hplain nofun] at hm
      exact .inl ⟨m, rfl, hm⟩

theorem rejectIfSymlink_tried {names : List String} {n : String}
    (hK : K w.tree w.tree) (hplain : at'.Plain w.tree names) :
    (rejectIfSymlink l (.staged (names ++ [n]))).Obeys (at'.trying clone dev K) w fun r w' =>
      w' = w ∧ (r = .ok () → w.tree.NoLink (at'.named (names ++ [n]))) := by
  rw [rejectIfSymlink, Sys.ask_bind, Prog.obeys_call]
  refine ⟨fun r w' h => h.look_eq ▸ hK, fun r w' h => ?_⟩
  have hw' := h.look_eq
  have hfound : ∀ m, r = .ok m → m.fileType ≠ .symlink →
      w.tree.NoLink (at'.named (names ++ [n])) := by
    rintro m rfl hm a t hnode
    obtain ⟨place, hplace, hdescribes⟩ := h.serves.2
    rw [hplace.eq_named hplain (by simp), Describes, hnode] at hdescribes
    exact hm hdescribes
  have hmissing : ∀ e, r = .error e → w.tree.NoLink (at'.named (names ++ [n])) := by
    rintro e rfl a t hnode
    rcases at'.leadsTo_or_none w.tree names n with hleads | hnone
    · rw [h.looks _ hleads] at hnode
      cases hnode
    · rw [hnone] at hnode
      cases hnode
  rcases r with e | m
  · dsimp only
    split_ifs
    · exact ⟨hw', fun _ => hmissing e rfl⟩
    · exact ⟨hw', by simp⟩
  · dsimp only
    split_ifs with hlink
    · exact ⟨hw', by simp⟩
    · exact ⟨hw', fun _ => hfound m rfl hlink⟩

theorem rejectSymlinks_tried (hK : K w.tree w.tree) (components : List String) :
    ∀ {current}, at'.Plain w.tree current →
      (rejectSymlinks l current components).Obeys (at'.trying clone dev K) w fun r w' =>
        w' = w ∧ (r = .ok () → at'.Plain w.tree (current ++ components)) := by
  induction components with
  | nil =>
    intro current hplain
    exact ⟨rfl, fun _ => (List.append_nil current).symm ▸ hplain⟩
  | cons component components ih =>
    intro current hplain
    refine (rejectIfSymlink_tried hK hplain).bind fun r w₁ h₁ => ?_
    obtain ⟨rfl, hr⟩ := h₁
    rcases r with e | ⟨⟩
    · exact ⟨rfl, nofun⟩
    · refine (ih (hplain.concat (hr rfl))).mono fun r w₂ h₂ => ⟨h₂.1, fun hok => ?_⟩
      simpa using h₂.2 hok

/-- Where a path is resolved, the directories above it are no links. -/
theorem resolveUnder_tried (hK : K w.tree w.tree) (path : SafeRelativePath) :
    (resolveUnder l path).Obeys (at'.trying clone dev K) w fun r w' => w' = w ∧
      ∀ p, r = .ok p → p = joined path ∧ at'.Plain w.tree path.parentComponents := by
  refine (looks_obeys (rejectIfSymlink_only l _) hK).bind fun r w₁ h₁ => ?_
  obtain rfl := h₁
  rcases r with e | ⟨⟩
  · exact ⟨rfl, nofun⟩
  · refine (rejectSymlinks_tried hK _ Plain.nil).bind fun r w₂ h₂ => ?_
    obtain ⟨rfl, hr⟩ := h₂
    rcases r with e | ⟨⟩
    · exact ⟨rfl, nofun⟩
    · refine ⟨rfl, fun p hp => ?_⟩
      cases hp
      exact ⟨rfl, hr rfl⟩

end Staging

end SeedMedic
