/-
  Materializing a plan again: what was staged is found complete, and left alone.
-/
import SeedMedic.Staging.Space

namespace SeedMedic

open Lib FileTree Staging

namespace Staging

variable (l : LocalStaging)

/-- How many destinations are there. -/
def countStaged : List PlanItem → Sys ℕ
  | [] => pure 0
  | item :: items => do
    let staged ← alreadyStaged (joined item.destination) item.length
    let present ← countStaged items
    pure (if staged then present + 1 else present)

/-- Whether the planned files are all there. -/
def inspect (plan : MaterializationPlan) : Sys StagingPresence := do
  let expected := plan.items.length
  let present ← countStaged plan.items
  pure (if present = 0 then .absent
    else if present = expected then .complete
    else .incomplete present expected)

/-- A materialization up to the first of its items. -/
def stageFirst (plan : MaterializationPlan) (preference : List MaterializationStrategy)
    (first : List PlanItem) (probes : DeviceProbes) :
    Sys (Except StagingError (Assessment × List StagedFile) × DeviceProbes) := do
  let (found, probes) ← assess l plan preference probes
  match found with
  | .error e => pure (.error e, probes)
  | .ok found =>
    match ← checkSpace l found.needed with
    | .error e => pure (.error e, probes)
    | .ok () =>
      let (files, probes) ← materializeAll l preference found.stagingDev first probes
      pure (files.map (found, ·), probes)

theorem materializeAll_append (preference : List MaterializationStrategy) (stagingDev : ℕ)
    (first rest : List PlanItem) : ∀ probes,
    materializeAll l preference stagingDev (first ++ rest) probes = (do
      let (files, probes) ← materializeAll l preference stagingDev first probes
      match files with
      | .error e => pure (.error e, probes)
      | .ok files =>
        let (more, probes) ← materializeAll l preference stagingDev rest probes
        pure (more.map (files ++ ·), probes)) := by
  induction first with
  | nil =>
    intro probes
    refine (Prog.bind_ret _).symm.trans (congrArg (Bind.bind _) (funext fun r => ?_))
    obtain ⟨more, probes₁⟩ := r
    rcases more with e | more <;> rfl
  | cons item first ih =>
    intro probes
    rw [List.cons_append, materializeAll, materializeAll, Prog.bind_assoc]
    refine congrArg (Bind.bind _) (funext fun r => ?_)
    obtain ⟨staged, probes₁⟩ := r
    rcases staged with e | file
    · rfl
    dsimp only
    rw [ih, Prog.bind_assoc, Prog.bind_assoc]
    refine congrArg (Bind.bind _) (funext fun r => ?_)
    obtain ⟨files, probes₂⟩ := r
    rcases files with e | files
    · rfl
    dsimp only
    rw [Prog.bind_assoc]
    refine congrArg (Bind.bind _) (funext fun r => ?_)
    obtain ⟨more, probes₃⟩ := r
    rcases more with e | more <;> rfl

/-- A materialization of all of its items. -/
theorem materialize_all (plan : MaterializationPlan) (preference : List MaterializationStrategy)
    (probes : DeviceProbes) : materialize l plan preference probes = (do
      let (all, probes) ← stageFirst l plan preference plan.items probes
      pure (all.map fun (found, files) => ⟨files, found.reflink⟩, probes)) := by
  rw [materialize_eq, stageFirst, Prog.bind_assoc]
  refine congrArg (Bind.bind _) (funext fun r => ?_)
  obtain ⟨found, probes₁⟩ := r
  rcases found with e | found
  · rfl
  dsimp only [stage]
  rw [Prog.bind_assoc]
  refine congrArg (Bind.bind _) (funext fun r => ?_)
  rcases r with e | ⟨⟩
  · rfl
  dsimp only
  rw [Prog.bind_assoc]
  refine congrArg (Bind.bind _) (funext fun r => ?_)
  obtain ⟨files, probes₂⟩ := r
  rcases files with e | files <;> rfl

/-- A materialization up to one of its items, the item, and those after it. -/
theorem materialize_split {plan : MaterializationPlan} {first rest : List PlanItem} {item : PlanItem}
    (h : plan.items = first ++ item :: rest) (preference : List MaterializationStrategy)
    (probes : DeviceProbes) : materialize l plan preference probes = (do
      let (sofar, probes) ← stageFirst l plan preference first probes
      match sofar with
      | .error e => pure (.error e, probes)
      | .ok (found, files) =>
        let (staged, probes) ← materializeOne l item preference found.stagingDev probes
        match staged with
        | .error e => pure (.error e, probes)
        | .ok file =>
          let (more, probes) ← materializeAll l preference found.stagingDev rest probes
          pure (more.map fun more => ⟨files ++ file :: more, found.reflink⟩, probes)) := by
  rw [materialize_eq, stageFirst, Prog.bind_assoc]
  refine congrArg (Bind.bind _) (funext fun r => ?_)
  obtain ⟨found, probes₁⟩ := r
  rcases found with e | found
  · rfl
  dsimp only [stage]
  rw [Prog.bind_assoc]
  refine congrArg (Bind.bind _) (funext fun r => ?_)
  rcases r with e | ⟨⟩
  · rfl
  dsimp only
  rw [h, materializeAll_append, Prog.bind_assoc, Prog.bind_assoc]
  refine congrArg (Bind.bind _) (funext fun r => ?_)
  obtain ⟨files, probes₂⟩ := r
  rcases files with e | files
  · rfl
  dsimp only [materializeAll, Except.map]
  rw [Prog.bind_assoc, Prog.bind_assoc]
  refine congrArg (Bind.bind _) (funext fun r => ?_)
  obtain ⟨staged, probes₃⟩ := r
  rcases staged with e | file
  · rfl
  rw [Prog.bind_assoc]
  refine congrArg (Bind.bind _) (funext fun r => ?_)
  obtain ⟨more, probes₄⟩ := r
  rcases more with e | more <;> rfl

end Staging

/-! ## Looks at what is staged -/

namespace Place

variable {at' : Place} {fs : FileTree FileName} {item : PlanItem} {l : LocalStaging}

/-- The staging root, which is canonical, is the directory the place has for it. -/
structure Rooted (l : LocalStaging) (at' : Place) : Prop where
  absolute : l.root.isAbsolute = true
  steps : l.root.components.filterMap pathStep = at'.dir.map .name

theorem Rooted.leads {follow : Bool} (h : Rooted l at') (hroot : fs.node at'.dir = some .dir) :
    at'.LeadsTo follow fs (.host l.root) at'.dir := by
  rw [LeadsTo, h.absolute, if_pos rfl, h.steps]
  exact leads_dir (d := []) hroot

/-- What is above a staged file is a directory. -/
theorem Staged.dir {p : List String} (h : at'.Staged fs item)
    (hp : p <+: item.destination.parentComponents) : fs.node (at'.named p) = some .dir := by
  obtain ⟨n, hjoined⟩ := joined_eq item.destination
  obtain ⟨i, hi, -⟩ := h
  rw [stagedAt, parts_eq hjoined] at hi
  obtain ⟨rest, hrest⟩ := hp
  rw [← hrest] at hi
  refine dir_above (l := at'.named (p ++ rest ++ [n]))
    (fun hnone => by cases hi.symm.trans hnone) ?_ ?_
  · simp [named, List.append_assoc]
  · simp [named]

theorem Staged.plain (h : at'.Staged fs item) :
    at'.Plain fs item.destination.parentComponents := by
  intro p _ hp a t hlink
  rw [h.dir hp] at hlink
  cases hlink

theorem Staged.leads {follow : Bool} (h : at'.Staged fs item) :
    at'.LeadsTo follow fs (joined item.destination) (at'.stagedAt item) := by
  obtain ⟨i, hi, -⟩ := h
  have hne : (splitParts item.destination.str).map fileName ≠ [] := by
    simpa using item.destination.parts_spec.1
  refine leads_names hne (hi ▸ nofun) fun _ a t hlink => ?_
  cases hi.symm.trans hlink

end Place

namespace Staging

open Place

variable {at' : Place} {clone : Reflink at'} {dev : List FileName → ℕ}
  {K : FileTree FileName → FileTree FileName → Prop} {plan : MaterializationPlan}
  {src : PlanItem → List FileName} {item : PlanItem} {w : Trial} {l : LocalStaging}

/-- A directory is no link. -/
theorem rejectIfSymlink_passes {p : FsPath} {place : List FileName} (hK : K w.tree w.tree)
    (hplace : at'.LeadsTo false w.tree p place) (hdir : w.tree.node place = some .dir) :
    (rejectIfSymlink l p).Obeys (at'.trying clone dev K) w fun r w' => w' = w ∧ r = .ok () := by
  rw [rejectIfSymlink, Sys.ask_bind, Prog.obeys_call]
  refine ⟨fun r w' h => ?_, fun r w' h => ?_⟩
  · rw [h.look_eq]
    exact hK
  · have hw' := h.look_eq
    rcases h.look hplace with ⟨m, rfl, hm, -⟩ | ⟨e, rfl, hnone⟩
    · have htype : m.fileType = .dir := by
        rw [Describes, hdir] at hm
        exact hm
      dsimp only
      rw [if_neg (by simp [htype])]
      exact ⟨hw', rfl⟩
    · rw [hdir] at hnone
      cases hnone

theorem rejectSymlinks_passes (hK : K w.tree w.tree) (components : List String) : ∀ {current},
    (∀ p, p <+: current ++ components → w.tree.node (at'.named p) = some .dir) →
      (rejectSymlinks l current components).Obeys (at'.trying clone dev K) w fun r w' =>
        w' = w ∧ r = .ok () := by
  induction components with
  | nil => exact fun _ => ⟨rfl, rfl⟩
  | cons component components ih =>
    intro current hdir
    have happend : current ++ [component] ++ components = current ++ component :: components :=
      (List.append_cons ..).symm
    have hfirst := hdir (current ++ [component]) ⟨components, happend⟩
    have hleads : at'.LeadsTo false w.tree (.staged (current ++ [component]))
        (at'.named (current ++ [component])) := leads_dir hfirst
    refine (rejectIfSymlink_passes hK hleads hfirst).bind fun r w₁ h₁ => ?_
    obtain ⟨rfl, rfl⟩ := h₁
    exact ih fun p hp => hdir p (happend ▸ hp)

/-- The path of what is staged is resolved. -/
theorem resolveUnder_passes (hK : K w.tree w.tree) (hrooted : Rooted l at')
    (hroot : w.tree.node at'.dir = some .dir) (hstaged : at'.Staged w.tree item) :
    (resolveUnder l item.destination).Obeys (at'.trying clone dev K) w fun r w' =>
      w' = w ∧ r = .ok (joined item.destination) := by
  refine (rejectIfSymlink_passes hK (hrooted.leads hroot) hroot).bind fun r w₁ h₁ => ?_
  obtain ⟨rfl, rfl⟩ := h₁
  refine (rejectSymlinks_passes hK _ fun p hp => hstaged.dir hp).bind fun r w₂ h₂ => ?_
  obtain ⟨rfl, rfl⟩ := h₂
  exact ⟨rfl, rfl⟩

/-- What is staged is found staged: by an inspection, -/
theorem inspect_staged (hK : K w.tree w.tree) (hplan : plan.items ≠ [])
    (hstaged : ∀ item ∈ plan.items, at'.Staged w.tree item) :
    (inspect plan).Obeys (at'.trying clone dev K) w fun r w' => w' = w ∧ r = .complete := by
  have hcount : ∀ items : List PlanItem, (∀ item ∈ items, at'.Staged w.tree item) →
      (countStaged items).Obeys (at'.trying clone dev K) w fun r w' => w' = w ∧ r = items.length := by
    intro items
    induction items with
    | nil => exact fun _ => ⟨rfl, rfl⟩
    | cons item items ih =>
      intro hitems
      obtain ⟨hitem, hrest⟩ := List.forall_mem_cons.1 hitems
      refine (alreadyStaged_tried hK hitem.plain).bind fun staged w₁ h₁ => ?_
      obtain ⟨rfl, hs⟩ := h₁
      refine (ih hrest).bind fun present w₂ h₂ => ?_
      obtain ⟨rfl, rfl⟩ := h₂
      exact ⟨rfl, if_pos (hs.2 hitem)⟩
  refine (hcount plan.items hstaged).bind fun present w₁ h₁ => ?_
  obtain ⟨rfl, rfl⟩ := h₁
  refine ⟨rfl, ?_⟩
  rw [if_neg (by simpa using hplan), if_pos rfl]

/-- before the space is checked, -/
theorem requiredNewBytes_staged (hK : K w.tree w.tree) (hrooted : Rooted l at')
    (hroot : w.tree.node at'.dir = some .dir) (preference : List MaterializationStrategy)
    (stagingDev : ℕ) (probes : DeviceProbes) (items : List PlanItem) :
    (∀ item ∈ items, at'.Staged w.tree item) → ∀ {total},
      (requiredNewBytes l preference stagingDev items total probes).Obeys (at'.trying clone dev K) w
        fun r w' => w' = w ∧ r = (.ok total, probes) := by
  induction items with
  | nil => exact fun _ _ => ⟨rfl, rfl⟩
  | cons item items ih =>
    intro hitems total
    obtain ⟨hitem, hrest⟩ := List.forall_mem_cons.1 hitems
    refine (resolveUnder_passes hK hrooted hroot hitem).bind fun r w₁ h₁ => ?_
    obtain ⟨rfl, rfl⟩ := h₁
    refine (alreadyStaged_tried hK hitem.plain).bind fun staged w₂ h₂ => ?_
    obtain ⟨rfl, hs⟩ := h₂
    rw [if_pos (hs.2 hitem)]
    exact ih hrest

/-- and when its turn comes. -/
theorem materializeOne_staged (hK : K w.tree w.tree) (hrooted : Rooted l at')
    (hroot : w.tree.node at'.dir = some .dir) (preference : List MaterializationStrategy)
    (stagingDev : ℕ) (probes : DeviceProbes) (hstaged : at'.Staged w.tree item) :
    (materializeOne l item preference stagingDev probes).Obeys (at'.trying clone dev K) w
      fun r w' => w' = w ∧ ∃ strategy, r = (.ok ⟨item.destination, strategy, item.length⟩, probes) := by
  refine (resolveUnder_passes hK hrooted hroot hstaged).bind fun r w₁ h₁ => ?_
  obtain ⟨rfl, rfl⟩ := h₁
  dsimp only
  rw [Sys.ask_bind, Prog.obeys_call]
  refine ⟨fun r w' h => ?_, fun r w₂ h => ?_⟩
  · rw [h.look_eq]
    exact hK
  obtain rfl := h.look_eq
  rcases h.look hstaged.leads with ⟨m, rfl, hm, -⟩ | ⟨e, rfl, hnone⟩
  · have hfound := (staged_iff_of_describes hm).1 hstaged
    dsimp only
    rw [if_neg (by rw [hfound.1]; nofun), if_pos hfound, hfound.2]
    exact ⟨rfl, _, rfl⟩
  · obtain ⟨i, hi, -⟩ := hstaged
    rw [hi] at hnone
    cases hnone

theorem materializeAll_staged (hK : K w.tree w.tree) (hrooted : Rooted l at')
    (hroot : w.tree.node at'.dir = some .dir) (preference : List MaterializationStrategy)
    (stagingDev : ℕ) (probes : DeviceProbes) (items : List PlanItem) :
    (∀ item ∈ items, at'.Staged w.tree item) →
      (materializeAll l preference stagingDev items probes).Obeys (at'.trying clone dev K) w
        fun r w' => w' = w ∧ ∃ files, r = (.ok files, probes) ∧
          files.map (·.path) = items.map (·.destination) ∧ files.map (·.bytes) = items.map (·.length) := by
  induction items with
  | nil => exact fun _ => ⟨rfl, [], rfl, rfl, rfl⟩
  | cons item items ih =>
    intro hitems
    obtain ⟨hitem, hrest⟩ := List.forall_mem_cons.1 hitems
    refine (materializeOne_staged hK hrooted hroot preference stagingDev probes hitem).bind
      fun r w₁ h₁ => ?_
    obtain ⟨rfl, strategy, rfl⟩ := h₁
    refine (ih hrest).bind fun r w₂ h₂ => ?_
    obtain ⟨rfl, files, rfl, hpaths, hbytes⟩ := h₂
    refine ⟨rfl, _, rfl, ?_, ?_⟩
    · rw [List.map_cons, List.map_cons, hpaths]
    · rw [List.map_cons, List.map_cons, hbytes]

end Staging

/-! ## What is left alone -/

namespace Place

variable {at' : Place} {plan : MaterializationPlan} {src : PlanItem → List FileName}
  {item : PlanItem} {fs fs' : FileTree FileName} {place : Option (List FileName)}

/-- Destinations that are staged are left alone. -/
def LeavesStaged (at' : Place) (plan : MaterializationPlan) (fs fs' : FileTree FileName) : Prop :=
  ∀ item ∈ plan.items, at'.Staged fs item →
    fs'.node (at'.stagedAt item) = fs.node (at'.stagedAt item) ∧
      ∀ i, fs.node (at'.stagedAt item) = some (.file i) → fs'.data i = fs.data i

/-- Sources, destinations and directories are left alone, as are all entries but the probe's. -/
structure Untouched (at' : Place) (plan : MaterializationPlan) (src : PlanItem → List FileName)
    (fs fs' : FileTree FileName) : Prop where
  entries : ∀ l, l ≠ at'.scratchSrc → l ≠ at'.scratchDst → fs'.node l = fs.node l
  directories : ∀ l, fs'.node l = some .dir ↔ fs.node l = some .dir
  same : at'.Same plan src fs fs'

theorem LeavesStaged.staged (h : at'.LeavesStaged plan fs fs') (hitem : item ∈ plan.items)
    (hstaged : at'.Staged fs item) : at'.Staged fs' item := by
  obtain ⟨hnode, hdata⟩ := h item hitem hstaged
  obtain ⟨i, hi, hlength⟩ := hstaged
  exact ⟨i, hnode.trans hi, by rw [hdata i hi, hlength]⟩

theorem Probed.leavesStaged (h : Probed at' place fs fs') (hapart : at'.Apart plan src fs) :
    at'.LeavesStaged plan fs fs' := fun _ hitem _ => h.kept hapart hitem (.inr rfl)

/-- Work on an item leaves the others alone. -/
theorem Working.leavesStaged (h : at'.Working plan src item fs fs')
    (hnodup : (plan.items.map (·.destination)).Nodup) (hitem : item ∈ plan.items) :
    at'.LeavesStaged plan fs fs' := fun other hother hstaged => by
  refine h.kept hother hstaged fun hdestination => ?_
  rw [List.inj_on_of_nodup_map hnodup hother hitem hdestination]

theorem Probed.untouched (h : Probed at' place fs fs') (hapart : at'.Apart plan src fs) :
    at'.Untouched plan src fs fs' where
  entries l hsrc hdst := by
    refine h.alters.node_eq (fun hplace => ?_) id
    rcases h.scratch l hplace with he | he
    · exact hsrc he
    · exact hdst he
  directories l := by
    constructor
    · intro hdir
      rcases h.alters.made l _ hdir with hold | ⟨-, hfalse⟩ | ⟨-, i, hfile, -⟩
      · exact hold
      · exact hfalse.elim
      · cases hfile
    · exact fun hdir => h.alters.kept l _ hdir fun hplace => h.leaf l hplace hdir
  same := fun _ hitem _ hl => h.kept hapart hitem hl

end Place

namespace Staging

open Place

variable {at' : Place} {clone : Reflink at'} {dev : List FileName → ℕ}
  {plan : MaterializationPlan} {src : PlanItem → List FileName} {w : Trial} {l : LocalStaging}

/-- Items that were materialized are staged. -/
theorem materializeAll_stages (hnodup : (plan.items.map (·.destination)).Nodup)
    (preference : List MaterializationStrategy) (stagingDev : ℕ) (items : List PlanItem)
    (hitems : items ⊆ plan.items) : ∀ {probes w}, at'.Apart plan src w.tree →
      (materializeAll l preference stagingDev items probes).Obeys
        (at'.trying clone dev (at'.LeavesStaged plan)) w fun r w' =>
          at'.Apart plan src w'.tree ∧ ∀ files, r.1 = .ok files →
            (∀ item ∈ items, at'.Staged w'.tree item) ∧
              files.map (·.path) = items.map (·.destination) ∧
                files.map (·.bytes) = items.map (·.length) := by
  induction items with
  | nil =>
    intro probes w hapart
    refine ⟨hapart, ?_⟩
    rintro _ ⟨⟩
    exact ⟨nofun, rfl, rfl⟩
  | cons item items ih =>
    intro probes w hapart
    have hitem : item ∈ plan.items := hitems (List.mem_cons_self ..)
    have hone : (materializeOne l item preference stagingDev probes).Obeys
        (at'.trying clone dev (at'.LeavesStaged plan)) w _ :=
      trying_mono (materializeOne_works preference stagingDev probes hitem hapart)
        fun h => h.leavesStaged hnodup hitem
    refine hone.bind fun r w₁ h₁ => ?_
    obtain ⟨hworked, -⟩ := h₁
    obtain ⟨staged, probes₁⟩ := r
    rcases staged with e | file
    · exact ⟨hworked.apart, nofun⟩
    · obtain ⟨hstaged, hpath, hbytes⟩ := hworked.staged file rfl
      -- the items after it leave it staged
      have hrest : (materializeAll l preference stagingDev items probes₁).Obeys
          (at'.trying clone dev (at'.LeavesStaged plan)) w₁ _ :=
        ih (List.subset_of_cons_subset hitems) hworked.apart
      have hkeeps := trying_keeps (I := fun fs => at'.Staged fs item) hrest hstaged
        fun h hs => h.staged hitem hs
      refine hkeeps.bind fun r w₂ h₂ => ?_
      obtain ⟨⟨hapart₂, hfiles⟩, hstaged₂⟩ := h₂
      obtain ⟨files, probes₂⟩ := r
      rcases files with e | files
      · exact ⟨hapart₂, nofun⟩
      · refine ⟨hapart₂, ?_⟩
        rintro _ ⟨⟩
        obtain ⟨hall, hpaths, hlengths⟩ := hfiles files rfl
        refine ⟨List.forall_mem_cons.2 ⟨hstaged₂, hall⟩, ?_, ?_⟩
        · rw [List.map_cons, List.map_cons, hpath, hpaths]
        · rw [List.map_cons, List.map_cons, hbytes, hlengths]

/-- The first items of a plan are staged, and everything that was stays so. -/
theorem stageFirst_stages (hnodup : (plan.items.map (·.destination)).Nodup)
    (preference : List MaterializationStrategy) (first : List PlanItem)
    (hfirst : first ⊆ plan.items) (probes : DeviceProbes) (hapart : at'.Apart plan src w.tree) :
    (stageFirst l plan preference first probes).Obeys
      (at'.trying clone dev (at'.LeavesStaged plan)) w fun r w' =>
        at'.Apart plan src w'.tree ∧ ∀ found files, r.1 = .ok (found, files) →
          (∀ item ∈ first, at'.Staged w'.tree item) ∧
            files.map (·.path) = first.map (·.destination) ∧
              files.map (·.bytes) = first.map (·.length) := by
  have hidle : Untroubled at' (at'.LeavesStaged plan) plan src
      (at'.Idle plan src w.tree w.copied) := Place.Idle.untroubled fun ha hp => hp.leavesStaged ha
  have hstart : at'.Idle plan src w.tree w.copied w := ⟨hapart, .refl _, rfl⟩
  refine (hidle.obeys (assess_only l plan preference probes) hstart).bind fun r w₁ h₁ => ?_
  obtain ⟨found, probes₁⟩ := r
  rcases found with e | found
  · exact ⟨h₁.apart, nofun⟩
  refine (hidle.obeys (checkSpace_only l _) h₁).bind fun r w₂ h₂ => ?_
  rcases r with e | ⟨⟩
  · exact ⟨h₂.apart, nofun⟩
  refine (materializeAll_stages hnodup preference found.stagingDev first hfirst h₂.apart).bind
    fun r w₃ h₃ => ?_
  obtain ⟨files, probes₂⟩ := r
  refine ⟨h₃.1, ?_⟩
  rcases files with e | files
  · nofun
  · rintro _ _ ⟨⟩
    exact h₃.2 files rfl

/-- What is staged is materialized again without a change. -/
theorem materialize_again (hrooted : Rooted l at') (hapart : at'.Apart plan src w.tree)
    (hstaged : ∀ item ∈ plan.items, at'.Staged w.tree item)
    (preference : List MaterializationStrategy) (probes : DeviceProbes) :
    (materialize l plan preference probes).Obeys (at'.trying clone dev (at'.Untouched plan src)) w
      fun r _ => ∃ layout, r.1 = .ok layout ∧
        layout.files.map (·.path) = plan.items.map (·.destination) ∧
          layout.files.map (·.bytes) = plan.items.map (·.length) := by
  have hidle : Untroubled at' (at'.Untouched plan src) plan src
      (at'.Idle plan src w.tree w.copied) := Place.Idle.untroubled fun ha hp => hp.untouched ha
  have hlook : ∀ {w : Trial}, at'.Apart plan src w.tree → at'.Untouched plan src w.tree w.tree :=
    fun ha => (probed_refl _).untouched ha
  have hdevice : (deviceId l).Obeys (at'.trying clone dev (at'.Untouched plan src)) w fun r w' =>
      w' = w ∧ ∃ stagingDev, r = .ok stagingDev := by
    rw [deviceId, Sys.ask_bind, Prog.obeys_call]
    refine ⟨fun r w' h => ?_, fun r w' h => ?_⟩
    · rw [h.metadata_eq]
      exact hlook hapart
    · have hw' := h.metadata_eq
      rcases h.follow (hrooted.leads hapart.root) with ⟨m, rfl, -, -⟩ | ⟨e, rfl, hnone⟩
      · exact ⟨hw', m.dev, rfl⟩
      · rw [hapart.root] at hnone
        cases hnone
  refine hdevice.bind fun r w₁ h₁ => ?_
  obtain ⟨rfl, stagingDev, rfl⟩ := h₁
  have hstart : at'.Idle plan src w₁.tree w₁.copied w₁ := ⟨hapart, .refl _, rfl⟩
  refine (hidle.obeys (planReflinkProbe_only _ _ _ _) hstart).bind fun r w₂ h₂ => ?_
  -- what the probe leaves behind is staged as before
  have hstaged₂ : ∀ item ∈ plan.items, at'.Staged w₂.tree item := fun item hitem =>
    (h₂.same.staged_iff hitem).2 (hstaged item hitem)
  obtain ⟨reflink, probes₂⟩ := r
  refine (requiredNewBytes_staged (hlook h₂.apart) hrooted h₂.apart.root preference stagingDev probes₂
    plan.items hstaged₂).bind fun r w₃ h₃ => ?_
  obtain ⟨rfl, rfl⟩ := h₃
  refine (materializeAll_staged (hlook h₂.apart) hrooted h₂.apart.root preference stagingDev probes₂
    plan.items hstaged₂).bind fun r w₄ h₄ => ?_
  obtain ⟨rfl, files, rfl, hpaths, hbytes⟩ := h₄
  exact ⟨⟨files, reflink⟩, rfl, hpaths, hbytes⟩

/-- A plan with an item and with a destination for each, below a canonical root, with the probe kept
    apart from its sources and destinations. -/
structure Retryable (l : LocalStaging) (at' : Place) (plan : MaterializationPlan)
    (src : PlanItem → List FileName) (fs : FileTree FileName) : Prop where
  rooted : Rooted l at'
  apart : at'.Apart plan src fs
  distinct : (plan.items.map (·.destination)).Nodup
  nonempty : plan.items ≠ []

end Staging

/-- The file of the library is staged, and a link to it is planted where the probe writes. -/
def plantedStaged : FileTree FileName :=
  plantedTree.create [fileName "staging"] (fileName "e01.mkv") [1] rfl rfl

theorem onePlan_retryable :
    Retryable besideStaging besideLibrary onePlan (fun _ => libraryEpisode) stagingBesideLibrary where
  rooted := ⟨by decide +kernel, by decide +kernel⟩
  apart := onePlan_apart
  distinct := List.nodup_singleton _
  nonempty := List.cons_ne_nil _ _

end SeedMedic
