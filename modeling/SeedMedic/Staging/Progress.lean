/-
  How a materialization gets on with its items: what the work on each of them can alter, what it
  leaves behind and how many bytes it copies.
-/
import SeedMedic.Staging.Trials

namespace SeedMedic

open Lib FileTree Staging

namespace Place

variable {at' : Place} {clone : Reflink at'} {dev : List FileName → ℕ}
  {plan : MaterializationPlan} {src : PlanItem → List FileName} {item : PlanItem}
  {fs fs' : FileTree FileName} {w w' : Trial}

/-- What a call can alter while an item is worked on: besides what the probe alters, the entry of
    the destination as long as it is not staged, and directories. -/
structure Works (at' : Place) (plan : MaterializationPlan) (src : PlanItem → List FileName)
    (item : PlanItem) (place : Option (List FileName)) (P : ℕ → Prop) (D : List FileName → Prop)
    (fs fs' : FileTree FileName) : Prop where
  alters : Alters place P (fun i => fs.node at'.scratchSrc = some (.file i)) D fs fs'
  harmless : Harmless at' plan src place P fs
  target : ∀ l, place = some l →
    l = at'.scratchSrc ∨ l = at'.scratchDst ∨ l = at'.stagedAt item ∧ ¬at'.Staged fs item

/-- What one call can alter. -/
inductive Allowed (at' : Place) (plan : MaterializationPlan) (src : PlanItem → List FileName)
    (item : PlanItem) (fs fs' : FileTree FileName) : Prop
  | probe {place} (h : Probed at' place fs fs')
  | work {place P D} (h : Works at' plan src item place P D fs fs')

/-- What is allowed while an item is worked on, where the probe is kept apart. -/
def Working (at' : Place) (plan : MaterializationPlan) (src : PlanItem → List FileName)
    (item : PlanItem) (fs fs' : FileTree FileName) : Prop :=
  at'.Apart plan src fs ∧ Allowed at' plan src item fs fs'

theorem Apart.working (h : at'.Apart plan src fs) : Working at' plan src item fs fs :=
  ⟨h, .probe (probed_refl fs)⟩

/-- A destination with nothing in its place, below directories that are no links, whose source, if
    it is a file, has the right length. -/
structure Vacant (at' : Place) (plan : MaterializationPlan) (src : PlanItem → List FileName)
    (item : PlanItem) (copied : ℕ) (w : Trial) : Prop where
  apart : at'.Apart plan src w.tree
  plain : at'.Plain w.tree item.destination.parentComponents
  free : w.tree.node (at'.stagedAt item) = none
  source : ∀ i, w.tree.node (src item) = some (.file i) →
    (w.tree.data i).bytes.length = item.length
  copied : w.copied = copied

theorem Vacant.alters {n : ℕ} {place : Option (List FileName)} {P : ℕ → Prop}
    {D : List FileName → Prop} (h : Vacant at' plan src item n w) (hitem : item ∈ plan.items)
    (ha : Alters place P (fun i => w.tree.node at'.scratchSrc = some (.file i)) D w.tree w'.tree)
    (hplace : Harmless at' plan src place P w.tree)
    (hstaged : place ≠ some (at'.stagedAt item) ∧ ¬D (at'.stagedAt item))
    (hsource : place ≠ some (src item)) (hcopied : w'.copied = w.copied) :
    Vacant at' plan src item n w' where
  apart := h.apart.alters ha hplace
  plain p hp hpre := ha.noLink (h.plain p hp hpre)
  free := (ha.node_eq hstaged.1 hstaged.2).trans h.free
  source i hi := by
    rcases ha.made _ _ hi with hold | ⟨hdir, -⟩ | ⟨he, -⟩
    · rw [ha.data i (w.tree.used hold) fun hscratch => h.apart.alone i hscratch item hitem _ (.inl rfl) hold]
      exact h.source i hold
    · cases hdir
    · exact absurd he hsource
  copied := hcopied.trans h.copied

theorem Vacant.untroubled {n : ℕ} (hitem : item ∈ plan.items) :
    Staging.Untroubled at' (Working at' plan src item) plan src (Vacant at' plan src item n) where
  apart h := h.apart
  allowed h hp := ⟨h.apart, .probe hp⟩
  kept {w w' place} h hp hcopied := by
    have hne : ∀ l, l = src item ∨ l = at'.stagedAt item → place ≠ some l := by
      intro l hl hplace
      obtain ⟨hsrc, hdst⟩ := h.apart.elsewhere item hitem l hl
      rcases hp.scratch l hplace with he | he
      · exact hsrc he
      · exact hdst he
    refine h.alters hitem hp.alters ⟨fun l hl => ⟨hp.leaf l hl, ?_⟩, nofun⟩
      ⟨hne _ (.inr rfl), id⟩ (hne _ (.inl rfl)) hcopied
    rcases hp.scratch l hl with rfl | rfl
    · exact h.apart.noLink.1
    · exact h.apart.noLink.2

/-- Bytes that trying one strategy after the other can copy. -/
def mayCopy (length : ℕ) (capabilities : DeviceCapabilities) : List MaterializationStrategy → ℕ
  | [] => 0
  | .copy :: _ => length
  | .reflink :: rest =>
    if capabilities.reflink = .supported then 0 else mayCopy length capabilities rest
  | .hardlink :: rest => mayCopy length capabilities rest

/-- What an attempt leaves of a destination that was free. -/
structure Attempted (at' : Place) (plan : MaterializationPlan) (src : PlanItem → List FileName)
    (item : PlanItem) (most : ℕ) (w : Trial) : Prop where
  apart : at'.Apart plan src w.tree
  plain : at'.Plain w.tree item.destination.parentComponents
  file : ∀ x, w.tree.node (at'.stagedAt item) = some x → ∃ i, x = .file i
  copied : w.copied ≤ most

theorem Attempted.of_vacant {n most : ℕ} (h : Vacant at' plan src item n w) (hmost : n ≤ most) :
    Attempted at' plan src item most w where
  apart := h.apart
  plain := h.plain
  file x hx := by
    rw [h.free] at hx
    cases hx
  copied := h.copied.trans_le hmost

/-- A file in the place of a free destination: a new one, or the source once more. -/
theorem Vacant.filled {P : ℕ → Prop} {n most : ℕ} (hw : Vacant at' plan src item n w)
    (hitem : item ∈ plan.items)
    (ha : Alters (some (at'.stagedAt item)) P
      (fun i => w.tree.node at'.scratchSrc = some (.file i)) (fun _ => False) w.tree w'.tree)
    (hP : ∀ i, P i → w.tree.node (src item) = some (.file i)) (hcopied : w'.copied ≤ most) :
    Working at' plan src item w.tree w'.tree ∧ Attempted at' plan src item most w' := by
  have hharmless : Harmless at' plan src (some (at'.stagedAt item)) P w.tree := by
    constructor
    · rintro l ⟨⟩
      rw [hw.free]
      refine ⟨nofun, fun a t h => ?_⟩
      rw [hw.free] at h
      cases h
    · intro i hi
      refine ⟨⟨item, hitem, hP i hi⟩, fun he => ?_⟩
      exact (hw.apart.elsewhere item hitem _ (.inr rfl)).1 (Option.some.inj he)
  constructor
  · refine ⟨hw.apart, .work ⟨ha, hharmless, ?_⟩⟩
    rintro l ⟨⟩
    refine .inr (.inr ⟨rfl, ?_⟩)
    rintro ⟨i, hi, -⟩
    rw [hw.free] at hi
    cases hi
  · refine ⟨hw.apart.alters ha hharmless, fun p hp hpre => ha.noLink (hw.plain p hp hpre), ?_,
      hcopied⟩
    intro x hx
    rcases ha.made _ x hx with hold | ⟨-, hfalse⟩ | ⟨-, i, hfile, -⟩
    · rw [hw.free] at hold
      cases hold
    · exact hfalse.elim
    · exact ⟨i, hfile⟩

/-- The path of a destination leads where it says. -/
theorem eq_stagedAt {follow : Bool} {fs : FileTree FileName} {place : List FileName}
    (h : at'.LeadsTo follow fs (joined item.destination) place)
    (hplain : at'.Plain fs item.destination.parentComponents)
    (hlast : follow = true → fs.NoLink (at'.stagedAt item)) : place = at'.stagedAt item := by
  obtain ⟨m, hjoined⟩ := joined_eq item.destination
  rw [stagedAt, parts_eq hjoined] at hlast ⊢
  rw [hjoined] at h
  exact h.eq_named hplain hlast

theorem Vacant.free_eq {n : ℕ} {follow : Bool} {d : List FileName} {m : FileName}
    (hw : Vacant at' plan src item n w)
    (h : at'.Free follow w.tree (joined item.destination) d m) : d ++ [m] = at'.stagedAt item :=
  eq_stagedAt h.leads hw.plain fun _ a t hlink => by
    rw [hw.free] at hlink
    cases hlink

/-- What is opened by the path of a free destination is a new file. -/
theorem Vacant.opened {n : ℕ} {bytes : List UInt8} {P Q : ℕ → Prop} {D : List FileName → Prop}
    {fs' : FileTree FileName} (hw : Vacant at' plan src item n w)
    (h : at'.Opened w.tree (joined item.destination) bytes fs') :
    Alters (some (at'.stagedAt item)) P Q D w.tree fs' := by
  cases h with
  | existing hfile =>
    obtain ⟨place, hleads, hnode⟩ := hfile
    have hplace : place = at'.stagedAt item := eq_stagedAt hleads hw.plain fun _ a t hlink => by
      rw [hw.free] at hlink
      cases hlink
    rw [hplace, hw.free] at hnode
    cases hnode
  | created hfree =>
    rw [← hw.free_eq hfree]
    exact alters_create

/-- To read a source is to read the file in its place. -/
theorem Apart.source_eq {fs : FileTree FileName} {i : ℕ} (h : at'.Apart plan src fs)
    (hitem : item ∈ plan.items) (hi : at'.LeadsToFile fs (.host item.source) i) :
    fs.node (src item) = some (.file i) := by
  obtain ⟨place, hplace, hnode⟩ := hi
  rw [← hplace.unique (h.follows hitem)]
  exact hnode

/-- What the work on an item comes to. -/
structure Worked (at' : Place) (plan : MaterializationPlan) (src : PlanItem → List FileName)
    (item : PlanItem) (r : Except StagingError StagedFile) (w : Trial) : Prop where
  apart : at'.Apart plan src w.tree
  staged : ∀ file, r = .ok file →
    at'.Staged w.tree item ∧ file.path = item.destination ∧ file.bytes = item.length

/-- What was learned of devices stays. -/
def Learns (probes probes' : DeviceProbes) : Prop := ∀ k c, probes k = some c → probes' k = some c

theorem Learns.refl (probes : DeviceProbes) : Learns probes probes := fun _ _ h => h

theorem Learns.trans {probes probes' probes'' : DeviceProbes} (h : Learns probes probes')
    (h' : Learns probes' probes'') : Learns probes probes'' := fun k c hk => h' k c (h k c hk)

end Place

namespace Staging

open Place

variable {at' : Place} {clone : Reflink at'} {dev : List FileName → ℕ}
  {plan : MaterializationPlan} {src : PlanItem → List FileName} {item : PlanItem} {w w' : Trial}
  {l : LocalStaging} {n : ℕ}

theorem createEach_works (hitem : item ∈ plan.items) (components : List String) : ∀ {current w},
    current ++ components = item.destination.parentComponents → Vacant at' plan src item n w →
      (createEach l current components).Obeys (at'.trying clone dev (Working at' plan src item)) w
        fun _ w' => Vacant at' plan src item n w' := by
  induction components with
  | nil => exact fun _ hw => hw
  | cons component components ih =>
    intro current w hparents hw
    obtain ⟨m, hjoined⟩ := joined_eq item.destination
    have hpre : current <+: item.destination.parentComponents := ⟨_, hparents⟩
    have hpre' : current ++ [component] <+: item.destination.parentComponents :=
      ⟨components, by simpa using hparents⟩
    -- a directory above the destination is not its place
    have hne : at'.named (current ++ [component]) ≠ at'.stagedAt item := by
      intro he
      have hlength := congrArg List.length he
      have hle := hpre'.length_le
      simp only [stagedAt, named, parts_eq hjoined, List.length_append, List.length_map,
        List.length_singleton] at hlength hle
      omega
    have hlook : ∀ {w}, Vacant at' plan src item n w →
        (rejectIfSymlink l (.staged (current ++ [component]))).Obeys
          (at'.trying clone dev (Working at' plan src item)) w fun _ w' => Vacant at' plan src item n w' :=
      fun hw => (looks_obeys (rejectIfSymlink_only l _) hw.apart.working).mono fun _ _ h => h ▸ hw
    have hmade : ∀ {r w'}, at'.Tried clone dev (.createDir (.staged (current ++ [component]))) r w w' →
        Working at' plan src item w.tree w'.tree ∧ Vacant at' plan src item n w' := by
      intro r w' h
      have hcopied := h.copied_eq fun _ _ => FsCall.noConfusion
      have hserves := h.serves
      have hharmless : Harmless at' plan src none (fun _ => False) w.tree := ⟨by simp, by simp⟩
      have halters : Alters none (fun _ => False)
          (fun i => w.tree.node at'.scratchSrc = some (.file i))
          (fun l => l ≠ at'.stagedAt item) w.tree w'.tree := by
        rcases r with e | ⟨⟩
        · rw [hserves.1]
          exact .refl _
        · obtain ⟨d, k, hfree, htree⟩ := hserves
          rw [htree]
          refine alters_mkdir ?_
          rw [hfree.leads.eq_named (fun p hp habove => hw.plain p hp (habove.trans hpre)) (by simp)]
          exact hne
      exact ⟨⟨hw.apart, .work ⟨halters, hharmless, by simp⟩⟩,
        hw.alters hitem halters hharmless ⟨by simp, fun h => h rfl⟩ (by simp) hcopied⟩
    have hchecked : (createChecked l (.staged (current ++ [component]))).Obeys
        (at'.trying clone dev (Working at' plan src item)) w
        fun _ w' => Vacant at' plan src item n w' := by
      rw [createChecked, Sys.ask_bind, Prog.obeys_call]
      refine ⟨fun r w' h => (hmade h).1, fun r w' h => ?_⟩
      have hw' := (hmade h).2
      rcases r with e | ⟨⟩
      · dsimp only
        split_ifs
        · exact hlook hw'
        · exact hw'
      · exact hlook hw'
    refine hchecked.bind fun r w₁ h₁ => ?_
    rcases r with e | ⟨⟩
    · exact h₁
    · exact ih (by simpa using hparents) h₁

/-- A clone of the source is a new file, or none. -/
theorem reflink_works {most : ℕ} {r : Except FsError Unit} (hitem : item ∈ plan.items)
    (hw : Vacant at' plan src item n w) (hmost : n ≤ most)
    (h : at'.Tried clone dev (.reflink (.host item.source) (joined item.destination)) r w w') :
    Working at' plan src item w.tree w'.tree ∧ Attempted at' plan src item most w' := by
  have hcopied : w'.copied = n := (h.copied_eq fun _ _ => FsCall.noConfusion).trans hw.copied
  refine hw.filled (P := fun _ => False) hitem ?_ nofun (hcopied.trans_le hmost)
  rcases clone.createsNew h.serves with htree | ⟨d, m, bytes, hfree, htree⟩
  · rw [htree]
    exact .refl _
  · rw [htree, ← hw.free_eq hfree]
    exact alters_create

/-- A hardlink is the source once more; where it fails, all is as it was. -/
theorem hardLink_works {most : ℕ} {r : Except FsError Unit} (hitem : item ∈ plan.items)
    (hw : Vacant at' plan src item n w) (hmost : n ≤ most)
    (h : at'.Tried clone dev (.hardLink (.host item.source) (joined item.destination)) r w w') :
    Working at' plan src item w.tree w'.tree ∧ Attempted at' plan src item most w' ∧
      ∀ e, r = .error e → Vacant at' plan src item n w' := by
  have hcopied := h.copied_eq fun _ _ => FsCall.noConfusion
  have hserves := h.serves
  have hmost' : w'.copied ≤ most := (hcopied.trans hw.copied).trans_le hmost
  rcases r with e | ⟨⟩
  · have halters : ∀ {place P D}, Alters place P
        (fun i => w.tree.node at'.scratchSrc = some (.file i)) D w.tree w'.tree := by
      intro place P D
      have htree : w'.tree = w.tree := hserves
      rw [htree]
      exact .refl _
    have hnothing : Alters none (fun _ => False)
        (fun i => w.tree.node at'.scratchSrc = some (.file i)) (fun _ => False) w.tree w'.tree :=
      halters
    have hvacant : Vacant at' plan src item n w' :=
      hw.alters hitem hnothing ⟨nofun, nofun⟩ ⟨nofun, id⟩ nofun hcopied
    obtain ⟨hworking, hattempted⟩ := hw.filled (P := fun _ => False) hitem halters nofun hmost'
    exact ⟨hworking, hattempted, fun _ _ => hvacant⟩
  · obtain ⟨place, x, d, m, hfree, hx, hplace, hnode, hdir, htree⟩ := hserves
    rw [hplace.unique (hw.apart.leads item hitem)] at hnode
    obtain ⟨i, rfl⟩ := (hw.apart.source item hitem x hnode).resolve_left hdir
    have halters : Alters (some (at'.stagedAt item)) (fun j => w.tree.node (src item) = some (.file j))
        (fun j => w.tree.node at'.scratchSrc = some (.file j)) (fun _ => False) w.tree w'.tree := by
      rw [htree, ← hw.free_eq hfree]
      exact alters_insert hnode
    obtain ⟨hworking, hattempted⟩ := hw.filled hitem halters (fun _ hj => hj) hmost'
    exact ⟨hworking, hattempted, nofun⟩

/-- A copy is a new file, of at most as many bytes as the source has. -/
theorem copy_works {most : ℕ} {r : Except FsError Unit} (hitem : item ∈ plan.items)
    (hw : Vacant at' plan src item n w) (hmost : n + item.length ≤ most)
    (h : at'.Tried clone dev (.copy (.host item.source) (joined item.destination)) r w w') :
    Working at' plan src item w.tree w'.tree ∧ Attempted at' plan src item most w' := by
  have hlength : ∀ i, at'.LeadsToFile w.tree (.host item.source) i →
      (w.tree.data i).bytes.length = item.length := fun i hi =>
    hw.source i (hw.apart.source_eq hitem hi)
  have hcopied : w'.copied ≤ n + item.length := by
    obtain ⟨k, hk, hcopied⟩ := h.copies
    rw [hcopied, hw.copied]
    refine Nat.add_le_add_left ?_ n
    rcases r with e | ⟨⟩
    · rcases hk with rfl | ⟨i, hi, hle⟩
      · exact Nat.zero_le _
      · exact hle.trans_eq (hlength i hi)
    · obtain ⟨i, hi, rfl⟩ := hk
      exact (hlength i hi).le
  refine hw.filled (P := fun _ => False) hitem ?_ nofun (hcopied.trans hmost)
  have hserves := h.serves
  rcases r with e | ⟨⟩
  · rcases hserves with htree | ⟨-, written, hopen⟩
    · rw [htree]
      exact .refl _
    · exact hw.opened hopen
  · obtain ⟨i, -, ⟨bytes, -, hopen⟩ | ⟨-, htree⟩⟩ := hserves
    · exact hw.opened hopen
    · rw [htree]
      exact .refl _

/-- What an attempt comes to, with the strategies still to be tried after it. -/
theorem attempt_works (strategy : MaterializationStrategy) (capabilities : DeviceCapabilities)
    (rest : List MaterializationStrategy) (hitem : item ∈ plan.items)
    (hw : Vacant at' plan src item n w) :
    (attempt l strategy (.host item.source) (joined item.destination) capabilities).Obeys
      (at'.trying clone dev (Working at' plan src item)) w fun r w' =>
        Attempted at' plan src item (n + mayCopy item.length capabilities (strategy :: rest)) w' ∧
        ∀ s reason, r = .error (.strategyUnavailable s reason) → Vacant at' plan src item n w' ∧
          mayCopy item.length capabilities (strategy :: rest) =
            mayCopy item.length capabilities rest := by
  have hmost : n ≤ n + mayCopy item.length capabilities (strategy :: rest) := Nat.le_add_right _ _
  have hrefused : Attempted at' plan src item
      (n + mayCopy item.length capabilities (strategy :: rest)) w := .of_vacant hw hmost
  cases strategy with
  | reflink =>
    rcases hcan : capabilities.reflink with - | reason
    · simp only [attempt, hcan, Sys.ask_bind]
      refine ⟨fun r w' h => (reflink_works hitem hw hmost h).1, fun r w' h => ?_⟩
      have hworks := (reflink_works hitem hw hmost h).2
      rcases r with e | ⟨⟩ <;> exact ⟨hworks, by simp⟩
    · simp only [attempt, hcan]
      refine ⟨hrefused, fun s why h => ⟨hw, ?_⟩⟩
      rw [mayCopy, if_neg]
      rw [hcan]
      simp
  | hardlink =>
    by_cases hcan : capabilities.canHardlink
    · simp only [attempt, hcan, if_true, Sys.ask_bind]
      refine ⟨fun r w' h => (hardLink_works hitem hw hmost h).1, fun r w' h => ?_⟩
      obtain ⟨-, hworks, hvacant⟩ := hardLink_works hitem hw hmost h
      rcases r with e | ⟨⟩
      · exact ⟨hworks, fun _ _ _ => ⟨hvacant e rfl, rfl⟩⟩
      · exact ⟨hworks, by simp⟩
    · simp only [attempt, hcan]
      exact ⟨hrefused, fun _ _ _ => ⟨hw, rfl⟩⟩
  | copy =>
    simp only [attempt, Sys.ask_bind]
    refine ⟨fun r w' h => (copy_works hitem hw le_rfl h).1, fun r w' h => ?_⟩
    have hworks := (copy_works hitem hw le_rfl h).2
    rcases r with e | ⟨⟩ <;> exact ⟨hworks, by simp⟩

theorem verifyStagedSize_works {most : ℕ} (hw : Attempted at' plan src item most w) :
    (verifyStagedSize l (joined item.destination) item.length).Obeys
      (at'.trying clone dev (Working at' plan src item)) w fun r w' =>
        w' = w ∧ (r = .ok () → at'.Staged w.tree item) := by
  rw [verifyStagedSize, Sys.ask_bind, Prog.obeys_call]
  refine ⟨fun r w' h => ?_, fun r w' h => ?_⟩
  · rw [h.metadata_eq]
    exact hw.apart.working
  have hw' := h.metadata_eq
  rcases r with e | m
  · exact ⟨hw', by simp⟩
  · dsimp only
    split_ifs with hlength
    · exact ⟨hw', by simp⟩
    · refine ⟨hw', fun _ => ?_⟩
      obtain ⟨place, hplace, hm⟩ := h.serves.2
      have hnoLink : w.tree.NoLink (at'.stagedAt item) := by
        intro a t hlink
        obtain ⟨i, hi⟩ := hw.file _ hlink
        cases hi
      rw [eq_stagedAt hplace hw.plain fun _ => hnoLink] at hm
      cases hnode : w.tree.node (at'.stagedAt item) with
      | none =>
        rw [Describes, hnode] at hm
        exact hm.elim
      | some x =>
        obtain ⟨i, rfl⟩ := hw.file x hnode
        rw [Describes, hnode] at hm
        exact ⟨i, hnode, hm.2.symm.trans (not_not.1 hlength)⟩

theorem attemptAll_works (capabilities : DeviceCapabilities) (hitem : item ∈ plan.items)
    (preference : List MaterializationStrategy) : ∀ {lastError w}, Vacant at' plan src item n w →
    (attemptAll l item (joined item.destination) capabilities preference lastError).Obeys
      (at'.trying clone dev (Working at' plan src item)) w fun r w' =>
        Worked at' plan src item r w' ∧
          w'.copied ≤ n + mayCopy item.length capabilities preference := by
  induction preference with
  | nil => exact fun hw => ⟨⟨hw.apart, nofun⟩, hw.copied.le⟩
  | cons strategy rest ih =>
    intro lastError w hw
    refine (attempt_works strategy capabilities rest hitem hw).bind fun r w₁ h₁ => ?_
    obtain ⟨hattempted, hunavailable⟩ := h₁
    rcases r with e | ⟨⟩
    · cases e with
      | strategyUnavailable s reason =>
        obtain ⟨hvacant, hmay⟩ := hunavailable s reason rfl
        rw [hmay]
        exact ih hvacant
      | _ => exact ⟨⟨hattempted.apart, nofun⟩, hattempted.copied⟩
    · refine (verifyStagedSize_works hattempted).bind fun r w₂ h₂ => ?_
      obtain ⟨rfl, hstaged⟩ := h₂
      rcases r with e | ⟨⟩
      · exact ⟨⟨hattempted.apart, nofun⟩, hattempted.copied⟩
      · refine ⟨⟨hattempted.apart, ?_⟩, hattempted.copied⟩
        rintro _ ⟨⟩
        exact ⟨hstaged rfl, rfl, rfl⟩

/-- What works between two devices is established once. -/
theorem probeDevices_learns (sourceDev stagingDev : ℕ) (probes : DeviceProbes) :
    (probeDevices sourceDev stagingDev probes).Returns fun r =>
      r.2 (sourceDev, stagingDev) = some r.1 ∧ Learns probes r.2 := by
  unfold probeDevices
  split
  · exact ⟨by assumption, fun _ _ h => h⟩
  · rename_i hnone
    refine (Prog.Returns.all _).bind fun capabilities _ => ?_
    refine ⟨Function.update_self .., fun k c hk => ?_⟩
    have hne : k ≠ (sourceDev, stagingDev) := by
      rintro rfl
      rw [hnone] at hk
      cases hk
    exact (Function.update_of_ne hne ..).trans hk

theorem materializeNew_works (preference : List MaterializationStrategy) (stagingDev : ℕ)
    (probes : DeviceProbes) (hitem : item ∈ plan.items) (hapart : at'.Apart plan src w.tree)
    (hplain : at'.Plain w.tree item.destination.parentComponents)
    (hfree : w.tree.node (at'.stagedAt item) = none) :
    (materializeNew l item (joined item.destination) preference stagingDev probes).Obeys
      (at'.trying clone dev (Working at' plan src item)) w fun r w' =>
        Worked at' plan src item r.1 w' ∧ Learns probes r.2 ∧
          ∀ capabilities, probes (dev (src item), stagingDev) = some capabilities →
            w'.copied ≤ w.copied + mayCopy item.length capabilities preference := by
  rw [materializeNew, Sys.ask_bind, Prog.obeys_call]
  refine ⟨fun r w' h => ?_, fun r w₁ h => ?_⟩
  · rw [h.look_eq]
    exact hapart.working
  obtain rfl := h.look_eq
  have hnothing : ∀ {e : StagingError}, Worked at' plan src item (.error e) w₁ := ⟨hapart, by simp⟩
  rcases h.look (hapart.leads item hitem) with ⟨m, rfl, hm, hdev⟩ | ⟨e, rfl, -⟩
  · dsimp only
    split_ifs with hlength
    · exact ⟨hnothing, .refl _, fun _ _ => Nat.le_add_right _ _⟩
    · have hw : Vacant at' plan src item w₁.copied w₁ := by
        refine ⟨hapart, hplain, hfree, fun i hi => ?_, rfl⟩
        rw [Describes, hi] at hm
        exact hm.2.symm.trans (not_not.1 hlength)
      refine (createEach_works hitem _ rfl hw).bind fun r w₂ h₂ => ?_
      rcases r with e | ⟨⟩
      · exact ⟨⟨h₂.apart, by simp⟩, .refl _, fun _ _ => h₂.copied.trans_le (Nat.le_add_right _ _)⟩
      · have hprobe : (probeDevices m.dev stagingDev probes).Obeys
            (at'.trying clone dev (Working at' plan src item)) w₂
            fun _ w' => Vacant at' plan src item w₁.copied w' :=
          (Vacant.untroubled hitem).obeys (probeDevices_only _ _ _) h₂
        refine (hprobe.and (probeDevices_learns _ _ _)).bind fun r w₃ h₃ => ?_
        obtain ⟨hvacant, hcached, hlearns⟩ := h₃
        refine (attemptAll_works r.1 hitem preference hvacant).bind fun staged w₄ h₄ => ?_
        refine ⟨h₄.1, hlearns, fun capabilities hknown => ?_⟩
        rw [hdev, hlearns _ _ hknown] at hcached
        rw [Option.some.inj hcached]
        exact h₄.2
  · exact ⟨hnothing, .refl _, fun _ _ => Nat.le_add_right _ _⟩

/-- A destination that is staged is left alone; what else stands in its place is taken out. -/
theorem materializeOne_works (preference : List MaterializationStrategy) (stagingDev : ℕ)
    (probes : DeviceProbes) (hitem : item ∈ plan.items) (hapart : at'.Apart plan src w.tree) :
    (materializeOne l item preference stagingDev probes).Obeys
      (at'.trying clone dev (Working at' plan src item)) w fun r w' =>
        Worked at' plan src item r.1 w' ∧ Learns probes r.2 ∧
          (at'.Staged w.tree item → w' = w) ∧
          ∀ capabilities, probes (dev (src item), stagingDev) = some capabilities →
            w'.copied ≤ w.copied + mayCopy item.length capabilities preference := by
  refine (resolveUnder_tried hapart.working item.destination).bind fun r w₁ h₁ => ?_
  obtain ⟨rfl, hr⟩ := h₁
  have hnothing : ∀ {e : StagingError}, Worked at' plan src item (.error e) w₁ := ⟨hapart, by simp⟩
  rcases r with e | destination
  · exact ⟨hnothing, .refl _, fun _ => rfl, fun _ _ => Nat.le_add_right _ _⟩
  obtain ⟨rfl, hplain⟩ := hr destination rfl
  dsimp only
  rw [Sys.ask_bind, Prog.obeys_call]
  refine ⟨fun r w' h => ?_, fun r w₂ h => ?_⟩
  · rw [h.look_eq]
    exact hapart.working
  obtain rfl := h.look_eq
  rcases look_joined h hplain with ⟨m, rfl, hm⟩ | ⟨e, rfl, hfree⟩
  · have hm' : Describes w₂.tree (at'.stagedAt item) m := hm
    dsimp only
    split_ifs with hlink hfile
    · exact ⟨hnothing, .refl _, fun _ => rfl, fun _ _ => Nat.le_add_right _ _⟩
    · have hstaged : at'.Staged w₂.tree item := (staged_iff_of_describes hm').2 hfile
      refine ⟨⟨hapart, ?_⟩, .refl _, fun _ => rfl, fun _ _ => Nat.le_add_right _ _⟩
      rintro _ ⟨⟩
      exact ⟨hstaged, rfl, hfile.2⟩
    · have hunstaged : ¬at'.Staged w₂.tree item := fun h =>
        hfile ((staged_iff_of_describes hm').1 h)
      have hnoLink : w₂.tree.NoLink (at'.stagedAt item) := by
        intro a t hnode
        rw [Describes, hnode] at hm'
        exact hlink hm'
      rw [Sys.ask_bind, Prog.obeys_call]
      have hremoved : ∀ {r w'}, at'.Tried clone dev (.removeFile (joined item.destination)) r w₂ w' →
          Works at' plan src item (some (at'.stagedAt item)) (fun _ => False) (fun _ => False)
              w₂.tree w'.tree ∨ w'.tree = w₂.tree := by
        intro r w' h
        have hserves := h.serves
        rcases r with e | ⟨⟩
        · exact .inr hserves
        · obtain ⟨place, hplace, hleads, -, htree⟩ := hserves
          obtain rfl : place = at'.stagedAt item := eq_stagedAt hleads hplain (by simp)
          refine .inl ⟨htree ▸ alters_unlink, ⟨?_, by simp⟩, ?_⟩
          · rintro _ ⟨⟩
            exact ⟨hplace, hnoLink⟩
          · rintro _ ⟨⟩
            exact .inr (.inr ⟨rfl, hunstaged⟩)
      refine ⟨fun r w' h => ?_, fun r w₃ h => ?_⟩
      · rcases hremoved h with hworks | htree
        · exact ⟨hapart, .work hworks⟩
        · rw [htree]
          exact hapart.working
      · have hcopied := h.copied_eq fun _ _ => FsCall.noConfusion
        have hapart₃ : at'.Apart plan src w₃.tree := by
          rcases hremoved h with hworks | htree
          · exact hapart.alters hworks.alters hworks.harmless
          · exact htree ▸ hapart
        rcases r with e | ⟨⟩
        · exact ⟨⟨hapart₃, by simp⟩, .refl _, fun hstaged => absurd hstaged hunstaged,
            fun _ _ => hcopied.trans_le (Nat.le_add_right _ _)⟩
        · -- the leftover is gone
          have hgrows : Grows w₂.tree w₃.tree := h.serves.grows fun _ _ => FsCall.noConfusion
          have hfree : w₃.tree.node (at'.stagedAt item) = none := by
            obtain ⟨place, hplace, hleads, -, htree⟩ := h.serves
            rw [htree, ← eq_stagedAt hleads hplain (by simp)]
            exact unlink_self
          refine (materializeNew_works preference stagingDev probes hitem hapart₃
            (hplain.grows hgrows) hfree).mono fun r w₄ h₄ => ?_
          rw [hcopied] at h₄
          exact ⟨h₄.1, h₄.2.1, fun hstaged => absurd hstaged hunstaged, h₄.2.2⟩
  · have hunstaged : ¬at'.Staged w₂.tree item := by
      rintro ⟨i, hi, -⟩
      have hnone : w₂.tree.node (at'.stagedAt item) = none := hfree
      rw [hnone] at hi
      cases hi
    refine (materializeNew_works preference stagingDev probes hitem hapart hplain hfree).mono
      fun r w₃ h₃ => ?_
    exact ⟨h₃.1, h₃.2.1, fun hstaged => absurd hstaged hunstaged, h₃.2.2⟩

end Staging

/-! ## What stays as it is -/

namespace Place

variable {at' : Place} {plan : MaterializationPlan} {src : PlanItem → List FileName}
  {item other : PlanItem} {fs fs' fs₀ : FileTree FileName} {w w' : Trial}
  {K : FileTree FileName → FileTree FileName → Prop}

/-- Destinations are told apart by their places. -/
theorem destination_of_stagedAt (h : at'.stagedAt other = at'.stagedAt item) :
    other.destination = item.destination := by
  have hnames : splitParts other.destination.str = splitParts item.destination.str :=
    List.map_injective_iff.2 (fun _ _ => bytes_ofString_inj) (List.append_cancel_left h)
  apply SafeRelativePath.ext_str
  rw [other.destination.parts_spec.2.2, hnames, ← item.destination.parts_spec.2.2]

/-- The work on an item leaves every other destination that is staged, and the same one too if it is
    of the same length. -/
theorem Working.kept (h : Working at' plan src item fs fs') (hother : other ∈ plan.items)
    (hstaged : at'.Staged fs other)
    (hsame : other.destination = item.destination → other.length = item.length) :
    fs'.node (at'.stagedAt other) = fs.node (at'.stagedAt other) ∧
      ∀ i, fs.node (at'.stagedAt other) = some (.file i) → fs'.data i = fs.data i := by
  obtain ⟨hapart, hprobe | @⟨place, P, D, hwork⟩⟩ := h
  · exact hprobe.kept hapart hother (.inr rfl)
  · obtain ⟨i, hi, hlength⟩ := hstaged
    have hplace : place ≠ some (at'.stagedAt other) := by
      intro hplace
      obtain ⟨hsrc, hdst⟩ := hapart.elsewhere other hother _ (.inr rfl)
      rcases hwork.target _ hplace with he | he | ⟨he, hunstaged⟩
      · exact hsrc he
      · exact hdst he
      · refine hunstaged ⟨i, he ▸ hi, hlength.trans ?_⟩
        exact hsame (destination_of_stagedAt he)
    refine ⟨(hwork.alters.kept _ _ hi hplace).trans hi.symm, fun j hj => ?_⟩
    exact hwork.alters.data j (fs.used hj) fun hscratch =>
      hapart.alone j hscratch other hother _ (.inr rfl) hj

theorem Working.staged (h : Working at' plan src item fs fs') (hother : other ∈ plan.items)
    (hstaged : at'.Staged fs other)
    (hsame : other.destination = item.destination → other.length = item.length) :
    at'.Staged fs' other := by
  obtain ⟨hnode, hdata⟩ := h.kept hother hstaged hsame
  obtain ⟨i, hi, hlength⟩ := hstaged
  exact ⟨i, hnode.trans hi, by rw [hdata i hi, hlength]⟩

/-- Sources and destinations are as they were. -/
def Same (at' : Place) (plan : MaterializationPlan) (src : PlanItem → List FileName)
    (fs₀ fs : FileTree FileName) : Prop :=
  ∀ item ∈ plan.items, ∀ l, l = src item ∨ l = at'.stagedAt item →
    fs.node l = fs₀.node l ∧ ∀ i, fs₀.node l = some (.file i) → fs.data i = fs₀.data i

theorem Same.refl (fs : FileTree FileName) : Same at' plan src fs fs :=
  fun _ _ _ _ => ⟨rfl, fun _ _ => rfl⟩

theorem Same.probed {place : Option (List FileName)} (h : Same at' plan src fs₀ fs)
    (hapart : at'.Apart plan src fs) (hp : Probed at' place fs fs') : Same at' plan src fs₀ fs' := by
  intro item hitem l hl
  obtain ⟨hnode, hdata⟩ := h item hitem l hl
  obtain ⟨hnode', hdata'⟩ := hp.kept hapart hitem hl
  exact ⟨hnode'.trans hnode, fun i hi => (hdata' i (hnode.trans hi)).trans (hdata i hi)⟩

theorem Same.staged_iff (h : Same at' plan src fs₀ fs) (hitem : item ∈ plan.items) :
    at'.Staged fs item ↔ at'.Staged fs₀ item := by
  obtain ⟨hnode, hdata⟩ := h item hitem _ (.inr rfl)
  unfold Staged
  rw [hnode]
  refine exists_congr fun i => and_congr_right fun hi => ?_
  rw [hdata i hi]

/-- Before anything is staged. -/
structure Idle (at' : Place) (plan : MaterializationPlan) (src : PlanItem → List FileName)
    (fs₀ : FileTree FileName) (copied : ℕ) (w : Trial) : Prop where
  apart : at'.Apart plan src w.tree
  same : Same at' plan src fs₀ w.tree
  copied : w.copied = copied

theorem Idle.untroubled {n : ℕ} (hK : ∀ {fs fs' place}, at'.Apart plan src fs →
    Probed at' place fs fs' → K fs fs') :
    Staging.Untroubled at' K plan src (Idle at' plan src fs₀ n) where
  apart h := h.apart
  allowed h hp := hK h.apart hp
  kept h hp hcopied := ⟨h.apart.probed hp, h.same.probed h.apart hp, hcopied.trans h.copied⟩

end Place

end SeedMedic
