/-
  The bytes a materialization copies against the bytes it is found to need.
-/
import Mathlib.Algebra.Order.BigOperators.Group.List
import SeedMedic.Repair.Policy
import SeedMedic.Staging.Errors
import SeedMedic.Staging.Progress

namespace SeedMedic

open Lib FileTree Staging

/-! ## What a plan is found to need -/

namespace Staging

/-- What is found out before anything is staged. -/
structure Assessment where
  stagingDev : ℕ
  reflink : Option ReflinkSupport
  needed : ℕ

variable (l : LocalStaging)

/-- The part of a materialization up to the bytes that it needs. -/
def assess (plan : MaterializationPlan) (preference : List MaterializationStrategy)
    (probes : DeviceProbes) : Sys (Except StagingError Assessment × DeviceProbes) := do
  match ← deviceId l with
  | .error e => pure (.error e, probes)
  | .ok stagingDev =>
    let (reflink, probes) ← planReflinkProbe plan.items preference stagingDev probes
    let (needed, probes) ← requiredNewBytes l preference stagingDev plan.items 0 probes
    pure (needed.map (⟨stagingDev, reflink, ·⟩), probes)

/-- The part of a materialization from there on. -/
def stage (plan : MaterializationPlan) (preference : List MaterializationStrategy)
    (found : Assessment) (probes : DeviceProbes) :
    Sys (Except StagingError StagedLayout × DeviceProbes) := do
  match ← checkSpace l found.needed with
  | .error e => pure (.error e, probes)
  | .ok () =>
    let (files, probes) ← materializeAll l preference found.stagingDev plan.items probes
    pure (files.map fun files => ⟨files, found.reflink⟩, probes)

theorem materialize_eq (plan : MaterializationPlan) (preference : List MaterializationStrategy)
    (probes : DeviceProbes) : materialize l plan preference probes = (do
      let (found, probes) ← assess l plan preference probes
      match found with
      | .error e => pure (.error e, probes)
      | .ok found => stage l plan preference found probes) := by
  unfold materialize assess
  rw [Prog.bind_assoc]
  congr 1
  funext r
  rcases r with e | stagingDev
  · rfl
  · dsimp only
    rw [Prog.bind_assoc]
    congr 1
    funext r
    rw [Prog.bind_assoc]
    congr 1
    funext r
    obtain ⟨needed, probes₃⟩ := r
    rcases needed with e | needed <;> rfl

end Staging

namespace Place

variable {at' : Place} {clone : Reflink at'} {dev : List FileName → ℕ}
  {K : FileTree FileName → FileTree FileName → Prop} {plan : MaterializationPlan}
  {src : PlanItem → List FileName} {fs₀ : FileTree FileName} {w : Trial} {n : ℕ}

open Classical in
/-- What an item costs by a table of what the devices can do. -/
noncomputable def predicted (at' : Place) (src : PlanItem → List FileName)
    (dev : List FileName → ℕ) (fs : FileTree FileName)
    (preference : List MaterializationStrategy) (stagingDev : ℕ) (probes : DeviceProbes)
    (item : PlanItem) : ℕ :=
  if at'.Staged fs item then 0
  else (probes (dev (src item), stagingDev)).elim item.length fun capabilities =>
    costBy item.length capabilities preference

/-- What a list of items is found to need, on top of a total, unless it is more than a word holds. -/
structure Priced (at' : Place) (src : PlanItem → List FileName) (dev : List FileName → ℕ)
    (fs : FileTree FileName) (preference : List MaterializationStrategy) (stagingDev : ℕ)
    (probes : DeviceProbes) (items : List PlanItem) (total needed : ℕ) : Prop where
  known : ∀ item ∈ items, ¬at'.Staged fs item →
    ∃ capabilities, probes (dev (src item), stagingDev) = some capabilities
  sum : total + (items.map (predicted at' src dev fs preference stagingDev probes)).sum < wordSize →
    needed = total + (items.map (predicted at' src dev fs preference stagingDev probes)).sum

end Place

namespace Staging

open Place

variable {at' : Place} {clone : Reflink at'} {dev : List FileName → ℕ}
  {K : FileTree FileName → FileTree FileName → Prop} {plan : MaterializationPlan}
  {src : PlanItem → List FileName} {fs₀ : FileTree FileName} {item : PlanItem} {w : Trial} {n : ℕ}
  {l : LocalStaging}

theorem alreadyStaged_tried (hK : K w.tree w.tree)
    (hplain : at'.Plain w.tree item.destination.parentComponents) :
    (alreadyStaged (joined item.destination) item.length).Obeys (at'.trying clone dev K) w
      fun staged w' => w' = w ∧ (staged = true ↔ at'.Staged w.tree item) := by
  rw [alreadyStaged, Sys.ask_bind, Prog.obeys_call]
  refine ⟨fun r w' h => ?_, fun r w' h => ?_⟩
  · rw [h.look_eq]
    exact hK
  · have hw' := h.look_eq
    rcases look_joined h hplain with ⟨m, rfl, hm⟩ | ⟨e, rfl, hfree⟩
    · exact ⟨hw', decide_eq_true_iff.trans (staged_iff_of_describes hm).symm⟩
    · refine ⟨hw', iff_of_false Bool.false_ne_true ?_⟩
      rintro ⟨i, hi, -⟩
      have hnone : w.tree.node (at'.stagedAt item) = none := hfree
      rw [hnone] at hi
      cases hi

theorem saturatingAdd_eq {a b : ℕ} (h : a + b < wordSize) : LocalStaging.saturatingAdd a b = a + b :=
  min_eq_left (Nat.le_sub_one_of_lt h)

/-- What is needed is the sum of what the items cost. -/
theorem requiredNewBytes_priced (preference : List MaterializationStrategy) (stagingDev : ℕ)
    (hK : ∀ {fs fs' place}, at'.Apart plan src fs → Probed at' place fs fs' → K fs fs')
    (hregular : ∀ item ∈ plan.items, ∃ i, fs₀.node (src item) = some (.file i))
    (items : List PlanItem) (hitems : items ⊆ plan.items) : ∀ {total probes w},
    at'.Idle plan src fs₀ n w →
    (requiredNewBytes l preference stagingDev items total probes).Obeys (at'.trying clone dev K) w
      fun r w' => at'.Idle plan src fs₀ n w' ∧ Learns probes r.2 ∧
        ∀ needed, r.1 = .ok needed →
          Priced at' src dev fs₀ preference stagingDev r.2 items total needed := by
  induction items with
  | nil =>
    intro total probes w hw
    refine ⟨hw, .refl _, ?_⟩
    rintro _ ⟨⟩
    exact ⟨nofun, fun _ => rfl⟩
  | cons item items ih =>
    intro total probes w hw
    have hitem : item ∈ plan.items := hitems (List.mem_cons_self ..)
    have hlook : ∀ {w}, at'.Idle plan src fs₀ n w → K w.tree w.tree := fun hw =>
      hK hw.apart (probed_refl _)
    refine (resolveUnder_tried (hlook hw) item.destination).bind fun r w₁ h₁ => ?_
    obtain ⟨rfl, hr⟩ := h₁
    rcases r with e | destination
    · exact ⟨hw, .refl _, nofun⟩
    obtain ⟨rfl, hplain⟩ := hr destination rfl
    refine (alreadyStaged_tried (hlook hw) hplain).bind fun staged w₂ h₂ => ?_
    obtain ⟨rfl, hstaged⟩ := h₂
    rw [hw.same.staged_iff hitem] at hstaged
    split_ifs with hs
    · -- it costs nothing
      refine (ih (List.subset_of_cons_subset hitems) hw).mono fun r w₃ h₃ => ?_
      refine ⟨h₃.1, h₃.2.1, fun needed hneeded => ?_⟩
      obtain ⟨hknown, hsum⟩ := h₃.2.2 needed hneeded
      have hfree : predicted at' src dev fs₀ preference stagingDev r.2 item = 0 :=
        if_pos (hstaged.1 hs)
      refine ⟨?_, ?_⟩
      · rintro other (_ | ⟨_, hother⟩) hunstaged
        · exact absurd (hstaged.1 hs) hunstaged
        · exact hknown other hother hunstaged
      · rw [List.map_cons, List.sum_cons, hfree, Nat.zero_add]
        exact hsum
    · have hunstaged : ¬at'.Staged fs₀ item := fun h => hs (hstaged.2 h)
      rw [Sys.ask_bind, Prog.obeys_call]
      refine ⟨fun r w' h => ?_, fun r w₃ h => ?_⟩
      · rw [h.metadata_eq]
        exact hlook hw
      obtain rfl := h.metadata_eq
      -- the source is a file, and found
      obtain ⟨i, hi⟩ := hregular item hitem
      have hnode : w₃.tree.node (src item) = some (.file i) :=
        (hw.same item hitem _ (.inl rfl)).1.trans hi
      rcases h.follow (hw.apart.follows hitem) with ⟨m, rfl, -, hdev⟩ | ⟨e, rfl, hnone⟩
      · have hprobe : (probeDevices m.dev stagingDev probes).Obeys (at'.trying clone dev K) w₃
            fun _ w' => at'.Idle plan src fs₀ n w' :=
          (Place.Idle.untroubled hK).obeys (probeDevices_only _ _ _) hw
        refine Prog.obeys_bind.2 ?_
        refine (hprobe.and (probeDevices_learns _ _ _)).bind fun r w₄ h₄ => ?_
        obtain ⟨hidle, hcached, hlearns⟩ := h₄
        rw [hdev] at hcached
        refine (ih (List.subset_of_cons_subset hitems) hidle).mono fun r' w₅ h₅ => ?_
        refine ⟨h₅.1, hlearns.trans h₅.2.1, fun needed hneeded => ?_⟩
        obtain ⟨hknown, hsum⟩ := h₅.2.2 needed hneeded
        have hcached' := h₅.2.1 _ _ hcached
        have hcost : predicted at' src dev fs₀ preference stagingDev r'.2 item =
            costBy item.length r.1 preference := by
          rw [predicted, if_neg hunstaged, hcached']
          rfl
        refine ⟨?_, fun hlt => ?_⟩
        · rintro other (_ | ⟨_, hother⟩) hunstaged
          · exact ⟨_, hcached'⟩
          · exact hknown other hother hunstaged
        · rw [List.map_cons, List.sum_cons, hcost] at hlt ⊢
          have hadd : LocalStaging.saturatingAdd total (costBy item.length r.1 preference) =
              total + costBy item.length r.1 preference := saturatingAdd_eq (by omega)
          rw [hadd] at hsum
          rw [hsum (by omega)]
          omega
      · rw [hnode] at hnone
        cases hnone

/-- A policy has nothing copied that was found to cost less: a hardlink that fails at last is not
    followed by a copy. -/
theorem mayCopy_le_costBy (policy : MaterializationPolicy) (length : ℕ)
    (capabilities : DeviceCapabilities) :
    mayCopy length capabilities policy.preference ≤ costBy length capabilities policy.preference := by
  obtain ⟨reflink, hardlink, copy⟩ := policy
  -- nothing comes after a copy but a hardlink, which is not copied
  have hrest : mayCopy length capabilities
        ((if copy then [.copy] else []) ++ if hardlink then [.hardlink] else []) ≤
      costBy length capabilities
        ((if copy then [.copy] else []) ++ if hardlink then [.hardlink] else []) := by
    cases copy <;> cases hardlink <;> simp [mayCopy, costBy]
  cases reflink with
  | false => exact hrest
  | true =>
    by_cases hcan : capabilities.reflink = .supported
    · simp [MaterializationPolicy.preference, mayCopy, hcan]
    · simpa [MaterializationPolicy.preference, mayCopy, costBy, hcan] using hrest

/-- No item copies more than its cost, where those that cost nothing stay staged to their turn. -/
theorem materializeAll_within (S : PlanItem → Prop) (cost : PlanItem → ℕ)
    (preference : List MaterializationStrategy) (stagingDev : ℕ) (items : List PlanItem)
    (hitems : items ⊆ plan.items)
    (hpair : items.Pairwise fun a b => S b → b.destination = a.destination → b.length = a.length) :
    ∀ {probes w}, at'.Apart plan src w.tree → (∀ item ∈ items, S item → at'.Staged w.tree item) →
      (∀ item ∈ items, ¬S item → ∃ capabilities,
        probes (dev (src item), stagingDev) = some capabilities ∧
          mayCopy item.length capabilities preference ≤ cost item) →
      (materializeAll l preference stagingDev items probes).Obeys
        (at'.trying clone dev fun _ _ => True) w fun _ w' =>
          w'.copied ≤ w.copied + (items.map cost).sum := by
  induction items with
  | nil => exact fun _ _ _ => Nat.le_add_right _ _
  | cons item items ih =>
    intro probes w hapart hstaged hcost
    obtain ⟨hfirst, hrest⟩ := List.pairwise_cons.1 hpair
    have hitem : item ∈ plan.items := hitems (List.mem_cons_self ..)
    have hone : (materializeOne l item preference stagingDev probes).Obeys
        (at'.trying clone dev (Working at' plan src item)) w _ :=
      materializeOne_works preference stagingDev probes hitem hapart
    -- what comes later and was staged at the start still is
    have hlater := trying_keeps (I := fun fs => ∀ other ∈ items, S other → at'.Staged fs other) hone
      (fun other hother => hstaged other (List.mem_cons_of_mem _ hother))
      fun {fs fs'} hworking hI other hother hS => hworking.staged
        (hitems (List.mem_cons_of_mem _ hother)) (hI other hother hS) (hfirst other hother hS)
    refine (trying_mono hlater fun _ => trivial).bind fun r w₁ h₁ => ?_
    obtain ⟨⟨hworked, hlearns, hleft, hcopied⟩, hstaged₁⟩ := h₁
    have hless : w₁.copied ≤ w.copied + cost item := by
      by_cases hS : S item
      · rw [hleft (hstaged item (List.mem_cons_self ..) hS)]
        exact Nat.le_add_right _ _
      · obtain ⟨capabilities, hknown, hmay⟩ := hcost item (List.mem_cons_self ..) hS
        exact (hcopied capabilities hknown).trans (Nat.add_le_add_left hmay _)
    rw [List.map_cons, List.sum_cons]
    obtain ⟨staged, probes₁⟩ := r
    rcases staged with e | file
    · change w₁.copied ≤ _
      omega
    · have hcost₁ : ∀ other ∈ items, ¬S other → ∃ capabilities,
          probes₁ (dev (src other), stagingDev) = some capabilities ∧
            mayCopy other.length capabilities preference ≤ cost other := by
        intro other hother hS
        obtain ⟨capabilities, hknown, hmay⟩ := hcost other (List.mem_cons_of_mem _ hother) hS
        exact ⟨capabilities, hlearns _ _ hknown, hmay⟩
      refine (ih (List.subset_of_cons_subset hitems) hrest hworked.apart hstaged₁ hcost₁).bind
        fun r w₂ h₂ => ?_
      change w₂.copied ≤ _
      omega

theorem costBy_le (length : ℕ) (capabilities : DeviceCapabilities)
    (preference : List MaterializationStrategy) : costBy length capabilities preference ≤ length := by
  induction preference with
  | nil => exact le_rfl
  | cons strategy rest ih =>
    cases strategy with
    | copy => exact le_rfl
    | reflink | hardlink =>
      rw [costBy]
      split_ifs
      · exact Nat.zero_le _
      · exact ih

theorem predicted_le (fs : FileTree FileName) (preference : List MaterializationStrategy)
    (stagingDev : ℕ) (probes : DeviceProbes) (item : PlanItem) :
    predicted at' src dev fs preference stagingDev probes item ≤ item.length := by
  unfold predicted
  split_ifs
  · exact Nat.zero_le _
  · cases probes (dev (src item), stagingDev) with
    | none => exact le_rfl
    | some capabilities => exact costBy_le _ _ _

theorem assess_only (l : LocalStaging) (plan : MaterializationPlan)
    (preference : List MaterializationStrategy) (probes : DeviceProbes) :
    (assess l plan preference probes).Only ProbeCall := by
  refine (deviceId_only l).bind fun r => ?_
  rcases r with e | stagingDev
  · trivial
  · refine (planReflinkProbe_only _ _ _ _).bind fun r => ?_
    exact (requiredNewBytes_only l _ _ _ _ _).bind fun _ => Prog.only_ret.2 trivial

theorem assess_roomy (l : LocalStaging) (plan : MaterializationPlan)
    (preference : List MaterializationStrategy) (probes : DeviceProbes) :
    (assess l plan preference probes).Returns fun r => Roomy r.1 := by
  refine (deviceId_usual l).bind fun r hr => ?_
  rcases r with e | stagingDev
  · exact hr.of_error.roomy
  refine (Prog.Returns.all _).bind fun r _ => ?_
  refine (requiredNewBytes_usual l _ _ _ _ _).bind fun r hr => ?_
  obtain ⟨needed, probes₂⟩ := r
  rcases needed with e | needed
  · exact hr.of_error.roomy
  · nofun

theorem assess_priced (preference : List MaterializationStrategy) (probes : DeviceProbes)
    (hK : ∀ {fs fs' place}, at'.Apart plan src fs → Probed at' place fs fs' → K fs fs')
    (hregular : ∀ item ∈ plan.items, ∃ i, fs₀.node (src item) = some (.file i))
    (hw : at'.Idle plan src fs₀ n w) :
    (assess l plan preference probes).Obeys (at'.trying clone dev K) w fun r w' =>
      at'.Idle plan src fs₀ n w' ∧ ∀ found, r.1 = .ok found →
        Priced at' src dev fs₀ preference found.stagingDev r.2 plan.items 0 found.needed := by
  have hidle : Untroubled at' K plan src (at'.Idle plan src fs₀ n) := Place.Idle.untroubled hK
  refine (hidle.obeys (deviceId_only l) hw).bind fun r w₁ h₁ => ?_
  rcases r with e | stagingDev
  · exact ⟨h₁, nofun⟩
  refine (hidle.obeys (planReflinkProbe_only _ _ _ _) h₁).bind fun r w₂ h₂ => ?_
  refine (requiredNewBytes_priced preference stagingDev hK hregular plan.items
    (List.Subset.refl _) h₂).bind fun r w₃ h₃ => ?_
  obtain ⟨needed, probes₃⟩ := r
  refine ⟨h₃.1, fun found hfound => ?_⟩
  rcases needed with e | needed
  · cases hfound
  · cases hfound
    exact h₃.2.2 needed rfl

/-- The probe is kept apart and every source is a file; no staged destination is that of an earlier
    item of another length too, and the lengths add up to what a word holds. -/
structure Accountable (at' : Place) (plan : MaterializationPlan) (src : PlanItem → List FileName)
    (fs : FileTree FileName) : Prop where
  apart : at'.Apart plan src fs
  regular : ∀ item ∈ plan.items, ∃ i, fs.node (src item) = some (.file i)
  replaced : plan.items.Pairwise fun a b => at'.Staged fs b → b.destination = a.destination →
    b.length = a.length
  total : (plan.items.map (·.length)).sum < wordSize

end Staging

theorem onePlan_apart :
    besideLibrary.Apart onePlan (fun _ => libraryEpisode) stagingBesideLibrary where
  root := rfl
  leads item hitem := by
    rw [List.mem_singleton.1 hitem]
    exact .down rfl (.last nofun)
  source _ _ x hx := .inr ⟨0, (Option.some.inj hx).symm⟩
  noLink := ⟨nofun, nofun⟩
  elsewhere item hitem l hl := by
    rw [List.mem_singleton.1 hitem] at hl
    rcases hl with rfl | rfl <;> decide
  alone := nofun

theorem onePlan_accountable :
    Accountable besideLibrary onePlan (fun _ => libraryEpisode) stagingBesideLibrary where
  apart := onePlan_apart
  regular _ _ := ⟨0, rfl⟩
  replaced := List.pairwise_singleton _ _
  total := by decide

def reflinkOrCopy : MaterializationPolicy := ⟨true, false, true⟩

/-- The file of the library, staged where the probe writes. -/
def scratchStaged : FileTree FileName :=
  stagingBesideLibrary.create [fileName "staging"] (fileName ".seedmedic-reflink-probe-src") [1]
    staging_is_dir scratch_free

def scratchPlan : MaterializationPlan :=
  ⟨[⟨.ofString "/library/e01.mkv", .ofComponent ".seedmedic-reflink-probe-src" rfl, 1, none⟩]⟩

def reflinkOnly : MaterializationPolicy := ⟨true, false, false⟩

/-- The place that the probe writes to. -/
theorem leads_scratch {follow : Bool} {fs : FileTree FileName}
    (h : fs.NoLink besideLibrary.scratchSrc) :
    besideLibrary.LeadsTo follow fs probeSrc besideLibrary.scratchSrc :=
  .last fun _ => h

end SeedMedic
