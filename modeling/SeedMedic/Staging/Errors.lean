/-
  How the parts of a materialization fail: with what errors they can return.
-/
import SeedMedic.Lib.Hoare
import SeedMedic.Staging.Syscalls

namespace SeedMedic

open Lib

/-- Whether an error says neither that a source is not as it was nor that there is no space. -/
def StagingError.isUsual : StagingError → Bool
  | .sourceMissing _ | .sourceChanged .. | .insufficientSpace .. => false
  | _ => true

/-- If it fails, then neither because of a source nor for want of space. -/
def Usual {α : Type} (r : Except StagingError α) : Prop := ∀ e, r = .error e → e.isUsual = true

section
variable {α : Type}

theorem usual_ok (a : α) : Usual (.ok a) := nofun

theorem usual_error {e : StagingError} (h : e.isUsual = true) :
    Usual (.error e : Except StagingError α) := by
  rintro _ ⟨⟩
  exact h

/-- If it fails, then not for want of space. -/
def Roomy {α : Type} (r : Except StagingError α) : Prop :=
  ∀ needed available margin, r ≠ .error (.insufficientSpace needed available margin)

theorem Usual.of_error {β : Type} {e : StagingError}
    (h : Usual (.error e : Except StagingError α)) : Usual (.error e : Except StagingError β) :=
  usual_error (h e rfl)

theorem Usual.roomy {r : Except StagingError α} (h : Usual r) : Roomy r :=
  fun _ _ _ he => absurd (h _ he) nofun

theorem Roomy.of_error {β : Type} {e : StagingError}
    (h : Roomy (.error e : Except StagingError α)) : Roomy (.error e : Except StagingError β) := by
  rintro needed available margin ⟨⟩
  exact h _ _ _ rfl

end

namespace Staging

variable (l : LocalStaging)

theorem rejectIfSymlink_usual (p : FsPath) : (rejectIfSymlink l p).Returns Usual := by
  rw [rejectIfSymlink, Sys.ask_bind, Prog.returns_call]
  intro r
  rcases r with e | m
  · dsimp only
    split_ifs
    · exact usual_ok _
    · exact usual_error rfl
  · dsimp only
    split_ifs
    · exact usual_error rfl
    · exact usual_ok _

theorem rejectSymlinks_usual (components : List String) : ∀ current,
    (rejectSymlinks l current components).Returns Usual := by
  induction components with
  | nil => exact fun _ => usual_ok _
  | cons component components ih =>
    intro current
    refine (rejectIfSymlink_usual l _).bind fun r hr => ?_
    rcases r with e | ⟨⟩
    · exact hr
    · exact ih _

theorem resolveUnder_usual (path : SafeRelativePath) :
    (resolveUnder l path).Returns Usual := by
  refine (rejectIfSymlink_usual l _).bind fun r hr => ?_
  rcases r with e | ⟨⟩
  · exact hr.of_error
  · refine (rejectSymlinks_usual l _ _).bind fun r hr => ?_
    rcases r with e | ⟨⟩
    · exact hr.of_error
    · exact usual_ok _

theorem createEach_usual (components : List String) : ∀ current,
    (createEach l current components).Returns Usual := by
  induction components with
  | nil => exact fun _ => usual_ok _
  | cons component components ih =>
    intro current
    have hchecked : (createChecked l (.staged (current ++ [component]))).Returns Usual := by
      rw [createChecked, Sys.ask_bind, Prog.returns_call]
      intro r
      rcases r with e | ⟨⟩
      · dsimp only
        split_ifs
        · exact rejectIfSymlink_usual l _
        · exact usual_error rfl
      · exact rejectIfSymlink_usual l _
    refine hchecked.bind fun r hr => ?_
    rcases r with e | ⟨⟩
    · exact hr
    · exact ih _

theorem requiredNewBytes_usual (preference : List MaterializationStrategy) (stagingDev : ℕ)
    (items : List PlanItem) : ∀ total probes,
    (requiredNewBytes l preference stagingDev items total probes).Returns fun r => Usual r.1 := by
  induction items with
  | nil => exact fun _ _ => usual_ok _
  | cons item items ih =>
    intro total probes
    refine (resolveUnder_usual l _).bind fun r hr => ?_
    rcases r with e | destination
    · exact hr.of_error
    · refine (Prog.Returns.all _).bind fun staged _ => ?_
      split_ifs
      · exact ih _ _
      · rw [Sys.ask_bind, Prog.returns_call]
        intro r
        rcases r with e | m
        · exact ih _ _
        · exact (Prog.Returns.all _).bind fun _ _ => ih _ _

theorem attempt_usual (strategy : MaterializationStrategy) (source destination : FsPath)
    (capabilities : DeviceCapabilities) :
    (attempt l strategy source destination capabilities).Returns Usual := by
  cases strategy with
  | reflink =>
    unfold attempt
    dsimp only
    split
    · exact usual_error rfl
    · intro r
      rcases r with e | ⟨⟩
      · exact usual_error rfl
      · exact usual_ok _
  | hardlink =>
    unfold attempt
    dsimp only
    split_ifs
    · intro r
      rcases r with e | ⟨⟩
      · exact usual_error rfl
      · exact usual_ok _
    · exact usual_error rfl
  | copy =>
    intro r
    rcases r with e | ⟨⟩
    · exact usual_error rfl
    · exact usual_ok _

theorem verifyStagedSize_usual (destination : FsPath) (expected : ℕ) :
    (verifyStagedSize l destination expected).Returns Usual := by
  rw [verifyStagedSize, Sys.ask_bind, Prog.returns_call]
  intro r
  rcases r with e | m
  · exact usual_error rfl
  · dsimp only
    split_ifs
    · exact usual_error rfl
    · exact usual_ok _

theorem attemptAll_usual (item : PlanItem) (destination : FsPath)
    (capabilities : DeviceCapabilities) (preference : List MaterializationStrategy) :
    ∀ lastError : Option StagingError, (∀ e, lastError = some e → e.isUsual = true) →
      (attemptAll l item destination capabilities preference lastError).Returns Usual := by
  induction preference with
  | nil =>
    intro lastError hlast
    cases lastError with
    | none => exact usual_error rfl
    | some e => exact usual_error (hlast e rfl)
  | cons strategy rest ih =>
    intro lastError _
    refine (attempt_usual l strategy _ _ _).bind fun r hr => ?_
    rcases r with e | ⟨⟩
    · cases e with
      | strategyUnavailable s reason =>
        refine ih _ ?_
        rintro _ ⟨⟩
        rfl
      | _ => exact hr.of_error
    · refine (verifyStagedSize_usual l _ _).bind fun r hr => ?_
      rcases r with e | ⟨⟩
      · exact hr.of_error
      · exact usual_ok _

theorem deviceId_usual : (deviceId l).Returns Usual := by
  intro r
  rcases r with e | m
  · exact usual_error rfl
  · exact usual_ok _

/-! ## Work that never finds too little space -/

theorem materializeNew_roomy (item : PlanItem) (destination : FsPath)
    (preference : List MaterializationStrategy) (stagingDev : ℕ) (probes : DeviceProbes) :
    (materializeNew l item destination preference stagingDev probes).Returns fun r => Roomy r.1 := by
  rw [materializeNew, Sys.ask_bind, Prog.returns_call]
  intro r
  rcases r with e | source
  · nofun
  · dsimp only
    split_ifs
    · nofun
    · refine (createEach_usual l _ _).bind fun r hr => ?_
      rcases r with e | ⟨⟩
      · exact hr.of_error.roomy
      · refine (Prog.Returns.all _).bind fun r _ => ?_
        refine (attemptAll_usual l item _ _ _ none nofun).bind fun r hr => ?_
        exact hr.roomy

theorem materializeOne_roomy (item : PlanItem) (preference : List MaterializationStrategy)
    (stagingDev : ℕ) (probes : DeviceProbes) :
    (materializeOne l item preference stagingDev probes).Returns fun r => Roomy r.1 := by
  refine (resolveUnder_usual l item.destination).bind fun r hr => ?_
  rcases r with e | destination
  · exact hr.of_error.roomy
  dsimp only
  rw [Sys.ask_bind, Prog.returns_call]
  intro r
  rcases r with e | m
  · exact materializeNew_roomy l item destination preference stagingDev probes
  · dsimp only
    split_ifs
    · nofun
    · nofun
    · rw [Sys.ask_bind, Prog.returns_call]
      intro r
      rcases r with e | ⟨⟩
      · nofun
      · exact materializeNew_roomy l item destination preference stagingDev probes

theorem materializeAll_roomy (preference : List MaterializationStrategy) (stagingDev : ℕ)
    (items : List PlanItem) : ∀ probes,
    (materializeAll l preference stagingDev items probes).Returns fun r => Roomy r.1 := by
  induction items with
  | nil => exact fun _ => nofun
  | cons item items ih =>
    intro probes
    refine (materializeOne_roomy l item preference stagingDev probes).bind fun r hr => ?_
    obtain ⟨staged, probes₁⟩ := r
    rcases staged with e | file
    · exact hr.of_error
    · refine (ih probes₁).bind fun r hr => ?_
      obtain ⟨files, probes₂⟩ := r
      rcases files with e | files
      · exact hr.of_error
      · nofun

end Staging

end SeedMedic
