/-
  The configuration file under several operators and other programs at once (`config/write.rs`,
  `web/settings/mod.rs`): which version of it a save replaces.
-/
import SeedMedic.Web.Settings.Requests
import SeedMedic.Web.Settings.SaveAndReload
import Mathlib.Logic.Function.Basic
import Mathlib.Logic.Relation

namespace SeedMedic

open Lib

/-! ## The file and its versions -/

/-- The directory of the configuration file, with the number of changes the file has seen. -/
structure Versioned where
  dir : ConfigDir
  version : ℕ

/-- What a change of the file would be told by. -/
def Versioned.stamp (w : Versioned) : Option FileStamp := w.dir.config.map fun f => f.stat.stamp

/-- How a call may be answered, and what it leaves. -/
inductive Versioned.Serves (w : Versioned) : (c : FileCall) → c.Ans → Versioned → Prop
  | served (faults : ConfigDir.Faults) (c : FileCall) :
    Serves w c (ConfigDir.serve faults c w.dir).1
      ⟨(ConfigDir.serve faults c w.dir).2,
        if c.wrote (ConfigDir.serve faults c w.dir).1 then w.version + 1 else w.version⟩
  /-- A write that fails may have written a part. -/
  | torn (text e : String) (part : DiskFile) :
    Serves w (.writeAll text) (.error e) ⟨{ w.dir with config := some part }, w.version + 1⟩
  /-- Another file has been moved to where the one that is open was. -/
  | astray (text : String) (r : Except String Unit) : Serves w (.writeAll text) r w

/-- Calls that neither ask for the file nor write it. -/
def FileCall.isQuiet : FileCall → Bool
  | probeWritable | copyToBak | writeTemp _ | setPermissions _ | removeTemp => true
  | _ => false

theorem FileCall.wrote_quiet {c : FileCall} {r : c.Ans} (h : c.isQuiet = true) :
    c.wrote r = false := by
  cases c <;> first | rfl | cases h

theorem SavePhase.after_quiet {phase : SavePhase} {c : FileCall} {r : c.Ans}
    (h : c.isQuiet = true) : phase.after c r = phase := by
  cases phase with
  | stamped stamp => cases stamp <;> cases c <;> first | rfl | cases h
  | _ => cases c <;> first | rfl | cases h

theorem SavePhase.after_ne_fresh {phase : SavePhase} {c : FileCall} {r : c.Ans}
    (h : phase ≠ .fresh) : phase.after c r ≠ .fresh := by
  unfold after
  split <;> (try split_ifs) <;> simp_all

/-! ## Submissions side by side -/

/-- A request that has been sent from a page. -/
structure Submission where
  /-- The version the page was rendered from. -/
  page : ℕ
  /-- What it is still to do. -/
  prog : F (Option (Except Unsaved SaveOutcome))
  phase : SavePhase
  /-- The versions the file had when it wrote it. -/
  replaced : List ℕ
  /-- Whether it read another version than its page's, or the file changed unnoticed later on. -/
  missed : Bool

namespace Submission

/-- The request is refused, or still going, or has saved. -/
def Saved (s : Submission) : Prop := ∃ outcome, s.prog = .ret (some (.ok outcome))

/-- The version of its page is replaced: at once, or emptied first and then written. -/
def ReplacesPage (s : Submission) : Prop :=
  s.replaced = [s.page] ∨ s.replaced = [s.page, s.page + 1]

/-- A call of its own is answered, when the file has a version. -/
def answered (s : Submission) (version : ℕ) (c : FileCall)
    (k : c.Ans → F (Option (Except Unsaved SaveOutcome))) (r : c.Ans) : Submission where
  page := s.page
  prog := k r
  phase := s.phase.after c r
  replaced := if c.wrote r then s.replaced ++ [version] else s.replaced
  missed := s.missed || (s.phase = .fresh && s.phase.after c r = .texted && version ≠ s.page)

/-- Somebody else may have changed the file. -/
def beside (s : Submission) (w w' : Versioned) : Submission :=
  { s with missed := s.missed || (w'.version ≠ w.version && s.phase.misses w'.stamp) }

end Submission

/-- Operators with their pages, and other programs. -/
structure SettingsDesk (ι : Type) where
  file : Versioned
  /-- The versions that pages have been rendered from. -/
  pages : List ℕ
  submissions : ι → Option Submission

namespace SettingsDesk

variable {ι : Type} [DecidableEq ι]

inductive Step : SettingsDesk ι → SettingsDesk ι → Prop
  | render {w : SettingsDesk ι} : Step w { w with pages := w.file.version :: w.pages }
  | submit {w : SettingsDesk ι} {i : ι} {page : ℕ} (unused : w.submissions i = none)
      (rendered : page ∈ w.pages) (host : ConfigHost) (syn : TomlSyntax) (room : ℕ)
      (path : PathBuf) (request : SettingsRequest) :
    Step w { w with
      submissions := Function.update w.submissions i
        (some ⟨page, request.run host syn room path, .fresh, [], false⟩) }
  | call {w : SettingsDesk ι} {i : ι} {s : Submission} {c : FileCall}
      {k : c.Ans → F (Option (Except Unsaved SaveOutcome))} {r : c.Ans} {file : Versioned}
      (running : w.submissions i = some s) (next : s.prog = .call c k)
      (served : w.file.Serves c r file) :
    Step w { w with
      file
      submissions := Function.update (fun j => (w.submissions j).map (·.beside w.file file)) i
        (some (s.answered w.file.version c k r)) }
  /-- Another program changes the file. -/
  | edit {w : SettingsDesk ι} (dir : ConfigDir) :
    Step w { w with
      file := ⟨dir, w.file.version + 1⟩
      submissions := fun j =>
        (w.submissions j).map (·.beside w.file ⟨dir, w.file.version + 1⟩) }
  /-- Time passes, or something beside the file changes. -/
  | pass {w : SettingsDesk ι} (dir : ConfigDir) (same : dir.config = w.file.dir.config) :
    Step w { w with file := ⟨dir, w.file.version⟩ }

/-- What runs lead to from a directory. -/
def Reach (dir : ConfigDir) : SettingsDesk ι → Prop :=
  Relation.ReflTransGen Step ⟨⟨dir, 0⟩, [], fun _ => none⟩

end SettingsDesk

/-! ## What a call leaves of the file -/

namespace Versioned

variable {w w' : Versioned} {c : FileCall} {r : c.Ans}

theorem Serves.version_le (h : w.Serves c r w') : w.version ≤ w'.version := by
  cases h with
  | served faults =>
    dsimp only
    split_ifs <;> omega
  | torn => exact Nat.le_succ _
  | astray => exact le_rfl

end Versioned

namespace ConfigDir

variable {faults : Faults} {c : FileCall} {after : Option ConfigDir} {d : ConfigDir}

/-- The stamp that is told is the file's. -/
theorem serve_metadata {stat : FileStat} (h : (serve faults .metadata d).1 = .ok stat) :
    d.config.map DiskFile.stat = some stat := by
  simp only [serve] at h
  split at h
  · cases h
  · cases h
  next hconfig =>
    cases h
    rw [hconfig]
    rfl

end ConfigDir

namespace Versioned

variable {w w' : Versioned} {c : FileCall} {r : c.Ans}

/-- A call that leaves the version leaves the file. -/
theorem Serves.stamp_eq (h : w.Serves c r w') (hversion : w'.version = w.version) :
    w'.stamp = w.stamp := by
  cases h with
  | served faults =>
    dsimp only at hversion
    split_ifs at hversion with hwrote
    · omega
    · simp only [stamp, ConfigDir.serve_config (Bool.eq_false_iff.2 hwrote)]
  | torn => exact absurd hversion (Nat.succ_ne_self _)
  | astray => rfl

theorem Serves.version_eq (h : w.Serves c r w') (hwrite : ∀ text, c ≠ .writeAll text) :
    w'.version = if c.wrote r then w.version + 1 else w.version := by
  cases h with
  | served faults => rfl
  | torn text => exact absurd rfl (hwrite text)
  | astray text => exact absurd rfl (hwrite text)

theorem Serves.stamp_of_metadata {stat : FileStat} (h : w.Serves .metadata (.ok stat) w') :
    w.stamp = some stat.stamp := by
  generalize hr : (Except.ok stat : FileCall.Ans .metadata) = r at h
  cases h with
  | served faults =>
    obtain ⟨f, hf, hstat⟩ := Option.map_eq_some_iff.1 (ConfigDir.serve_metadata hr.symm)
    rw [stamp, hf, Option.map_some, hstat]

end Versioned

/-! ## What is true of a submission -/

namespace Submission

/-- What is true of a submission at each point of its way. -/
def Told (w : Versioned) (s : Submission) : Prop :=
  match s.phase with
  | .fresh => s.replaced = [] ∧ s.missed = false
  | .texted | .stamped none | .cleared =>
    s.replaced = [] ∧ (s.missed = false ↔ s.page = w.version)
  | .stamped (some stamp) => s.replaced = [] ∧
    (w.stamp = some stamp → s.missed = false → s.page = w.version) ∧
      (s.missed = true → s.page ≠ w.version)
  | .emptied => ∃ v, s.replaced = [v] ∧
    (s.missed = false ↔ v = s.page ∧ w.version = s.page + 1)
  | .replaced => s.ReplacesPage ↔ s.missed = false
  | .refused => True

structure Sound (w : Versioned) (s : Submission) : Prop where
  page : s.page ≤ w.version
  first : ∀ v, s.replaced.head? = some v → v < w.version
  obeys : s.prog.Obeys saving s.phase
    fun a phase => ∀ outcome, a = some (.ok outcome) → phase = .replaced
  told : s.Told w

variable {w w' : Versioned} {s : Submission} {c : FileCall} {r : c.Ans}
  {k : c.Ans → F (Option (Except Unsaved SaveOutcome))}

theorem Told.same (h : s.Told w) (hversion : w'.version = w.version)
    (hstamp : w'.stamp = w.stamp) : s.Told w' := by
  unfold Told at h ⊢
  rwa [hversion, hstamp]

theorem Sound.same (h : s.Sound w) (hversion : w'.version = w.version)
    (hstamp : w'.stamp = w.stamp) : s.Sound w' := by
  refine ⟨?_, ?_, h.obeys, h.told.same hversion hstamp⟩
  · rw [hversion]
    exact h.page
  · rw [hversion]
    exact h.first

/-- A change of the file goes unnoticed, or the check will tell it. -/
theorem Sound.beside (h : s.Sound w) (hle : w.version ≤ w'.version)
    (hsame : w'.version = w.version → w'.stamp = w.stamp) : (s.beside w w').Sound w' := by
  refine ⟨h.page.trans hle, fun v hv => (h.first v hv).trans_le hle, h.obeys, ?_⟩
  have htold := h.told
  by_cases hversion : w'.version = w.version
  · have hs : s.beside w w' = s := by simp [Submission.beside, hversion]
    rw [hs]
    exact htold.same hversion (hsame hversion)
  · have hpage := h.page
    have hfirst := h.first
    unfold Told Submission.beside at *
    dsimp only
    cases hphase : s.phase with
    | fresh => simpa [hphase, SavePhase.misses] using htold
    | texted =>
      simp only [hphase, SavePhase.misses] at htold ⊢
      refine ⟨htold.1, ?_⟩
      simp [hversion]
      omega
    | stamped stamp =>
      cases stamp with
      | none =>
        simp only [hphase, SavePhase.misses] at htold ⊢
        refine ⟨htold.1, ?_⟩
        simp [hversion]
        omega
      | some stamp =>
        simp only [hphase, SavePhase.misses] at htold ⊢
        refine ⟨htold.1, fun hstamp => ?_, fun _ => by omega⟩
        simp [hversion, hstamp]
    | cleared =>
      simp only [hphase, SavePhase.misses] at htold ⊢
      refine ⟨htold.1, ?_⟩
      simp [hversion]
      omega
    | emptied =>
      simp only [hphase, SavePhase.misses] at htold ⊢
      obtain ⟨v, hv, -⟩ := htold
      have hlt : v < w.version := hfirst v (by rw [hv]; rfl)
      refine ⟨v, hv, ?_⟩
      simp [hversion]
      omega
    | replaced => simpa [hphase, SavePhase.misses, ReplacesPage] using htold
    | refused => trivial

/-- A call that teaches nothing about the file and does nothing to it. -/
theorem Told.quiet (htold : s.Told w) (hserved : w.Serves c r w')
    (hwrite : ∀ text, c ≠ .writeAll text) (hafter : s.phase.after c r = s.phase)
    (hwrote : c.wrote r = false) : (s.answered w.version c k r).Told w' := by
  have hversion : w'.version = w.version := by simpa [hwrote] using hserved.version_eq hwrite
  have hmissed : (s.phase = .fresh && s.phase.after c r = .texted && w.version ≠ s.page) =
      false := by
    rw [hafter]
    cases s.phase <;> rfl
  have hs : s.answered w.version c k r = { s with prog := k r } := by
    unfold answered
    rw [hmissed, hafter, hwrote, Bool.or_false]
    rfl
  rw [hs]
  exact Told.same (s := { s with prog := k r }) htold hversion (hserved.stamp_eq hversion)

/-- What is read is the page's version, or is missed to be. -/
theorem Told.read {r : FileCall.Ans .readToString}
    {k : FileCall.Ans .readToString → F (Option (Except Unsaved SaveOutcome))} (htold : s.Told w)
    (hserved : w.Serves .readToString r w') :
    (s.answered w.version .readToString k r).Told w' := by
  by_cases hphase : s.phase = .fresh
  · have hversion : w'.version = w.version := hserved.version_eq (fun _ hc => by cases hc)
    unfold Told at htold
    simp only [hphase] at htold
    obtain ⟨hnone, hmissed⟩ := htold
    have hs : s.answered w.version .readToString k r =
        { s with prog := k r, phase := .texted, missed := decide (w.version ≠ s.page) } := by
      simp [answered, hphase, SavePhase.after, FileCall.wrote, hmissed]
    rw [hs]
    refine ⟨hnone, decide_eq_false_iff_not.trans (not_not.trans ?_)⟩
    rw [hversion]
    exact eq_comm
  · refine htold.quiet hserved (fun _ hc => by cases hc) ?_ rfl
    cases hs : s.phase with
    | fresh => exact absurd hs hphase
    | stamped stamp => cases stamp <;> rfl
    | _ => rfl

/-- What is remembered of the file is what it was read by, and what is checked is that. -/
theorem Told.looked {r : FileCall.Ans .metadata}
    {k : FileCall.Ans .metadata → F (Option (Except Unsaved SaveOutcome))} (htold : s.Told w)
    (hserved : w.Serves .metadata r w') : (s.answered w.version .metadata k r).Told w' := by
  have hversion : w'.version = w.version := hserved.version_eq (fun _ hc => by cases hc)
  have hstamp := hserved.stamp_eq hversion
  cases hphase : s.phase with
  | texted =>
    unfold Told at htold
    simp only [hphase] at htold
    obtain ⟨hnone, hmissed⟩ := htold
    have hs : s.answered w.version .metadata k r = { s with
        prog := k r, phase := .stamped ((Except.toOption r).map FileStat.stamp) } := by
      simp [answered, hphase, SavePhase.after, FileCall.wrote]
    rw [hs]
    cases r with
    | error e => exact ⟨hnone, by rw [hversion]; exact hmissed⟩
    | ok stat =>
      refine ⟨hnone, fun _ hread => by rw [hversion]; exact hmissed.1 hread, fun hread => ?_⟩
      intro hpage
      rw [hmissed.2 (by rw [← hversion]; exact hpage)] at hread
      cases hread
  | stamped stamp =>
    cases stamp with
    | none => exact htold.quiet hserved (fun _ hc => by cases hc) (by rw [hphase]; rfl) rfl
    | some stamp =>
      unfold Told at htold
      simp only [hphase] at htold
      obtain ⟨hnone, htrue, hfalse⟩ := htold
      cases r with
      | error e => simp [Told, answered, hphase, SavePhase.after]
      | ok stat =>
        by_cases hsame : stat.stamp = stamp
        · subst hsame
          have hs : s.answered w.version .metadata k (.ok stat) =
              { s with prog := k (.ok stat), phase := .cleared } := by
            simp [answered, hphase, SavePhase.after, FileCall.wrote]
          rw [hs]
          refine ⟨hnone, ?_⟩
          rw [hversion]
          refine ⟨htrue hserved.stamp_of_metadata, fun hpage => ?_⟩
          exact Bool.eq_false_iff.2 fun hread => hfalse hread hpage
        · simp [Told, answered, hphase, SavePhase.after, hsame]
  | _ => exact htold.quiet hserved (fun _ hc => by cases hc) (by rw [hphase]; rfl) rfl

/-- The file is replaced as the version that was checked. -/
theorem Told.replaced (htold : s.Told w) (hmay : s.phase.mayReplace) :
    s.replaced = [] ∧ (s.missed = false ↔ s.page = w.version) := by
  unfold Told at htold
  obtain hphase | hphase := hmay <;> simpa only [hphase] using htold

theorem Told.renamed {r : FileCall.Ans .rename}
    {k : FileCall.Ans .rename → F (Option (Except Unsaved SaveOutcome))} (htold : s.Told w)
    (hmay : s.phase.mayReplace) (hserved : w.Serves .rename r w') :
    (s.answered w.version .rename k r).Told w' := by
  obtain ⟨hnone, hmissed⟩ := htold.replaced hmay
  cases r with
  | error e =>
    refine htold.quiet hserved (fun _ hc => by cases hc) ?_ rfl
    obtain hphase | hphase := hmay <;> rw [hphase] <;> rfl
  | ok _ =>
    have hs : s.answered w.version .rename k (.ok ()) =
        { s with prog := k (.ok ()), phase := .replaced, replaced := [w.version] } := by
      obtain hphase | hphase := hmay <;>
        simp [answered, hphase, SavePhase.after, FileCall.wrote, hnone]
    rw [hs]
    show ReplacesPage _ ↔ s.missed = false
    rw [hmissed]
    simp [ReplacesPage, eq_comm]

theorem Told.truncated {mode : ℕ} {r : FileCall.Ans (.truncate mode)}
    {k : FileCall.Ans (.truncate mode) → F (Option (Except Unsaved SaveOutcome))}
    (htold : s.Told w) (hmay : s.phase.mayReplace) (hserved : w.Serves (.truncate mode) r w') :
    (s.answered w.version (.truncate mode) k r).Told w' := by
  obtain ⟨hnone, hmissed⟩ := htold.replaced hmay
  cases r with
  | error e =>
    refine htold.quiet hserved (fun _ hc => by cases hc) ?_ rfl
    obtain hphase | hphase := hmay <;> rw [hphase] <;> rfl
  | ok _ =>
    have hversion : w'.version = w.version + 1 := hserved.version_eq (fun _ hc => by cases hc)
    have hs : s.answered w.version (.truncate mode) k (.ok ()) =
        { s with prog := k (.ok ()), phase := .emptied, replaced := [w.version] } := by
      obtain hphase | hphase := hmay <;>
        simp [answered, hphase, SavePhase.after, FileCall.wrote, hnone]
    rw [hs]
    refine ⟨w.version, rfl, ?_⟩
    show s.missed = false ↔ w.version = s.page ∧ w'.version = s.page + 1
    rw [hmissed]
    omega

theorem Told.written {text : String} {r : FileCall.Ans (.writeAll text)}
    {k : FileCall.Ans (.writeAll text) → F (Option (Except Unsaved SaveOutcome))}
    (htold : s.Told w) (hphase : s.phase = .emptied) :
    (s.answered w.version (.writeAll text) k r).Told w' := by
  unfold Told at htold
  simp only [hphase] at htold
  obtain ⟨v, hv, hmissed⟩ := htold
  cases r with
  | error e => simp [Told, answered, hphase, SavePhase.after]
  | ok _ =>
    have hs : s.answered w.version (.writeAll text) k (.ok ()) =
        { s with prog := k (.ok ()), phase := .replaced, replaced := [v, w.version] } := by
      simp [answered, hphase, SavePhase.after, FileCall.wrote, hv]
    rw [hs]
    show ReplacesPage _ ↔ s.missed = false
    rw [hmissed]
    simp [ReplacesPage]

/-- The first version that is replaced is the one the file has then. -/
theorem first_answered {v : ℕ}
    (hv : (s.answered w.version c k r).replaced.head? = some v) :
    s.replaced.head? = some v ∨ v = w.version := by
  unfold Submission.answered at hv
  dsimp only at hv
  split_ifs at hv
  · cases hreplaced : s.replaced with
    | cons v' vs =>
      rw [hreplaced] at hv
      exact .inl hv
    | nil =>
      rw [hreplaced] at hv
      cases hv
      exact .inr rfl
  · exact .inl hv

/-- An answer leads a submission on. -/
theorem Sound.answered (h : s.Sound w) (hnext : s.prog = .call c k) (hserved : w.Serves c r w') :
    (s.answered w.version c k r).Sound w' := by
  have htold := h.told
  obtain ⟨hmay, hk⟩ : saving.may c s.phase ∧ ∀ r phase, saving.next c r s.phase phase →
      (k r).Obeys saving phase fun a phase => ∀ outcome, a = some (.ok outcome) →
        phase = .replaced := by
    have hobeys := h.obeys
    rwa [hnext] at hobeys
  refine ⟨?_, ?_, hk r _ rfl, ?_⟩
  · exact h.page.trans hserved.version_le
  · intro v hv
    cases hwrote : c.wrote r with
    | false =>
      simp only [Submission.answered, hwrote, Bool.false_eq_true, if_false] at hv
      exact (h.first v hv).trans_le hserved.version_le
    | true =>
      simp only [Submission.answered, hwrote, if_true] at hv
      cases hreplaced : s.replaced with
      | cons v' vs =>
        rw [hreplaced] at hv
        exact (h.first v (by rw [hreplaced]; exact hv)).trans_le hserved.version_le
      | nil =>
        rw [hreplaced] at hv
        cases hv
        -- what is written after the file was emptied is not the first
        have hwrite : ∀ text, c ≠ .writeAll text := by
          rintro text rfl
          have hphase : s.phase = .emptied := hmay
          unfold Told at htold
          simp [hphase, hreplaced] at htold
        rw [hserved.version_eq hwrite, hwrote]
        exact Nat.lt_succ_self _
  · cases c with
    | readToString => exact htold.read hserved
    | metadata => exact htold.looked hserved
    | rename => exact htold.renamed hmay hserved
    | truncate mode => exact htold.truncated hmay hserved
    | writeAll text => exact htold.written hmay
    | _ =>
      refine htold.quiet hserved (fun _ hc => by cases hc) (SavePhase.after_quiet rfl) ?_
      exact FileCall.wrote_quiet rfl

end Submission

theorem Submission.ReplacesPage.first {s : Submission} (h : s.ReplacesPage) :
    s.replaced.head? = some s.page := by
  obtain h | h := h <;> rw [h] <;> rfl

/-! ## What is true of every run -/

namespace SettingsDesk

variable {ι : Type} {w w' : SettingsDesk ι} {dir : ConfigDir}

structure Sound (w : SettingsDesk ι) : Prop where
  pages : ∀ page ∈ w.pages, page ≤ w.file.version
  submissions : ∀ i s, w.submissions i = some s → s.Sound w.file
  /-- No two have replaced the same version. -/
  apart : ∀ i j s s', i ≠ j → w.submissions i = some s → w.submissions j = some s' →
    ∀ v, s.replaced.head? = some v → s'.replaced.head? ≠ some v

/-- Whoever waits while the file may change is as before but for what it has missed. -/
theorem Sound.beside (h : w.Sound) {file : Versioned} (hle : w.file.version ≤ file.version)
    (hsame : file.version = w.file.version → file.stamp = w.file.stamp) :
    Sound { w with
      file, submissions := fun j => (w.submissions j).map (·.beside w.file file) } := by
  refine ⟨fun page hpage => (h.pages page hpage).trans hle, fun i s hs => ?_,
    fun i j s s' hij hs hs' v hv => ?_⟩
  · obtain ⟨s₀, hs₀, rfl⟩ := Option.map_eq_some_iff.1 hs
    exact (h.submissions i s₀ hs₀).beside hle hsame
  · obtain ⟨s₀, hs₀, rfl⟩ := Option.map_eq_some_iff.1 hs
    obtain ⟨s₁, hs₁, rfl⟩ := Option.map_eq_some_iff.1 hs'
    exact h.apart i j s₀ s₁ hij hs₀ hs₁ v hv

variable [DecidableEq ι]

/-- A submission is put in the place of one, or of none, with no version that another replaced. -/
theorem Sound.update (h : w.Sound) {i : ι} {s : Submission} (hs : s.Sound w.file)
    (happart : ∀ j s', j ≠ i → w.submissions j = some s' →
      ∀ v, s.replaced.head? = some v → s'.replaced.head? ≠ some v) :
    Sound { w with submissions := Function.update w.submissions i (some s) } := by
  refine ⟨h.pages, fun j s' hs' => ?_, fun j k s₁ s₂ hjk hs₁ hs₂ v hv => ?_⟩
  · by_cases hj : j = i
    · subst hj
      simp only [Function.update_self, Option.some.injEq] at hs'
      exact hs' ▸ hs
    · simp only [Function.update_of_ne hj] at hs'
      exact h.submissions j s' hs'
  · by_cases hj : j = i
    · subst hj
      simp only [Function.update_self, Option.some.injEq] at hs₁
      simp only [Function.update_of_ne (Ne.symm hjk)] at hs₂
      subst hs₁
      exact happart k s₂ (Ne.symm hjk) hs₂ v hv
    · simp only [Function.update_of_ne hj] at hs₁
      by_cases hk : k = i
      · subst hk
        simp only [Function.update_self, Option.some.injEq] at hs₂
        subst hs₂
        exact fun hv' => happart j s₁ hj hs₁ v hv' hv
      · simp only [Function.update_of_ne hk] at hs₂
        exact h.apart j k s₁ s₂ hjk hs₁ hs₂ v hv

theorem Step.sound (h : w.Sound) (hstep : Step w w') : w'.Sound := by
  cases hstep with
  | render =>
    refine ⟨fun page hpage => ?_, h.submissions, h.apart⟩
    obtain rfl | hpage := List.mem_cons.1 hpage
    · exact le_rfl
    · exact h.pages page hpage
  | @submit i page unused rendered host syn room path request =>
    have hnone : ∀ v, ([] : List ℕ).head? ≠ some v := fun v hv => by cases hv
    refine h.update ⟨h.pages page rendered, fun v hv => absurd hv (hnone v),
      request.run_obeys host syn room path, rfl, rfl⟩ ?_
    exact fun _ _ _ _ v hv => absurd hv (hnone v)
  | @call i s c k r file running next served =>
    have hbeside := h.beside served.version_le served.stamp_eq
    have hs := h.submissions i s running
    refine hbeside.update (hs.answered next served) fun j s' hj hs' v hv hv' => ?_
    obtain ⟨s₀, hs₀, rfl⟩ := Option.map_eq_some_iff.1 hs'
    obtain hfirst | rfl := Submission.first_answered hv
    · exact h.apart i j s s₀ (Ne.symm hj) running hs₀ v hfirst hv'
    · exact absurd ((h.submissions j s₀ hs₀).first _ hv') (lt_irrefl _)
  | edit dir => exact h.beside (Nat.le_succ _) fun hsame => absurd hsame (Nat.succ_ne_self _)
  | pass dir same =>
    have hstamp : Versioned.stamp ⟨dir, w.file.version⟩ = w.file.stamp := by
      simp only [Versioned.stamp, same]
    refine ⟨h.pages, fun i s hs => ?_, h.apart⟩
    exact (h.submissions i s hs).same rfl hstamp

theorem Reach.sound (h : Reach dir w) : w.Sound := by
  induction h with
  | refl =>
    refine ⟨fun page hpage => ?_, fun i s hs => ?_, fun i j s s' hij hs => ?_⟩
    · cases hpage
    · cases hs
    · cases hs
  | tail _ hstep ih => exact hstep.sound ih

/-! ## Which version a save replaces -/

omit [DecidableEq ι] in
theorem Sound.saved {i : ι} {s : Submission} (h : w.Sound) (hs : w.submissions i = some s)
    (hsaved : s.Saved) : s.ReplacesPage ↔ s.missed = false := by
  obtain ⟨outcome, hprog⟩ := hsaved
  obtain ⟨-, -, hobeys, htold⟩ := h.submissions i s hs
  rw [hprog] at hobeys
  have hphase : s.phase = .replaced := hobeys outcome rfl
  unfold Submission.Told at htold
  simpa only [hphase] using htold

/-- However pages are rendered and sent and the file is changed meanwhile, a save replaces the
    version its page was rendered from exactly when its request read that version and no change
    went unnoticed from then on; and of two such saves no two are of one version. -/
theorem saves_replace_page_iff (h : Reach dir w) :
    (∀ i s, w.submissions i = some s → s.Saved → (s.ReplacesPage ↔ s.missed = false)) ∧
    ∀ i j s s', i ≠ j → w.submissions i = some s → w.submissions j = some s' → s.Saved →
      s'.Saved → s.page = s'.page → s.missed = true ∨ s'.missed = true := by
  have hsound := h.sound
  refine ⟨fun i s hs hsaved => hsound.saved hs hsaved, fun i j s s' hij hs hs' hsaved hsaved' hpage => ?_⟩
  by_contra hno
  simp only [not_or, Bool.not_eq_true] at hno
  have hfirst := ((hsound.saved hs hsaved).2 hno.1).first
  have hfirst' := ((hsound.saved hs' hsaved').2 hno.2).first
  rw [← hpage] at hfirst'
  exact hsound.apart i j s s' hij hs hs' _ hfirst hfirst'

/-! ## A page that is older than the file -/

theorem Reach.call (faults : ConfigDir.Faults) {i : ι} {s : Submission} {c : FileCall}
    {k : c.Ans → F (Option (Except Unsaved SaveOutcome))} (h : Reach dir w)
    (hs : w.submissions i = some s) (hp : s.prog = .call c k) : ∃ w', Reach dir w' ∧
      w'.submissions i =
        some (s.answered w.file.version c k (ConfigDir.serve faults c w.file.dir).1) ∧
      w'.file.dir = (ConfigDir.serve faults c w.file.dir).2 := by
  refine ⟨_, h.tail (.call hs hp (.served faults c)), ?_, rfl⟩
  simp only [Function.update_self]

/-- A submission that has read the file can be left to finish while nobody else does anything. -/
theorem Reach.finish (faults : ConfigDir.Faults) {i : ι} {s : Submission} (h : Reach dir w)
    (hs : w.submissions i = some s) (hphase : s.phase ≠ .fresh) : ∃ w' s', Reach dir w' ∧
      w'.submissions i = some s' ∧ s'.missed = s.missed ∧
        s'.prog = .ret (s.prog.run (ConfigDir.serve faults) w.file.dir).1 := by
  generalize hp : s.prog = p
  induction p generalizing w s with
  | ret a => exact ⟨w, s, h, hs, rfl, hp⟩
  | call c k ih =>
    obtain ⟨w₁, h₁, hs₁, hdir⟩ := h.call faults hs hp
    obtain ⟨w', s', hreach, hs', hmissed, hprog⟩ :=
      ih _ h₁ hs₁ (SavePhase.after_ne_fresh hphase) rfl
    rw [hdir] at hprog
    refine ⟨w', s', hreach, hs', hmissed.trans ?_, hprog⟩
    simp [Submission.answered, hphase]

/-- A request that is saved when it is left to itself, by whether the file still is its page's
    version when it is sent. -/
theorem Reach.save (faults : ConfigDir.Faults) (i : ι) {page : ℕ} (host : ConfigHost)
    (syn : TomlSyntax) (room : ℕ) (path : PathBuf) (request : SettingsRequest) (h : Reach dir w)
    (hunused : w.submissions i = none) (hpage : page ∈ w.pages)
    (hsaved : ((request.run host syn room path).run (ConfigDir.serve faults) w.file.dir).1.any
      (fun r => r.toBool) = true) : ∃ w' s, Reach dir w' ∧ w'.submissions i = some s ∧ s.Saved ∧
        s.missed = decide (w.file.version ≠ page) := by
  obtain ⟨k, hk⟩ : ∃ k, request.run host syn room path = .call .readToString k := ⟨_, rfl⟩
  have hsent := h.tail (.submit hunused hpage host syn room path request)
  obtain ⟨w₁, h₁, hs₁, hdir⟩ := Reach.call faults hsent (Function.update_self ..) hk
  obtain ⟨w', s, hreach, hs, hmissed, hprog⟩ := h₁.finish faults hs₁ (by
    simp [Submission.answered, SavePhase.after])
  rw [hdir] at hprog
  rw [hk, Prog.run_call] at hsaved
  obtain ⟨r, hr, hok⟩ := (Option.any_eq_true _ _).1 hsaved
  refine ⟨w', s, hreach, hs, ?_, hmissed⟩
  cases r with
  | error e => cases hok
  | ok outcome => exact ⟨outcome, hprog.trans (congrArg Prog.ret hr)⟩

end SettingsDesk

/-! ### The removal of a tracker that is gone already -/

namespace StalePage

def twoTrackers : String := "[[trackers]]\nid = \"b\"\nkind = \"fake\"\n" ++ RemovedTracker.text

/-- The file the page was rendered from. -/
def before : ConfigDir := ⟨some ⟨twoTrackers, 1, 0o600⟩, none, none, 2⟩

/-- The file once its first tracker was removed. -/
def after : ConfigDir := ⟨some ⟨RemovedTracker.text, 2, 0o600⟩, none, none, 3⟩

def syn : TomlSyntax :=
  .known [(RemovedTracker.text, RemovedTracker.tree), ("", [])] fun t =>
    if (ConfigDocument.ofTree t).rowCount "trackers" = 0 then "" else RemovedTracker.text

/-- The first tracker is removed. -/
def run : F (Option (Except Unsaved SaveOutcome)) :=
  (SettingsRequest.removeTracker 0).run .plain syn 1 (.ofString "/config.toml")

theorem run_saves : ((run.run (ConfigDir.serve fun _ => none) after).1.any fun r => r.toBool) =
    true := by decide +kernel

end StalePage

/-- A page that is as old as the file has its version replaced. -/
theorem fresh_page_replaced : ∃ (w : SettingsDesk Unit) (s : Submission),
    SettingsDesk.Reach StalePage.after w ∧ w.submissions () = some s ∧ s.Saved ∧
      s.ReplacesPage := by
  have hrendered : SettingsDesk.Reach StalePage.after
      (⟨⟨StalePage.after, 0⟩, [0], fun _ => none⟩ : SettingsDesk Unit) := .single .render
  obtain ⟨w, s, hreach, hs, hsaved, hmissed⟩ := hrendered.save (fun _ => none) () .plain
    StalePage.syn 1 (.ofString "/config.toml") (.removeTracker 0) rfl List.mem_cons_self
    StalePage.run_saves
  refine ⟨w, s, hreach, hs, hsaved, ?_⟩
  exact ((SettingsDesk.saves_replace_page_iff hreach).1 () s hs hsaved).2 hmissed

/-- A page whose first tracker is gone removes the one that has become the first. -/
theorem stale_page_saves : ¬∀ (dir : ConfigDir) (w : SettingsDesk Unit), SettingsDesk.Reach dir w →
    ∀ s, w.submissions () = some s → s.Saved → s.ReplacesPage := by
  intro h
  have hrendered : SettingsDesk.Reach StalePage.before
      (⟨⟨StalePage.before, 0⟩, [0], fun _ => none⟩ : SettingsDesk Unit) := .single .render
  have hedited : SettingsDesk.Reach StalePage.before
      (⟨⟨StalePage.after, 1⟩, [0], fun _ => none⟩ : SettingsDesk Unit) :=
    hrendered.tail (.edit StalePage.after)
  obtain ⟨w, s, hreach, hs, hsaved, hmissed⟩ := hedited.save (fun _ => none) () .plain
    StalePage.syn 1 (.ofString "/config.toml") (.removeTracker 0) rfl List.mem_cons_self
    StalePage.run_saves
  have hread := (hreach.sound.saved hs hsaved).1 (h _ w hreach s hs hsaved)
  rw [hmissed] at hread
  exact absurd hread (by decide)

end SeedMedic
