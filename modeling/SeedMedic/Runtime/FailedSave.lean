/-
  Saves of the configuration file that fail (`config/write.rs`), on a disk on which every operation
  can fail and a write that fails may have written a part.
-/
import SeedMedic.Lib.Hoare
import SeedMedic.Runtime.Service

namespace SeedMedic

open Lib

/-! ## A disk that fails -/

namespace ConfigDir

/-- How an operation may be answered, and what it leaves. -/
inductive Does (d : ConfigDir) : (c : FileCall) → c.Ans → ConfigDir → Prop
  | serve (faults : Faults) (c : FileCall) : Does d c (serve faults c d).1 (serve faults c d).2
  | partBak (e : String) (bak : Option DiskFile) : Does d .copyToBak (.error e) { d with bak }
  | partTemp (text e : String) (temp : Option DiskFile) :
    Does d (.writeTemp text) (.error e) { d with temp }
  | part (text e : String) (file : DiskFile) :
    Does d (.writeAll text) (.error e) { d with config := some file }

/-- Every operation is permitted, and does what it may. -/
def disk : Rules FileCall FileCall.Ans ConfigDir where
  may _ _ := True
  next c r d d' := d.Does c r d'

/-- The backup has the text that the file has. -/
def Backs (d d' : ConfigDir) : Prop :=
  ∃ f, d.config = some f ∧ d'.bak.map (·.text) = some f.text

variable {c : FileCall} {r : c.Ans} {d d' : ConfigDir}

/-- Only the file itself is written over it. -/
theorem Does.config_eq (h : d.Does c r d') (hwrote : c.wrote r = false)
    (hwrite : ∀ text, c ≠ .writeAll text) : d'.config = d.config := by
  cases h with
  | serve faults => exact serve_config hwrote
  | partBak => rfl
  | partTemp => rfl
  | part text => exact absurd rfl (hwrite text)

theorem Does.bak_eq (h : d.Does c r d') (hcopy : c ≠ .copyToBak) : d'.bak = d.bak := by
  cases h with
  | partBak => exact absurd rfl hcopy
  | partTemp => rfl
  | part => rfl
  | serve faults =>
    cases c with
    | copyToBak => exact absurd rfl hcopy
    | readToString => rfl
    | metadata => rfl
    | probeWritable => rfl
    | removeTemp =>
      simp only [ConfigDir.serve]
      split_ifs <;> rfl
    | writeTemp text =>
      refine acting_same fun d' hd' => ?_
      cases hd'
      rfl
    | truncate mode =>
      refine acting_same fun d' hd' => ?_
      cases hd'
      rfl
    | setPermissions mode =>
      refine acting_same fun d' hd' => ?_
      obtain ⟨f, -, rfl⟩ := Option.map_eq_some_iff.1 hd'
      rfl
    | rename =>
      refine acting_same fun d' hd' => ?_
      obtain ⟨f, -, rfl⟩ := Option.map_eq_some_iff.1 hd'
      rfl
    | writeAll text =>
      refine acting_same fun d' hd' => ?_
      obtain ⟨f, -, rfl⟩ := Option.map_eq_some_iff.1 hd'
      rfl

/-- A copy that succeeds has the text of the file. -/
theorem Does.copied {r : FileCall.Ans .copyToBak} (h : d.Does .copyToBak r d') (hr : r = .ok ()) :
    d.Backs d' := by
  cases h with
  | partBak => cases hr
  | serve faults =>
    obtain ⟨e, he⟩ | ⟨d₁, hd₁, he⟩ := acting_cases faults .copyToBak (d.config.map fun f =>
      { d with bak := some { f with modified := d.clock } }) d
    · simp only [ConfigDir.serve, he] at hr
      cases hr
    · obtain ⟨f, hf, rfl⟩ := Option.map_eq_some_iff.1 hd₁
      refine ⟨f, hf, ?_⟩
      simp only [ConfigDir.serve, he]
      rfl

theorem Backs.of_eq {d₁ d₂ : ConfigDir} (h : d.Backs d₁) (hbak : d₂.bak = d₁.bak) :
    d.Backs d₂ := by
  obtain ⟨f, hf, htext⟩ := h
  exact ⟨f, hf, hbak ▸ htext⟩

end ConfigDir

/-! ## What a save that fails leaves -/

/-- A file written in place, and not to its end. -/
structure LeftShort (text : String) (stamped : Bool) (before after : ConfigDir)
    (log : List (Σ c : FileCall, c.Ans)) : Prop where
  unmoved : ∃ e, ⟨.rename, .error e⟩ ∈ log
  emptied : ∃ mode, ⟨.truncate mode, .ok ()⟩ ∈ log
  unwritten : ∃ e, ⟨.writeAll text, .error e⟩ ∈ log
  /-- What the document was read from is kept. -/
  backed : stamped = true → before.Backs after

/-- The file as it was, or the backup of it. -/
def Recoverable (text : String) (stamped : Bool) (before after : ConfigDir)
    (log : List (Σ c : FileCall, c.Ans)) : Prop :=
  after.config = before.config ∨ LeftShort text stamped before after log

namespace ConfigDocument

variable {syn : TomlSyntax} {doc : ConfigDocument} {text : String} {stamped : Bool}
  {before d : ConfigDir} {log : List (Σ c : FileCall, c.Ans)}

theorem writeInPlace_recoverable (hconfig : d.config = before.config)
    (hbacked : stamped = true → before.Backs d) (hunmoved : ∃ e, ⟨.rename, .error e⟩ ∈ log) :
    (doc.writeInPlace text).Obeys (ConfigDir.disk.prod (Prog.tracing _ _)) (d, log) fun r l =>
      ∀ e, r = .error e → Recoverable text stamped before l.1 l.2 := by
  refine ⟨⟨trivial, trivial⟩, fun r l hnext => ?_⟩
  obtain ⟨hdoes, hlog⟩ := hnext
  cases r with
  | error e =>
    intro _ _
    exact .inl ((hdoes.config_eq rfl fun _ hc => by cases hc).trans hconfig)
  | ok _ =>
    refine ⟨⟨trivial, trivial⟩, fun r l' hnext => ?_⟩
    obtain ⟨hdoes', hlog'⟩ := hnext
    cases r with
    | ok _ => exact ⟨⟨trivial, trivial⟩, fun _ _ _ _ he => by cases he⟩
    | error e =>
      intro _ _
      have hbak : l'.1.bak = d.bak :=
        (hdoes'.bak_eq (by simp)).trans (hdoes.bak_eq (by simp))
      obtain ⟨e', he'⟩ := hunmoved
      have hemptied : ⟨.truncate (doc.mode.getD 0o600), .ok ()⟩ ∈ l.2 :=
        hlog ▸ List.mem_append_right log List.mem_cons_self
      have hunwritten : ⟨.writeAll text, .error e⟩ ∈ l'.2 :=
        hlog' ▸ List.mem_append_right l.2 List.mem_cons_self
      exact .inr
        { unmoved := ⟨e', hlog' ▸ List.mem_append_left _ (hlog ▸ List.mem_append_left _ he')⟩
          emptied := ⟨_, hlog' ▸ List.mem_append_left _ hemptied⟩
          unwritten := ⟨e, hunwritten⟩
          backed := fun hstamped => (hbacked hstamped).of_eq hbak }

theorem replaceWith_recoverable (hconfig : d.config = before.config)
    (hbacked : stamped = true → before.Backs d) :
    (doc.replaceWith text).Obeys (ConfigDir.disk.prod (Prog.tracing _ _)) (d, log) fun r l =>
      ∀ e, r = .error e → Recoverable text stamped before l.1 l.2 := by
  refine ⟨⟨trivial, trivial⟩, fun r l₁ hnext => ?_⟩
  have hconfig₁ := (hnext.1.config_eq rfl fun _ hc => by cases hc).trans hconfig
  have hbak₁ := hnext.1.bak_eq (by simp)
  cases r with
  | error e => exact fun _ _ => .inl hconfig₁
  | ok _ =>
    refine ⟨⟨trivial, trivial⟩, fun r l₂ hnext => ?_⟩
    have hconfig₂ := (hnext.1.config_eq rfl fun _ hc => by cases hc).trans hconfig₁
    have hbak₂ := (hnext.1.bak_eq (by simp)).trans hbak₁
    cases r with
    | error e => exact fun _ _ => .inl hconfig₂
    | ok _ =>
      refine ⟨⟨trivial, trivial⟩, fun r l₃ hnext => ?_⟩
      cases r with
      | ok _ => exact fun _ he => by cases he
      | error e =>
        have hfailed := hnext.2 ▸ List.mem_append_right _ List.mem_cons_self
        refine writeInPlace_recoverable ?_ ?_ ⟨e, hfailed⟩
        · exact (hnext.1.config_eq rfl fun _ hc => by cases hc).trans hconfig₂
        · exact fun hstamped =>
            (hbacked hstamped).of_eq ((hnext.1.bak_eq (by simp)).trans hbak₂)

/-- The check leaves the file as it is, and a backup where it succeeds. -/
theorem checkUnchanged_backs (stamp : FileStamp) (hconfig : d.config = before.config) :
    (checkUnchanged syn doc stamp).Obeys (ConfigDir.disk.prod (Prog.tracing _ _)) (d, log)
      fun r l => l.1.config = before.config ∧ (r = .ok () → before.Backs l.1) := by
  unfold checkUnchanged
  rw [F.ask_bind, Prog.obeys_call]
  refine ⟨⟨trivial, trivial⟩, fun r l₁ hnext => ?_⟩
  have hconfig₁ := (hnext.1.config_eq rfl fun _ hc => by cases hc).trans hconfig
  cases r with
  | error e => exact ⟨hconfig₁, fun hr => by cases hr⟩
  | ok stat =>
    dsimp only
    rw [F.ask_bind, Prog.obeys_call]
    refine ⟨⟨trivial, trivial⟩, fun r l₂ hnext => ?_⟩
    have hconfig₂ := (hnext.1.config_eq rfl fun _ hc => by cases hc).trans hconfig₁
    cases r with
    | error e => exact ⟨hconfig₂, fun hr => by cases hr⟩
    | ok raw =>
      dsimp only
      cases syn.parse raw with
      | error e => exact ⟨hconfig₂, fun hr => by cases hr⟩
      | ok tree =>
        dsimp only
        split_ifs
        · exact ⟨hconfig₂, fun hr => by cases hr⟩
        · refine ⟨⟨trivial, trivial⟩, fun r l₃ hnext => ?_⟩
          have hconfig₃ := (hnext.1.config_eq rfl fun _ hc => by cases hc).trans hconfig₂
          cases r with
          | error e => exact ⟨hconfig₃, fun hr => by cases hr⟩
          | ok _ =>
            refine ⟨hconfig₃, fun _ => ?_⟩
            obtain ⟨f, hf, htext⟩ := hnext.1.copied rfl
            exact ⟨f, by rw [← hconfig₂, hf], htext⟩

end ConfigDocument

/-- A single file that is mounted, on a disk that is full. -/
def fullMount : ConfigDir.Faults
  | .rename => some "Resource busy (os error 16)"
  | .writeAll _ => some "No space left on device (os error 28)"
  | _ => none

def mountedDir : ConfigDir := ⟨some ⟨"# mine\n", 3, 0o600⟩, none, none, 4⟩

/-- The file as it is read, edited to hold a table more. -/
def mountedDocument : ConfigDocument where
  path := .ofString "/etc/seedmedic/config.toml"
  text := "# mine\n"
  doc := [("web", .table [])]
  writable := true
  mode := some 0o600
  stamp := some (7, 3)

end SeedMedic
