/-
  The requests that change the configuration file (`web/settings/mod.rs`): each reads it, edits
  what it read and saves that, and what it can still notice of the file as it goes.
-/
import SeedMedic.Lib.Hoare
import SeedMedic.Web.Settings.Submit

namespace SeedMedic

open Lib

/-! ## Requests -/

/-- What is told of a draft that is not saved where the page has no place for it. -/
def Unsaved.message : Unsaved → String
  | refused message => message
  | invalid errors general => "; ".intercalate (general ++ errors.map (·.2))

inductive SettingsRequest where
  | submit (form : SettingsForm) (pairs : List (String × String))
  | removeTracker (index : ℕ)
  | removeArr (index : ℕ)
  | removePathMapping (index sub : ℕ)
  /-- The demo setup, with its staging root. -/
  | loadDemo (stagingRoot : String)

/-- An edited document that is to be saved, with no page to show what is wrong with it. -/
def savedAsIs (host : ConfigHost) (syn : TomlSyntax) (doc : ConfigDocument)
    (edited : Option ConfigDocument) : Option (Except Unsaved ConfigDocument) :=
  if !doc.writable then
    some (.error (.refused (doc.path.toStringLossy ++ " is not writable, so nothing here can be " ++
      "saved. Fix the file or directory permissions, or the mount it lives on.")))
  else
    edited.map fun draft =>
      match validateDraft host syn draft with
      | .error invalid => .error (.refused invalid.message)
      | .ok _ => .ok draft

namespace SettingsRequest

variable (host : ConfigHost) (syn : TomlSyntax) (room : ℕ)

/-- What a request saves of the document it has read; none where the code panics. -/
def draft (doc : ConfigDocument) : SettingsRequest → Option (Except Unsaved ConfigDocument)
  | submit form pairs => (submitSettings host syn room form doc pairs).map (·.map (·.1))
  | removeTracker index => savedAsIs host syn doc (doc.removeRow "trackers" index)
  | removeArr index => savedAsIs host syn doc (doc.removeRow "arr" index)
  | removePathMapping index sub =>
    savedAsIs host syn doc (doc.removeRow ("arr." ++ toString index ++ ".path_mappings") sub)
  | loadDemo stagingRoot =>
    if doc.writable ∧ (configBefore host syn doc).trackers ≠ [] then
      some (.error (.refused ("Trackers are already configured; the demo setup is only offered " ++
        "on a fresh install.")))
    else
      savedAsIs host syn doc do
        let doc ← doc.set room "staging.root" (.str stagingRoot)
        let doc ← doc.set room "trackers.0.id" (.str "demo")
        let doc ← doc.set room "trackers.0.kind" (.str "fake")
        let doc ← doc.set room "trackers.0.base_url" (.str "http://localhost")
        doc.set room "download_client.kind" (.str "fake")

/-- A request, up to the reload; none where the code panics. -/
def run (path : PathBuf) (request : SettingsRequest) :
    F (Option (Except Unsaved SaveOutcome)) := do
  match ← ConfigDocument.read syn path with
  | .error e => pure (some (.error (.refused e.toText)))
  | .ok doc =>
    match request.draft host syn room doc with
    | none => pure none
    | some (.error e) => pure (some (.error e))
    | some (.ok draft) =>
      match ← draft.save syn with
      | .error e => pure (some (.error (.refused e.toText)))
      | .ok outcome => pure (some (.ok outcome))

end SettingsRequest

/-! ## Edits keep what a document remembers of its file -/

section
variable {host : ConfigHost} {syn : TomlSyntax} {room : ℕ} {doc draft : ConfigDocument}

theorem ConfigDocument.set_stamp {key : String} {value : Toml.Item}
    (h : doc.set room key value = some draft) : draft.stamp = doc.stamp := by
  obtain ⟨p, -, h⟩ := Option.bind_eq_some_iff.1 h
  obtain ⟨tree, -, rfl⟩ := Option.map_eq_some_iff.1 h
  rfl

theorem ConfigDocument.remove_stamp (doc : ConfigDocument) (key : String) :
    (doc.remove key).stamp = doc.stamp := by
  unfold ConfigDocument.remove
  split <;> rfl

theorem ConfigDocument.removeRow_stamp {name : String} {index : ℕ}
    (h : doc.removeRow name index = some draft) : draft.stamp = doc.stamp := by
  unfold ConfigDocument.removeRow at h
  split at h
  · cases h
    rfl
  · split_ifs at h
    cases h
    rfl

theorem applyParsed_stamp {key : String} {parsed : Parsed}
    (h : applyParsed room doc key parsed = some draft) : draft.stamp = doc.stamp := by
  cases parsed with
  | remove =>
    cases h
    exact doc.remove_stamp key
  | set value => exact ConfigDocument.set_stamp h
  | setArray values => exact ConfigDocument.set_stamp h
  | unchanged =>
    cases h
    rfl

theorem runEdits_stamp {es : List (String × Parsed)} (h : runEdits room es doc = some draft) :
    draft.stamp = doc.stamp := by
  induction es generalizing doc with
  | nil =>
    cases h
    rfl
  | cons e es ih =>
    obtain ⟨doc', hparsed, hrest⟩ := Option.bind_eq_some_iff.1 h
    exact (ih hrest).trans (applyParsed_stamp hparsed)

theorem savedAsIs_ok {edited : Option ConfigDocument}
    (h : savedAsIs host syn doc edited = some (.ok draft)) : edited = some draft := by
  unfold savedAsIs at h
  split_ifs at h
  · cases h
  · obtain ⟨draft', hedited, hdraft⟩ := Option.map_eq_some_iff.1 h
    split at hdraft
    · cases hdraft
    · cases hdraft
      exact hedited

/-- What is saved remembers the file that was read. -/
theorem SettingsRequest.draft_stamp {request : SettingsRequest}
    (h : request.draft host syn room doc = some (.ok draft)) : draft.stamp = doc.stamp := by
  cases request with
  | submit form pairs =>
    obtain ⟨r, hsubmit, hr⟩ := Option.map_eq_some_iff.1 h
    cases r with
    | error e => cases hr
    | ok saved =>
      cases hr
      exact runEdits_stamp (submitSettings_saved hsubmit).1
  | removeTracker index => exact ConfigDocument.removeRow_stamp (savedAsIs_ok h)
  | removeArr index => exact ConfigDocument.removeRow_stamp (savedAsIs_ok h)
  | removePathMapping index sub => exact ConfigDocument.removeRow_stamp (savedAsIs_ok h)
  | loadDemo stagingRoot =>
    unfold SettingsRequest.draft at h
    split_ifs at h
    · cases h
    · obtain ⟨d₁, h₁, h⟩ := Option.bind_eq_some_iff.1 (savedAsIs_ok h)
      obtain ⟨d₂, h₂, h⟩ := Option.bind_eq_some_iff.1 h
      obtain ⟨d₃, h₃, h⟩ := Option.bind_eq_some_iff.1 h
      obtain ⟨d₄, h₄, h₅⟩ := Option.bind_eq_some_iff.1 h
      exact (ConfigDocument.set_stamp h₅).trans ((ConfigDocument.set_stamp h₄).trans
        ((ConfigDocument.set_stamp h₃).trans ((ConfigDocument.set_stamp h₂).trans
          (ConfigDocument.set_stamp h₁))))

end

/-! ## What a request can still notice -/

/-- How far a request has come with the file. -/
inductive SavePhase where
  | fresh
  /-- The text is read, the stamp not yet. -/
  | texted
  /-- What is remembered to tell a change by. -/
  | stamped (stamp : Option FileStamp)
  /-- The file had the stamp that is remembered. -/
  | cleared
  /-- The file itself is emptied, to be written. -/
  | emptied
  | replaced
  | refused
  deriving DecidableEq

namespace SavePhase

/-- Where an answer leads. -/
def after : SavePhase → (c : FileCall) → c.Ans → SavePhase
  | fresh, .readToString, _ => texted
  | texted, .metadata, r => stamped ((Except.toOption r).map FileStat.stamp)
  | stamped (some stamp), .metadata, .ok stat =>
    if FileStat.stamp stat = stamp then cleared else refused
  | stamped (some _), .metadata, .error _ => refused
  | _, .rename, .ok () => replaced
  | _, .truncate _, .ok () => emptied
  | _, .writeAll _, .ok () => replaced
  | _, .writeAll _, .error _ => refused
  | phase, _, _ => phase

/-- Whether a change of the file now, to one of that stamp, goes unnoticed. -/
def misses (stamp : Option FileStamp) : SavePhase → Bool
  | fresh | replaced | refused => false
  | texted | stamped none | cleared | emptied => true
  | stamped (some remembered) => stamp = some remembered

/-- The file is replaced only when nothing is remembered of it or that was the same. -/
def mayReplace (phase : SavePhase) : Prop := phase = stamped none ∨ phase = cleared

end SavePhase

/-- The order in which a request goes about the file. -/
def saving : Rules FileCall FileCall.Ans SavePhase where
  may
    | .rename, phase => phase.mayReplace
    | .truncate _, phase => phase.mayReplace
    | .writeAll _, phase => phase = .emptied
    | _, _ => True
  next c r phase phase' := phase' = phase.after c r

namespace ConfigDocument

variable {syn : TomlSyntax} {phase : SavePhase} {d : ConfigDocument} {text : String}

theorem writeInPlace_obeys (h : phase.mayReplace) : (d.writeInPlace text).Obeys saving phase
    fun r phase' => ∀ outcome, r = .ok outcome → phase' = .replaced := by
  refine ⟨h, fun r phase' hnext => ?_⟩
  cases r with
  | error e => exact fun _ hr => by cases hr
  | ok _ =>
    obtain rfl : phase' = .emptied := by obtain rfl | rfl := h <;> exact hnext
    refine ⟨rfl, fun r phase' hnext => ?_⟩
    cases r with
    | error e => exact fun _ hr => by cases hr
    | ok _ =>
      obtain rfl : phase' = .replaced := hnext
      exact ⟨trivial, fun _ _ hnext _ _ => hnext⟩

theorem replaceWith_obeys (h : phase.mayReplace) : (d.replaceWith text).Obeys saving phase
    fun r phase' => ∀ outcome, r = .ok outcome → phase' = .replaced := by
  refine ⟨trivial, fun r phase' hnext => ?_⟩
  obtain rfl : phase' = phase := by obtain rfl | rfl := h <;> exact hnext
  cases r with
  | error e => exact fun _ hr => by cases hr
  | ok _ =>
    refine ⟨trivial, fun r phase'' hnext => ?_⟩
    obtain rfl : phase'' = phase' := by obtain rfl | rfl := h <;> exact hnext
    cases r with
    | error e => exact fun _ hr => by cases hr
    | ok _ =>
      refine ⟨h, fun r phase' hnext => ?_⟩
      cases r with
      | error e =>
        obtain rfl : phase' = phase'' := by obtain rfl | rfl := h <;> exact hnext
        exact writeInPlace_obeys h
      | ok _ =>
        intro _ _
        obtain rfl | rfl := h <;> exact hnext

/-- A file whose stamp is not the one that is remembered is refused. -/
theorem checkUnchanged_obeys (stamp : FileStamp) :
    (checkUnchanged syn d stamp).Obeys saving (.stamped (some stamp))
      fun r phase => ∀ u, r = .ok u → phase = .cleared := by
  unfold checkUnchanged
  rw [F.ask_bind, Prog.obeys_call]
  refine ⟨trivial, fun r phase hnext => ?_⟩
  cases r with
  | error e => exact fun _ hr => by cases hr
  | ok stat =>
    have hphase : phase = if stat.stamp = stamp then .cleared else .refused := hnext
    dsimp only
    rw [F.ask_bind, Prog.obeys_call]
    refine ⟨trivial, fun r phase' hnext => ?_⟩
    obtain rfl : phase' = phase := by
      split_ifs at hphase <;> subst hphase <;> exact hnext
    cases r with
    | error e => exact fun _ hr => by cases hr
    | ok raw =>
      dsimp only
      cases syn.parse raw with
      | error e => exact fun _ hr => by cases hr
      | ok doc =>
        dsimp only
        by_cases hstamp : stat.stamp = stamp
        · rw [if_pos hstamp] at hphase
          subst hphase
          rw [if_neg (not_not_intro hstamp)]
          refine ⟨trivial, fun r phase hnext => ?_⟩
          cases r with
          | error e => exact fun _ hr => by cases hr
          | ok _ => exact fun _ _ => hnext
        · rw [if_pos hstamp]
          exact fun _ hr => by cases hr

theorem save_obeys : (d.save syn).Obeys saving (.stamped d.stamp)
    fun r phase => ∀ outcome, r = .ok outcome → phase = .replaced := by
  unfold save
  split_ifs
  · exact fun _ hr => by cases hr
  · cases hstamp : d.stamp with
    | none => exact replaceWith_obeys (.inl rfl)
    | some stamp =>
      refine (checkUnchanged_obeys stamp).bind fun r phase hphase => ?_
      cases r with
      | error e => exact fun _ hr => by cases hr
      | ok u => exact replaceWith_obeys (.inr (hphase u rfl))

/-- A document remembers the file by what was asked after its text. -/
theorem read_obeys (path : PathBuf) : (read syn path).Obeys saving .fresh
    fun r phase => ∀ doc, r = .ok doc → phase = .stamped doc.stamp := by
  have hparsed : ∀ raw, (read.parsed syn path raw).Obeys saving .texted
      fun r phase => ∀ doc, r = .ok doc → phase = .stamped doc.stamp := by
    intro raw
    unfold read.parsed
    cases syn.parse raw with
    | error e => exact fun _ hr => by cases hr
    | ok doc =>
      refine ⟨trivial, fun stat phase hnext => ⟨trivial, fun writable phase' hnext' => ?_⟩⟩
      obtain rfl := hnext
      intro doc hdoc
      cases hdoc
      cases stat <;> exact hnext'
  refine ⟨trivial, fun r phase hnext => ?_⟩
  obtain rfl : phase = .texted := hnext
  match r with
  | .error (.other source) => exact fun _ hr => by cases hr
  | .error (.notFound _) => exact hparsed ""
  | .ok raw => exact hparsed raw

end ConfigDocument

/-- Where a request has saved, it has replaced the file, and only after what it remembers of the
    file was the same. -/
theorem SettingsRequest.run_obeys (host : ConfigHost) (syn : TomlSyntax) (room : ℕ) (path : PathBuf)
    (request : SettingsRequest) : (request.run host syn room path).Obeys saving .fresh
      fun r phase => ∀ outcome, r = some (.ok outcome) → phase = .replaced := by
  refine (ConfigDocument.read_obeys path).bind fun r phase hread => ?_
  cases r with
  | error e => exact fun _ hr => by cases hr
  | ok doc =>
    obtain rfl := hread doc rfl
    dsimp only
    match hdraft : request.draft host syn room doc with
    | none => exact fun _ hr => by cases hr
    | some (.error e) => exact fun _ hr => by cases hr
    | some (.ok draft) =>
      rw [← draft_stamp hdraft]
      refine ConfigDocument.save_obeys.bind fun r phase hsave => ?_
      cases r with
      | error e => exact fun _ hr => by cases hr
      | ok outcome => exact fun _ _ => hsave outcome rfl

end SeedMedic
