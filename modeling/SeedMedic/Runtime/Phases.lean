/-
  What a reload goes through under the lock, step by step, and that everything that runs on
  the service keeps to it.
-/
import SeedMedic.Runtime.Calls

namespace SeedMedic

open Lib Prog

namespace RuntimeHandle

/-! ## How far a reload has come -/

/-- What a thread has gone through under the lock. -/
inductive Phase where
  | outside
  | locked
  | loaded (new : Config)
  | opened (old : Runtime) (new : Config)
  | listed (old : Runtime) (new : Config) (jobs : List RepairJob)
  /-- None of the jobs listed is in the way. -/
  | cleared (old : Runtime) (new : Config)
  /-- Installed under another token, with the sessions of the old one. -/
  | unended
  | done

def Phase.after : (c : ServiceCall) → c.Ans → Phase → Phase
  | .lockWorker, _, _ => .locked
  | .unlockWorker, _, _ => .outside
  | .loadConfig, .ok new, .locked => .loaded new
  | .current, runtime, .loaded new => .opened runtime new
  | .unfinished, .ok jobs, .opened old new => .listed old new jobs
  | .build _, _, .listed old new _ => .cleared old new
  | .install runtime, _, .cleared old _ =>
    if Runtime.authTokenChanged old.authToken runtime.authToken then .unended else .done
  | .clearSessions, _, _ => .done
  | _, _, l => l

/-- A generation has the configuration it is built from. -/
def BuiltFrom : (c : ServiceCall) → c.Ans → Prop
  | .build config, .ok (runtime, _) => runtime.config = config
  | _, _ => True

/-- The jobs are listed under the lock, a generation is installed when the refusals let it pass,
    and a changed token ends the sessions before the lock is given back. -/
def reloading : Rules ServiceCall ServiceCall.Ans Phase where
  may
    | .lockWorker, l => l = .outside
    | .unlockWorker, l => l ≠ .outside ∧ l ≠ .unended
    | .loadConfig, l => l = .locked
    | .unfinished, l => ∃ old new, l = .opened old new
    | .build config, l => ∃ old jobs, l = .listed old config jobs ∧
        rootRefusal old.config config jobs = none ∧ trackerRefusal old.config config jobs = none
    | .install runtime, l => ∃ old, l = .cleared old runtime.config
    | .clearSessions, l => l = .unended
    | _, _ => True
  next c r l l' := BuiltFrom c r ∧ l' = l.after c r

/-! ## Every program keeps the rules -/

/-- A thread that has not just loaded a configuration is where it was after such a call. -/
theorem Aside.still {c : ServiceCall} {l : Phase} (h : Aside c) (hl : ∀ new, l ≠ .loaded new) :
    reloading.may c l ∧ ∀ r l', reloading.next c r l l' → l' = l := by
  cases c with
  | lockWorker => exact h.elim
  | unlockWorker => exact h.elim
  | loadConfig => exact h.elim
  | unfinished => exact h.elim
  | build config => exact h.elim
  | install runtime => exact h.elim
  | clearSessions => exact h.elim
  | current =>
    refine ⟨trivial, fun r l' hn => hn.2.trans ?_⟩
    cases l with
    | loaded new => exact absurd rfl (hl new)
    | _ => rfl
  | _ => exact ⟨trivial, fun _ _ hn => hn.2⟩

theorem obeys_of_aside {α : Type} {p : S α} {l : Phase} (h : p.Only Aside)
    (hl : ∀ new, l ≠ .loaded new) : p.Obeys reloading l fun _ l' => l' = l :=
  h.obeys rfl fun c l' hc he => by
    subst he
    exact hc.still hl

theorem obeys_of_ordinary {α : Type} {p : S α} {l : Phase} (h : p.Only Ordinary)
    (hl : ∀ new, l ≠ .loaded new) : p.Obeys reloading l fun _ l' => l' = l :=
  obeys_of_aside (h.mono fun _ => Ordinary.aside) hl

theorem guarded_obeys {α : Type} {request : WebRequest} {p : S α}
    (h : p.Obeys reloading .outside fun _ l => l = .outside) :
    (guarded request p).Obeys reloading .outside fun _ l => l = .outside := by
  refine (obeys_of_ordinary (requireAuthToken_ordinary request) (by rintro _ ⟨⟩)).bind fun verdict l hl => ?_
  subst hl
  cases verdict with
  | next => exact h.bind fun _ _ hl => hl
  | _ => rfl

/-- What passes the refusals passes each of them. -/
theorem checkRefusals_obeys {old : Runtime} {new : Config} {jobs : List RepairJob} :
    (checkRefusals old.config new jobs).Obeys reloading (.listed old new jobs) fun r l =>
      l = .listed old new jobs ∧ (r = .ok () →
        rootRefusal old.config new jobs = none ∧ trackerRefusal old.config new jobs = none) := by
  unfold checkRefusals
  cases hroot : rootRefusal old.config new jobs with
  | some message => exact ⟨rfl, fun h => by cases h⟩
  | none =>
    cases htracker : trackerRefusal old.config new jobs with
    | some message => exact ⟨rfl, fun h => by cases h⟩
    | none =>
      cases libraryRefusal old.config new jobs with
      | some message => exact ⟨rfl, fun h => by cases h⟩
      | none =>
        dsimp only
        split_ifs
        · refine ⟨trivial, fun leased l hl => ?_⟩
          obtain ⟨-, rfl⟩ := hl
          cases leased with
          | error e => exact ⟨rfl, fun h => by cases h⟩
          | ok leased =>
            cases leased
            · exact ⟨rfl, fun _ => ⟨rfl, rfl⟩⟩
            · exact ⟨rfl, fun h => by cases h⟩
        · exact ⟨rfl, fun _ => ⟨rfl, rfl⟩⟩

/-- A generation is installed, and the sessions of another token ended. -/
theorem replaceRuntime_obeys {old runtime : Runtime} {newConfig : Config}
    {workerConfig : WorkerConfig} :
    (replaceRuntime old runtime newConfig workerConfig).Obeys reloading
      (.cleared old runtime.config) fun _ l => l = .done := by
  have hcleared : ∀ new, Phase.cleared old runtime.config ≠ .loaded new := by rintro _ ⟨⟩
  have hdone : ∀ new, Phase.done ≠ .loaded new := by rintro _ ⟨⟩
  refine (obeys_of_ordinary takeDown_ordinary hcleared).bind fun _ l hl => ?_
  subst hl
  refine (obeys_of_ordinary (work_ordinary _) hcleared).bind fun _ l hl => ?_
  subst hl
  refine ⟨⟨old, rfl⟩, fun _ l hl => ?_⟩
  obtain ⟨-, rfl⟩ := hl
  have hrest : ∀ changed, (do
      (S.ask .bumpGeneration : S Unit)
      let done := Runtime.Applied.diff old.config newConfig changed
      announce done
      pure done : S Runtime.Applied).Obeys reloading .done fun _ l => l = .done := by
    intro changed
    refine ⟨trivial, fun _ l hl => ?_⟩
    obtain ⟨-, rfl⟩ := hl
    exact (obeys_of_ordinary (announce_ordinary _) hdone).bind fun _ _ hl => hl
  cases hchanged : Runtime.authTokenChanged old.authToken runtime.authToken with
  | false =>
    refine ⟨trivial, fun _ l hl => ?_⟩
    obtain ⟨-, rfl⟩ := hl
    simp only [Phase.after, hchanged]
    exact hrest false
  | true =>
    refine ⟨trivial, fun _ l hl => ?_⟩
    obtain ⟨-, rfl⟩ := hl
    simp only [Phase.after, hchanged]
    refine ⟨rfl, fun _ l hl => ?_⟩
    obtain ⟨-, rfl⟩ := hl
    exact hrest true

/-- What is done under the lock leaves it held. -/
theorem reloadLocked_obeys :
    reloadLocked.Obeys reloading .locked fun _ l => l ≠ .outside ∧ l ≠ .unended := by
  refine ⟨rfl, fun loaded l hl => ?_⟩
  obtain ⟨-, rfl⟩ := hl
  cases loaded with
  | error e => exact ⟨by rintro ⟨⟩, by rintro ⟨⟩⟩
  | ok new =>
  refine ⟨trivial, fun old l hl => ?_⟩
  obtain ⟨-, rfl⟩ := hl
  refine ⟨⟨_, new, rfl⟩, fun listed l hl => ?_⟩
  obtain ⟨-, rfl⟩ := hl
  cases listed with
  | error e => exact ⟨by rintro ⟨⟩, by rintro ⟨⟩⟩
  | ok jobs =>
  refine checkRefusals_obeys.bind fun r l hl => ?_
  obtain ⟨rfl, hpassed⟩ := hl
  cases r with
  | error e => exact ⟨by rintro ⟨⟩, by rintro ⟨⟩⟩
  | ok _ =>
  refine ⟨⟨_, jobs, rfl, hpassed rfl⟩, fun built l hl => ?_⟩
  obtain ⟨hbuilt, rfl⟩ := hl
  cases built with
  | error e => exact ⟨by rintro ⟨⟩, by rintro ⟨⟩⟩
  | ok built =>
  obtain ⟨runtime, workerConfig⟩ := built
  obtain rfl : runtime.config = new := hbuilt
  refine replaceRuntime_obeys.bind fun _ l hl => ?_
  subst hl
  exact ⟨by rintro ⟨⟩, by rintro ⟨⟩⟩

theorem reload_obeys : reload.Obeys reloading .outside fun _ l => l = .outside := by
  refine ⟨rfl, fun _ l hl => ?_⟩
  obtain ⟨-, rfl⟩ := hl
  refine reloadLocked_obeys.bind fun r l hl => ?_
  exact ⟨hl, fun _ l hl => hl.2⟩

theorem signBackIn_obeys {applied : Runtime.Applied} :
    (signBackIn applied).Obeys reloading .outside fun _ l => l = .outside :=
  obeys_of_ordinary (signBackIn_ordinary applied) (by rintro _ ⟨⟩)

theorem saveAndReload_obeys {syn : TomlSyntax} {doc : ConfigDocument} :
    (saveAndReload syn doc).Obeys reloading .outside fun _ l => l = .outside := by
  refine (obeys_of_ordinary (onFile_ordinary _) (by rintro _ ⟨⟩)).bind fun saved l hl => ?_
  subst hl
  cases saved with
  | error e => rfl
  | ok _ =>
    refine reload_obeys.bind fun r l hl => ?_
    subst hl
    cases r with
    | error e => rfl
    | ok applied => exact signBackIn_obeys.bind fun _ _ hl => hl

theorem runFor_obeys {α : Type} {p : S α} (h : p.Obeys reloading .outside fun _ l => l = .outside) :
    (runFor p).Obeys reloading .outside fun _ _ => True :=
  h.bind fun _ _ _ => trivial

/-- Everything that runs on the service keeps the rules. -/
theorem obeys_of_serving {p : S Unit} (h : Serving p) :
    p.Obeys reloading .outside fun _ _ => True := by
  have hordinary : ∀ {α : Type} {p : S α}, p.Only Ordinary →
      p.Obeys reloading .outside fun _ l => l = .outside :=
    fun h => obeys_of_ordinary h (by rintro _ ⟨⟩)
  cases h with
  | login token => exact runFor_obeys (hordinary ((signIn_ordinary token).bind fun _ => trivial))
  | createSession token => exact runFor_obeys (hordinary ((signIn_ordinary token).bind fun _ => trivial))
  | logout request => exact runFor_obeys (guarded_obeys (hordinary (logout_ordinary _)))
  | destroySession session => exact (hordinary (logout_ordinary session)).mono fun _ _ _ => trivial
  | save request syn doc => exact runFor_obeys (guarded_obeys saveAndReload_obeys)
  | reload => exact runFor_obeys reload_obeys
  | stream request resumedFrom n =>
    exact (obeys_of_aside (serve_aside request resumedFrom n) (by rintro _ ⟨⟩)).mono
      fun _ _ _ => trivial
  | act request p => exact runFor_obeys (guarded_obeys (hordinary (work_ordinary p)))
  | work p => exact (hordinary (work_ordinary p)).mono fun _ _ _ => trivial
  | stopForGood =>
    refine ⟨rfl, fun _ l hl => ?_⟩
    obtain ⟨-, rfl⟩ := hl
    refine ⟨trivial, fun running l hl => ?_⟩
    obtain ⟨-, rfl⟩ := hl
    cases running with
    | false => exact ⟨⟨by rintro ⟨⟩, by rintro ⟨⟩⟩, fun _ _ _ => trivial⟩
    | true =>
      refine ⟨trivial, fun _ l hl => ?_⟩
      obtain ⟨-, rfl⟩ := hl
      exact ⟨⟨by rintro ⟨⟩, by rintro ⟨⟩⟩, fun _ _ _ => trivial⟩
  | dropGuard =>
    refine ⟨rfl, fun _ l hl => ?_⟩
    obtain ⟨-, rfl⟩ := hl
    exact ⟨⟨by rintro ⟨⟩, by rintro ⟨⟩⟩, fun _ _ _ => trivial⟩

/-! ## What an answer leads to -/

section
variable {ι N : Type} {i j : ι} {w : Shared ι N} {l : Phase} {c : ServiceCall} {a : c.Ans}
  {service : Service} {holder : Option ι}

theorem builtFrom_build {env : BuildEnv} {config : Config} {d : Diagnostics} :
    BuiltFrom (.build config) (env.build config d).1 := by
  obtain ⟨e, -, h⟩ | ⟨_, e, -, -, h⟩ | ⟨adapters, -, -, h⟩ := BuildEnv.build_cases env config d <;>
    rw [h]
  · trivial
  · trivial
  · rfl

/-- The phase after an answer of the service. -/
theorem next_of_answers (h : w.Answers i c a service holder) :
    reloading.next c a l (l.after c a) := by
  refine ⟨?_, rfl⟩
  cases h with
  | lock free => trivial
  | unlock => trivial
  | work health diagnostics replied => trivial
  | plain plain served =>
    cases c with
    | build config =>
      cases served
      exact builtFrom_build
    | _ => trivial

/-- A call that has nothing to do with a reload leaves its thread where it was, unless it shows the
    generation to a reload. -/
theorem after_of_aside (hc : Aside c) (h : w.Answers i c a service holder) :
    l.after c a = l ∨ ∃ new, l = .loaded new ∧ l.after c a = .opened w.service.current new := by
  by_cases hloaded : ∃ new, l = .loaded new
  · obtain ⟨new, rfl⟩ := hloaded
    cases c with
    | lockWorker => exact hc.elim
    | unlockWorker => exact hc.elim
    | loadConfig => exact hc.elim
    | unfinished => exact hc.elim
    | build config => exact hc.elim
    | install runtime => exact hc.elim
    | clearSessions => exact hc.elim
    | current =>
      cases h with
      | plain plain served =>
        cases served
        exact .inr ⟨new, rfl, rfl⟩
    | _ => exact .inl rfl
  · exact .inl ((hc.still fun new hl => hloaded ⟨new, hl⟩).2 a _ (next_of_answers h))

/-- While one thread holds the lock, no other gets anywhere with a reload. -/
theorem aside_of_held (hj : j ≠ i) (hheld : w.holder = some j)
    (hl : l ≠ .outside → w.holder = some i) (hmay : reloading.may c l)
    (h : w.Answers i c a service holder) : Aside c := by
  have hother : l = .outside := by
    by_contra hinside
    exact hj (Option.some.inj (hheld.symm.trans (hl hinside)))
  subst hother
  cases c with
  | lockWorker =>
    cases h with
    | lock free =>
      rcases free with hnone | hown
      · rw [hnone] at hheld
        cases hheld
      · exact absurd (Option.some.inj (hheld.symm.trans hown)) hj
    | plain plain served => exact plain.elim
  | unlockWorker => exact absurd rfl hmay.1
  | loadConfig => cases hmay
  | unfinished =>
    obtain ⟨_, _, hmay⟩ := hmay
    cases hmay
  | build config =>
    obtain ⟨_, _, hmay, -⟩ := hmay
    cases hmay
  | install runtime =>
    obtain ⟨_, hmay⟩ := hmay
    cases hmay
  | clearSessions => cases hmay
  | _ => trivial

end

end RuntimeHandle

end SeedMedic
