/-
  What a reload that fails leaves behind.
-/
import SeedMedic.Runtime.Service

namespace SeedMedic

open Lib

namespace RuntimeHandle

/-- What the refusals answer, given what the store says of the leases. -/
def refusals (leased : Except StoreError Bool) (old new : Config) (unfinished : List RepairJob) :
    Except ReloadError Unit :=
  match rootRefusal old new unfinished with
  | some message => .error (.refused message)
  | none =>
    match trackerRefusal old new unfinished with
    | some message => .error (.refused message)
    | none =>
      match libraryRefusal old new unfinished with
      | some message => .error (.refused message)
      | none =>
        if new.worker.owner ≠ old.worker.owner then
          match leased with
          | .error e => .error (.refused ("could not check active leases: " ++ e.toText))
          | .ok true => .error (.refused "worker.owner cannot change while a repair is leased")
          | .ok false => .ok ()
        else .ok ()

variable {env : ServiceEnv} {w : Service}

/-- Checking for refusals changes nothing. -/
theorem checkRefusals_exec (old new : Config) (unfinished : List RepairJob) :
    (checkRefusals old new unfinished).exec (Service.serve env) w =
      some (refusals (w.hasActiveLease env) old new unfinished, w) := by
  unfold checkRefusals refusals
  cases rootRefusal old new unfinished with
  | some message => rfl
  | none =>
    cases trackerRefusal old new unfinished with
    | some message => rfl
    | none =>
      cases libraryRefusal old new unfinished with
      | some message => rfl
      | none =>
        simp only []
        split_ifs
        · cases hl : w.hasActiveLease env with
          | error e => simp [Service.serve, hl]
          | ok leased => cases leased <;> simp [Service.serve, hl]
        · rfl

/-- How far a reload comes under the lock: to an error that changes nothing, to the wiring,
    and beyond it. -/
theorem reloadLocked_exec : reloadLocked.exec (Service.serve env) w =
    match w.loadConfig env with
    | .error e => some (.error (.config e), w)
    | .ok new =>
      match w.unfinished env with
      | .error e => some (.error (.refused
          ("could not check in-flight repairs before reloading: " ++ e.toText)), w)
      | .ok jobs =>
        match refusals (w.hasActiveLease env) w.current.config new jobs with
        | .error e => some (.error e, w)
        | .ok () =>
          let built := env.build.build new w.diagnostics
          match built.1 with
          | .error e => some (.error (.build e), { w with diagnostics := built.2 })
          | .ok (runtime, workerConfig) =>
            ((replaceRuntime w.current runtime new workerConfig).exec (Service.serve env)
              { w with diagnostics := built.2 }).map fun r => (.ok r.1, r.2) := by
  unfold reloadLocked
  simp only [S.ask_bind, Prog.exec_call, Service.serve, Option.bind_some]
  cases hload : w.loadConfig env with
  | error e => rfl
  | ok new =>
    simp only [Prog.exec_call, Service.serve, Option.bind_some]
    cases hjobs : w.unfinished env with
    | error e => rfl
    | ok jobs =>
      simp only [Prog.exec_bind, checkRefusals_exec, Option.bind_some]
      cases refusals (w.hasActiveLease env) w.current.config new jobs with
      | error e => rfl
      | ok _ =>
        simp only [Prog.exec_call, Service.serve, Option.bind_some]
        cases (env.build.build new w.diagnostics).1 with
        | error e => rfl
        | ok r =>
          simp only [Prog.exec_bind, Option.map_eq_bind]
          rfl

/-- A configuration that a reload comes to hand to the diagnostics. -/
structure Readied (env : ServiceEnv) (w : Service) (config : Config) : Prop where
  free : w.locked = false
  loads : w.loadConfig env = .ok config
  unrefused : ∃ jobs, w.unfinished env = .ok jobs ∧
    refusals (w.hasActiveLease env) w.current.config config jobs = .ok ()
  wired : ∃ adapters, env.build.buildAdapters config = .ok adapters

/-- The diagnostics list exactly the trackers of a configuration, each as it is configured. -/
def Lists (d : Diagnostics) (config : Config) : Prop :=
  ∀ id, (d.trackers id).map (·.stub) =
    Diagnostics.configuredStub (BuildEnv.trackerStubs config) id

/-- The one late failure: the HTTP client of the webhook cannot be set up, when the diagnostics
    have been told of other trackers. -/
def LateFailure (env : ServiceEnv) (w : Service) : Prop :=
  ∃ config, Readied env w config ∧ config.notifications.webhookUrl ≠ none ∧
    env.build.http .webhook ≠ .ok () ∧ ¬ Lists w.diagnostics config

theorem buildNotifier_error {env : BuildEnv} {config : Config} :
    (∃ e, env.buildNotifier config = .error e) ↔
      config.notifications.webhookUrl ≠ none ∧ env.http .webhook ≠ .ok () := by
  unfold BuildEnv.buildNotifier BuildEnv.buildHttpClient
  cases config.notifications.webhookUrl with
  | none => simp
  | some url => cases env.http .webhook <;> simp

/-- A reload that fails has changed nothing but the diagnostics, and those only when it failed
    at the webhook. -/
theorem reloadLocked_error {e : ReloadError} {w' : Service}
    (h : reloadLocked.exec (Service.serve env) w = some (.error e, w')) :
    w' = w ∨ ∃ new jobs adapters e', w.loadConfig env = .ok new ∧ w.unfinished env = .ok jobs ∧
      refusals (w.hasActiveLease env) w.current.config new jobs = .ok () ∧
      env.build.buildAdapters new = .ok adapters ∧ env.build.buildNotifier new = .error e' ∧
      w' = { w with diagnostics := w.diagnostics.reseed (BuildEnv.trackerStubs new) } := by
  rw [reloadLocked_exec] at h
  cases hload : w.loadConfig env with
  | error e₁ =>
    simp only [hload] at h
    cases h
    exact .inl rfl
  | ok new =>
    cases hjobs : w.unfinished env with
    | error e₁ =>
      simp only [hload, hjobs] at h
      cases h
      exact .inl rfl
    | ok jobs =>
      cases hrefused : refusals (w.hasActiveLease env) w.current.config new jobs with
      | error e₁ =>
        simp only [hload, hjobs, hrefused] at h
        cases h
        exact .inl rfl
      | ok u =>
        simp only [hload, hjobs, hrefused] at h
        obtain ⟨e', -, hbuild⟩ | ⟨adapters, e', hwired, hnotifier, hbuild⟩ | ⟨adapters, -, -, hbuild⟩ :=
          BuildEnv.build_cases env.build new w.diagnostics
        · rw [hbuild] at h
          cases h
          exact .inl rfl
        · rw [hbuild] at h
          cases h
          exact .inr ⟨new, jobs, adapters, e', rfl, rfl, hrefused, hwired, hnotifier, rfl⟩
        · rw [hbuild] at h
          obtain ⟨r, -, hr⟩ := Option.map_eq_some_iff.1 h
          cases hr

/-- A reload is its locked part between the taking and the giving back of the lock. -/
theorem reload_eq : reload = .call .lockWorker fun _ =>
    reloadLocked >>= fun result => .call .unlockWorker fun _ => .ret result := rfl

/-- A reload made while another holds the lock does not come to an end by itself; any other is
    the locked part. -/
theorem reload_exec (hfree : w.locked = false) : reload.exec (Service.serve env) w =
    (reloadLocked.exec (Service.serve env) { w with locked := true }).map fun r =>
      (r.1, { r.2 with locked := false }) := by
  rw [reload_eq]
  simp only [Prog.exec_call, Service.serve, hfree, Prog.exec_bind, Option.map_eq_bind]
  rfl

theorem reload_waits (hheld : w.locked = true) : reload.exec (Service.serve env) w = none := by
  rw [reload_eq]
  simp [Prog.exec_call, Service.serve, hheld]

/-- The diagnostics list a configuration exactly where a reseeding with it leaves them alone. -/
theorem lists_iff {d : Diagnostics} {config : Config} :
    Lists d config ↔ d.reseed (BuildEnv.trackerStubs config) = d :=
  Diagnostics.reseed_eq_self.symm

/-- A reload that fails late tells the diagnostics of trackers it does not bring up. -/
theorem reload_of_lateFailure (h : LateFailure env w) :
    ∃ e w', reload.exec (Service.serve env) w = some (.error e, w') ∧ w' ≠ w := by
  obtain ⟨config, ⟨hfree, hload, ⟨jobs, hjobs, hpass⟩, adapters, hwired⟩, hurl, hhttp, hother⟩ := h
  obtain ⟨e, hnotifier⟩ := buildNotifier_error.2 ⟨hurl, hhttp⟩
  have hbuild := BuildEnv.build_of_late (d := w.diagnostics) hwired hnotifier
  refine ⟨.build e, { w with diagnostics := w.diagnostics.reseed (BuildEnv.trackerStubs config) },
    ?_, fun hsame => hother (lists_iff.2 (congrArg Service.diagnostics hsame))⟩
  rw [reload_exec hfree, reloadLocked_exec]
  have hload' : ({ w with locked := true } : Service).loadConfig env = .ok config := hload
  have hjobs' : ({ w with locked := true } : Service).unfinished env = .ok jobs := hjobs
  have hpass' : refusals (({ w with locked := true } : Service).hasActiveLease env)
      w.current.config config jobs = .ok () := hpass
  simp only [hload', hjobs', hpass', hbuild, Option.map_some]
  rw [← hfree]

end RuntimeHandle

/-- A failed reload leaves everything as it was, exactly where it does not fail at the webhook
    with other trackers configured than the diagnostics list. -/
theorem failed_reload_unnoticed_iff (env : ServiceEnv) (w : Service) :
    (∀ e w', RuntimeHandle.reload.exec (Service.serve env) w = some (.error e, w') → w' = w) ↔
      ¬ RuntimeHandle.LateFailure env w := by
  constructor
  · intro h hlate
    obtain ⟨e, w', hrun, hne⟩ := RuntimeHandle.reload_of_lateFailure hlate
    exact hne (h e w' hrun)
  intro hearly e w' hrun
  cases hheld : w.locked with
  | true =>
    rw [RuntimeHandle.reload_waits hheld] at hrun
    cases hrun
  | false =>
    rw [RuntimeHandle.reload_exec hheld] at hrun
    obtain ⟨⟨r, w₁⟩, hlocked, hr⟩ := Option.map_eq_some_iff.1 hrun
    obtain ⟨rfl, rfl⟩ := Prod.mk.inj hr
    obtain rfl | ⟨new, jobs, adapters, e', hload, hjobs, hpass, hwired, hnotifier, rfl⟩ :=
      RuntimeHandle.reloadLocked_error hlocked
    · show ({ w with locked := false } : Service) = w
      rw [← hheld]
    · obtain ⟨hurl, hhttp⟩ := RuntimeHandle.buildNotifier_error.1 ⟨e', hnotifier⟩
      have hlists : RuntimeHandle.Lists w.diagnostics new := by
        by_contra hother
        exact hearly ⟨new, ⟨hheld, hload, ⟨jobs, hjobs, hpass⟩, adapters, hwired⟩, hurl, hhttp, hother⟩
      show ({ w with
        diagnostics := w.diagnostics.reseed (BuildEnv.trackerStubs new), locked := false } :
          Service) = w
      rw [RuntimeHandle.lists_iff.1 hlists, ← hheld]

/-! ## Trackers that are forgotten before their generation comes up -/

namespace Forgotten

/-- The configuration that ran, with a tracker. -/
def before : Config := { Config.default with
  trackers := [⟨"a", .fake, placeholderUrl, .default, none, .header⟩] }

/-- The file after an edit: a webhook, and no tracker any more. -/
def after : Config := { Config.default with
  notifications := ⟨some ⟨"http://hooks/", "http"⟩, 1800⟩ }

def text : String := "[notifications]\nwebhook_url = \"http://hooks/\"\n"

def tree : Toml.Table :=
  [("notifications", .table [("webhook_url", .str "http://hooks/")])]

/-- Every HTTP client but the last can be set up. -/
def env : ServiceEnv :=
  let plain := BuildEnv.plain (.known [(text, tree)] fun _ => text)
  .plain { plain with
    http := fun use => if use = .webhook then .error "builder error" else .ok () }

def service : Service :=
  .started ⟨some ⟨text, 1, 0o600⟩, none, none, 2⟩ (.plain before env.build) ⟨.empty, .empty, [], 0⟩

theorem late : RuntimeHandle.LateFailure env service := by
  refine ⟨after, ⟨rfl, by decide +kernel, ⟨[], rfl, by decide +kernel⟩, ⟨⟨[]⟩, [], []⟩, ?_⟩,
    by decide, by decide, ?_⟩
  · have hvalid : after.validate env.build.host = .ok () := by decide +kernel
    unfold BuildEnv.buildAdapters
    rw [hvalid]
    rfl
  · intro hlists
    have hstub := hlists ⟨"a"⟩
    revert hstub
    decide +kernel

end Forgotten

/-- A reload that returns an error has forgotten the health of a tracker. -/
theorem not_failed_reload_unnoticed : ¬ ∀ e w',
    RuntimeHandle.reload.exec (Service.serve Forgotten.env) Forgotten.service =
      some (.error e, w') → w' = Forgotten.service := by
  intro h
  obtain ⟨e, w', hrun, hne⟩ := RuntimeHandle.reload_of_lateFailure Forgotten.late
  exact hne (h e w' hrun)

end SeedMedic
