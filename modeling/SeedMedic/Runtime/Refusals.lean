/-
  Which jobs a reload leaves behind under a staging root or a tracker it takes away.
-/
import SeedMedic.Runtime.Phases

namespace SeedMedic

open Lib Prog

namespace RuntimeHandle

/-- The staging area is moved from one place to another. -/
def RootChanges (old new : Config) : Prop :=
  isUnset old.staging.root = false ∧ (new.staging.root == old.staging.root) = false

/-- A job has data under the root that is left, or is filed under a tracker that is removed. -/
def Affected (old new : Config) (job : RepairJob) : Prop :=
  (RootChanges old new ∧ job.stagingDir ≠ none) ∨ job.tracker.str ∈ removedTrackers old new

/-- Some job that is neither completed nor failed is affected. -/
def Standing (old new : Config) (s : SqliteRepairStore) : Prop :=
  ∃ id r, s.jobs.get? id = some r ∧ r.state.isTerminal = false ∧ Affected old new (readJob r)

/-- What passes the refusals affects none of the jobs they looked at. -/
theorem not_affected_of_unrefused {old new : Config} {jobs : List RepairJob}
    (hroot : rootRefusal old new jobs = none) (htracker : trackerRefusal old new jobs = none) :
    ∀ job ∈ jobs, ¬Affected old new job := by
  rintro job hjob (⟨⟨hset, hmoved⟩, hstaged⟩ | hremoved)
  · rcases rootRefusal_eq_none.1 hroot with h | h | h
    · rw [hset] at h
      cases h
    · rw [hmoved] at h
      cases h
    · exact hstaged (h job hjob)
  · exact trackerRefusal_eq_none.1 htracker _ hremoved job hjob rfl

/-! ## What may happen between the check and the installation -/

/-- A write that stages no job where the root changes, and revives none that is affected. -/
def Harmless (old new : Config) (s : SqliteRepairStore) : StoreCall → Prop
  | .apply id t u =>
    (RootChanges old new → t.toState.isTerminal = false → u.patch.stagingDir = none) ∧
    (t.fromState.isTerminal = true → t.toState.isTerminal = false →
      ∀ r, s.jobs.get? id = some r → ¬Affected old new (readJob r))
  | .recordProgress _ patch => RootChanges old new → patch.stagingDir = none
  | _ => True

theorem affected_of_changed {old new : Config} {now : Time} {s : SqliteRepairStore} {c : StoreCall}
    {r r' : JobRow} (hc : Harmless old new s c) (hr : s.jobs.get? r.id = some r)
    (h : SqliteRepairStore.Changed now c r r') (hopen : r'.state.isTerminal = false)
    (haffected : Affected old new (readJob r')) :
    r.state.isTerminal = false ∧ Affected old new (readJob r) := by
  cases h with
  | @moved t u call left =>
    subst call
    obtain ⟨hstages, hrevives⟩ := hc
    have hbefore : Affected old new (readJob r) := by
      rcases haffected with ⟨hroot, hstaged⟩ | hremoved
      · refine .inl ⟨hroot, fun hnone => hstaged ?_⟩
        have hpatch := hstages hroot hopen
        simp only [readJob, patchRow, transitionRow] at hnone ⊢
        rw [hpatch, hnone]
        rfl
      · exact .inr hremoved
    refine ⟨?_, hbefore⟩
    by_contra hended
    rw [Bool.not_eq_false] at hended
    exact hrevives (left ▸ hended) hopen r hr hbefore
  | @patched patch call =>
    subst call
    refine ⟨hopen, ?_⟩
    rcases haffected with ⟨hroot, hstaged⟩ | hremoved
    · refine .inl ⟨hroot, fun hnone => hstaged ?_⟩
      have hpatch : patch.stagingDir = none := hc hroot
      simp only [readJob, patchRow] at hnone ⊢
      rw [hpatch, hnone]
      rfl
    · exact .inr hremoved
  | repointed => exact ⟨hopen, haffected⟩
  | rescheduled h =>
    obtain ⟨_, _, _, _, _, rfl⟩ := h
    exact ⟨hopen, haffected⟩

/-! ## What is noted of a reload -/

/-- The configuration each thread loaded last, and the two that were compared with the jobs, until
    the new one is installed or given up. -/
structure Comparison (ι : Type) where
  loaded : ι → Option Config
  compared : Option (Config × Config)

section
variable {ι : Type} [DecidableEq ι]

/-- What is noted when a call is answered. -/
def compare (i : ι) : (c : ServiceCall) → c.Ans → Shared ι (Comparison ι) → Comparison ι
  | .loadConfig, .ok new, w =>
    { w.notes with loaded := Function.update w.notes.loaded i (some new) }
  | .unfinished, .ok _, w =>
    { w.notes with compared := (w.notes.loaded i).map fun new => (w.service.current.config, new) }
  | .lockWorker, _, w | .unlockWorker, _, w | .install _, _, w => { w.notes with compared := none }
  | _, _, w => w.notes

/-- The jobs are compared while no parked one is affected, and until the installation only
    harmless writes are made. -/
def Cautious (i : ι) : ServiceCall → Shared ι (Comparison ι) → Prop
  | .unfinished, w => ∀ new, w.notes.loaded i = some new → ∀ id r,
      w.service.store.jobs.get? id = some r → r.state = .awaitingReview →
        ¬Affected w.service.current.config new (readJob r)
  | .work (.store c), w => ∀ old new, w.notes.compared = some (old, new) →
      Harmless old new w.service.store c
  | _, _ => True

/-- No job turns up meanwhile under a tracker that is removed. -/
def DiscoversElsewhere (w w' : Shared ι (Comparison ι)) : Prop :=
  ∀ old new, w.notes.compared = some (old, new) → ∀ id r,
    w.service.store.jobs.get? id = none → w'.service.store.jobs.get? id = some r →
      r.trackerId.str ∉ removedTrackers old new

end

/-! ## Every run -/

section
variable {ι : Type} {i j : ι} {w w' : Shared ι (Comparison ι)} {l : Phase}

/-- What a phase says of the service. -/
def Phase.Holds (i : ι) (l : Phase) (w : Shared ι (Comparison ι)) : Prop :=
  l ≠ .outside → w.holder = some i ∧
    match l with
    | .loaded new => w.notes.loaded i = some new
    | .opened old new => w.notes.loaded i = some new ∧ w.service.current = old
    | .listed old new jobs => w.service.current = old ∧
      w.notes.compared = some (old.config, new) ∧
      (Standing old.config new w.service.store → ∃ job ∈ jobs, Affected old.config new job)
    | .cleared old new => w.service.current = old ∧
      w.notes.compared = some (old.config, new) ∧ ¬Standing old.config new w.service.store
    | _ => True

/-- Nothing that a phase speaks of has changed, and nothing new stands in the way. -/
structure Undisturbed (i : ι) (w w' : Shared ι (Comparison ι)) : Prop where
  holder : w'.holder = w.holder
  current : w'.service.current = w.service.current
  loaded : w'.notes.loaded i = w.notes.loaded i
  compared : w'.notes.compared = w.notes.compared
  standing : ∀ old new, w.notes.compared = some (old, new) →
    Standing old new w'.service.store → Standing old new w.service.store

theorem Phase.Holds.keep (h : l.Holds i w) (hw : Undisturbed i w w') : l.Holds i w' := by
  intro hl
  obtain ⟨hholder, h⟩ := h hl
  refine ⟨hw.holder.trans hholder, ?_⟩
  cases l with
  | loaded new => exact hw.loaded.trans h
  | opened old new => exact ⟨hw.loaded.trans h.1, by rw [hw.current]; exact h.2⟩
  | listed old new jobs =>
    obtain ⟨hcurrent, hcompared, hjobs⟩ := h
    exact ⟨by rw [hw.current]; exact hcurrent, hw.compared.trans hcompared,
      fun hs => hjobs (hw.standing old.config new hcompared hs)⟩
  | cleared old new =>
    obtain ⟨hcurrent, hcompared, hnone⟩ := h
    exact ⟨by rw [hw.current]; exact hcurrent, hw.compared.trans hcompared,
      fun hs => hnone (hw.standing old.config new hcompared hs)⟩
  | _ => trivial

/-- Before the installation, harmless writes put nothing in the way. -/
theorem standing_of_replies {old new : Config} {now : Time} {c : Call} {a : Ans c}
    {s s' : SqliteRepairStore} (hs : s.Replies now c a s')
    (hc : ∀ c', c = .store c' → Harmless old new s c') (h : Standing old new s') :
    Standing old new s := by
  obtain ⟨id, r', hr', hopen, haffected⟩ := h
  obtain ⟨r, hr, rfl | ⟨c', rfl, hchanged⟩⟩ := hs.changed hr'
  · exact ⟨id, r', hr, hopen, haffected⟩
  · have hid : r.id = id := (Table.get?_some hr).2
    obtain ⟨hopen, haffected⟩ :=
      affected_of_changed (hc c' rfl) (by rw [hid]; exact hr) hchanged hopen haffected
    exact ⟨id, r, hr, hopen, haffected⟩

/-- What is listed shows every job in the way, when no parked one is. -/
theorem listed_of_standing {old new : Config} {s : SqliteRepairStore}
    (hparked : ∀ id r, s.jobs.get? id = some r → r.state = .awaitingReview →
      ¬Affected old new (readJob r)) (h : Standing old new s) :
    ∃ job ∈ s.unfinished, Affected old new job := by
  obtain ⟨id, r, hr, hopen, haffected⟩ := h
  refine ⟨readJob r, List.mem_map_of_mem ?_, haffected⟩
  rw [List.mem_insertionSort, List.mem_filter]
  refine ⟨(Table.get?_some hr).1, ?_⟩
  have hacting : r.state ≠ .awaitingReview := fun hstate => hparked id r hr hstate haffected
  simp [RepairState.isActionable, hopen, hacting]

variable [DecidableEq ι]

theorem compare_aside {c : ServiceCall} {a : c.Ans} (hc : Aside c) : compare i c a w = w.notes := by
  cases c with
  | lockWorker => exact hc.elim
  | unlockWorker => exact hc.elim
  | loadConfig => exact hc.elim
  | unfinished => exact hc.elim
  | build config => exact hc.elim
  | install runtime => exact hc.elim
  | clearSessions => exact hc.elim
  | _ => rfl

/-- A call that has nothing to do with a reload disturbs none, as long as it is harmless. -/
theorem undisturbed_of_aside {c : ServiceCall} {a : c.Ans} {service : Service} {holder : Option ι}
    (hc : Aside c) (hcautious : Cautious i c w) (h : w.Answers i c a service holder) (k : ι) :
    Undisturbed k w ⟨service, holder, compare i c a w⟩ := by
  rw [compare_aside hc]
  cases h with
  | lock free => exact hc.elim
  | unlock => exact hc.elim
  | work health diagnostics replied =>
    refine ⟨rfl, rfl, rfl, rfl, fun old new hcompared => standing_of_replies replied ?_⟩
    rintro c' rfl
    exact hcautious old new hcompared
  | plain plain served =>
    refine ⟨rfl, ?_, rfl, rfl, fun old new _ h => ?_⟩
    · refine (Service.serve_current plain served).trans ?_
      cases c with
      | install runtime => exact hc.elim
      | _ => rfl
    · rwa [Service.serve_store plain served] at h

/-- What turns up elsewhere is not in the way. -/
theorem standing_of_discovery {old new : Config} {now : Time} {h : HitAndRun} {d : Discovered}
    {s s' : SqliteRepairStore} (hok : s.recordDiscovery now h = .ok (d, s'))
    (helsewhere : ∀ id r, s.jobs.get? id = none → s'.jobs.get? id = some r →
      r.trackerId.str ∉ removedTrackers old new) (hs : Standing old new s') :
    Standing old new s := by
  rcases SqliteRepairStore.recordDiscovery_cases hok with rfl | ⟨id, row, hnone, -, -, hrows⟩
  · exact hs
  obtain ⟨k, r, hr, hopen, haffected⟩ := hs
  by_cases hk : id = k
  · subst hk
    have hnew := hrows id
    rw [if_pos rfl, hr] at hnew
    obtain rfl := Option.some.inj hnew
    rcases haffected with ⟨-, hstaged⟩ | hremoved
    · exact absurd rfl hstaged
    · exact absurd hremoved (helsewhere id _ hnone hr)
  · rw [hrows k, if_neg hk] at hr
    exact ⟨k, r, hr, hopen, haffected⟩

theorem services_sound : ((services ι compare).confine (fun _ _ => True) Cautious
    DiscoversElsewhere).Sound (fun _ => reloading) (fun _ => True) Phase.Holds where
  start := fun i p w _ hp => ⟨.outside, fun h => absurd rfl h, obeys_of_serving hp.2⟩
  call := by
    rintro i c w a w' l - hl hmay ⟨hcautious, service, holder, hanswered, rfl⟩
    refine ⟨trivial, ⟨_, next_of_answers hanswered, ?_⟩, fun j hj m hm hm' => ?_⟩
    · by_cases hc : Aside c
      · have hkept := hl.keep (undisturbed_of_aside hc hcautious hanswered i)
        obtain hsame | ⟨new, rfl, hopened⟩ := after_of_aside (l := l) hc hanswered
        · rw [hsame]
          exact hkept
        · obtain ⟨hholder, hloaded⟩ := hkept (by rintro ⟨⟩)
          have hcurrent := (undisturbed_of_aside hc hcautious hanswered i).current
          rw [hopened]
          exact fun _ => ⟨hholder, hloaded, hcurrent⟩
      cases c with
      | lockWorker =>
        cases hanswered with
        | lock free => exact fun _ => ⟨rfl, trivial⟩
        | plain plain served => exact plain.elim
      | unlockWorker => exact fun h => absurd rfl h
      | loadConfig =>
        obtain rfl := hmay
        obtain ⟨hholder, -⟩ := hl (by rintro ⟨⟩)
        cases hanswered with
        | plain plain served =>
          cases served
          refine fun _ => ⟨hholder, ?_⟩
          cases w.service.loadConfig _ with
          | error e => trivial
          | ok new => exact Function.update_self ..
      | unfinished =>
        obtain ⟨old, new, rfl⟩ := hmay
        obtain ⟨hholder, hloaded, hcurrent⟩ := hl (by rintro ⟨⟩)
        have hparked := hcautious new hloaded
        rw [hcurrent] at hparked
        cases hanswered with
        | @plain env _ _ _ plain served =>
          cases served
          refine fun _ => ⟨hholder, ?_⟩
          unfold Service.unfinished
          cases env.unfinishedFails with
          | some e => exact ⟨hloaded, hcurrent⟩
          | none =>
            refine ⟨hcurrent, ?_, listed_of_standing hparked⟩
            simp only [compare, hloaded, hcurrent, Option.map_some]
      | build config =>
        obtain ⟨old, jobs, rfl, hroot, htracker⟩ := hmay
        obtain ⟨hholder, hcurrent, hcompared, hlisted⟩ := hl (by rintro ⟨⟩)
        cases hanswered with
        | @plain env _ _ _ plain served =>
          cases served
          refine fun _ => ⟨hholder, hcurrent, hcompared, fun hs => ?_⟩
          obtain ⟨job, hjob, haffected⟩ := hlisted hs
          exact not_affected_of_unrefused hroot htracker job hjob haffected
      | install runtime =>
        obtain ⟨old, rfl⟩ := hmay
        obtain ⟨hholder, -⟩ := hl (by rintro ⟨⟩)
        cases hanswered with
        | plain plain served =>
          refine fun _ => ⟨hholder, ?_⟩
          simp only [Phase.after]
          split_ifs <;> trivial
      | clearSessions =>
        obtain rfl := hmay
        obtain ⟨hholder, -⟩ := hl (by rintro ⟨⟩)
        cases hanswered with
        | plain plain served => exact fun _ => ⟨hholder, trivial⟩
      | _ => exact absurd trivial hc
    · have hc : Aside c :=
        aside_of_held hj (hm hm').1 (fun hinside => (hl hinside).1) hmay hanswered
      exact hm.keep (undisturbed_of_aside hc hcautious hanswered j) hm'
  move := by
    rintro w w' - ⟨helsewhere, ⟨dir, rfl⟩ | ⟨now, h, d, store, hok, rfl⟩ | ⟨kind, -, rfl⟩⟩
    · exact ⟨trivial, fun j m hm => hm.keep ⟨rfl, rfl, rfl, rfl, fun _ _ _ h => h⟩⟩
    · refine ⟨trivial, fun j m hm => hm.keep ⟨rfl, rfl, rfl, rfl, fun old new hcompared hs => ?_⟩⟩
      exact standing_of_discovery hok (helsewhere old new hcompared) hs
    · exact ⟨trivial, fun j m hm => hm.keep ⟨rfl, rfl, rfl, rfl, fun _ _ _ h => h⟩⟩

end

end RuntimeHandle

open RuntimeHandle

/-- In every run in which the jobs are compared while no parked one is affected, and in which only
    harmless writes follow until the installation, no job that is neither completed nor failed is
    affected by the generation about to be installed. -/
theorem installed_over_unaffected {ι : Type} [DecidableEq ι] {w₀ : Shared ι (Comparison ι)}
    {s : Lib.Config ι ServiceCall ServiceCall.Ans (Shared ι (Comparison ι))} {i : ι}
    {runtime : Runtime} {k : Unit → S Unit}
    (hreach : ((services ι compare).confine (fun _ _ => True) Cautious DiscoversElsewhere).Reach
      w₀ s)
    (hinstall : s.threads i = some (.call (.install runtime) k)) :
    ¬Standing s.world.service.current.config runtime.config s.world.service.store := by
  obtain ⟨-, l, hl, old, rfl⟩ := services_sound.permitted trivial hreach hinstall
  obtain ⟨-, hcurrent, -, hnone⟩ := hl (by rintro ⟨⟩)
  rw [hcurrent]
  exact hnone

/-! ## A staging root moved under a parked repair -/

namespace MovedRoot

def text : String := "[staging]\nroot = \"/other\"\n"

def tree : Toml.Table := [("staging", .table [("root", .str "/other")])]

def syn : TomlSyntax := .known [(text, tree)] fun _ => text

def env : ServiceEnv := .plain (.plain syn)

def old : Config := { Config.default with staging := ⟨.ofString "/staging", 0⟩ }

/-- One job with data below the old root. -/
def store (state : RepairState) : SqliteRepairStore where
  jobs := ⟨[{ discoveredRow ⟨1⟩ 0 ⟨⟨"tracker"⟩, ⟨"7"⟩, "show", none, 10, none⟩ with
    state := state, reviewFromState := some .staged, stagingDir := some (JobId.home ⟨1⟩) }],
    List.nodup_singleton _⟩
  files := .empty
  transitions := []
  jobSeq := 1

def service (state : RepairState) : Shared Unit (Comparison Unit) where
  service := .started ⟨some ⟨text, 1, 0o600⟩, none, none, 2⟩ (.plain old env.build) (store state)
  holder := none
  notes := ⟨fun _ => none, none⟩

/-- The configuration of the generation that is about to be installed. -/
def installing : S Unit → Option Config
  | .call (.install runtime) _ => some runtime.config
  | _ => none

/-- The generation that is about to be installed has the jobs in its way. -/
def stands (w : Shared Unit (Comparison Unit)) (new : Config) : Bool :=
  let old := w.service.current.config
  w.service.store.jobs.rows.any fun r =>
    !r.state.isTerminal && !isUnset old.staging.root && !(new.staging.root == old.staging.root) &&
      r.stagingDir.isSome

theorem standing_of_stands {w : Shared Unit (Comparison Unit)} {new : Config}
    (h : stands w new = true) :
    Standing w.service.current.config new w.service.store := by
  obtain ⟨r, hr, hstands⟩ := List.any_eq_true.1 h
  simp only [Bool.and_eq_true, Bool.not_eq_true'] at hstands
  obtain ⟨⟨⟨hopen, hset⟩, hmoved⟩, hstaged⟩ := hstands
  exact ⟨r.id, r, Table.get?_eq_some hr, hopen, .inl ⟨⟨hset, hmoved⟩,
    Option.isSome_iff_ne_none.1 hstaged⟩⟩

/-- As the surroundings answer, but only what is surely harmless. -/
def carefully (c : ServiceCall) (w : Shared Unit (Comparison Unit)) :
    Option (c.Ans × Shared Unit (Comparison Unit)) :=
  match c with
  | .unfinished =>
    if w.service.store.jobs.rows.all fun r => r.state ≠ .awaitingReview then
      Shared.reply env compare () .unfinished w
    else none
  | .work (.store (.apply ..)) | .work (.store (.recordProgress ..)) => none
  | c => Shared.reply env compare () c w

theorem carefully_answers {c : ServiceCall} {w : Shared Unit (Comparison Unit)}
    {a : c.Ans × Shared Unit (Comparison Unit)} (h : carefully c w = some a) :
    ((services Unit compare).confine (fun _ _ => True) Cautious DiscoversElsewhere).answers () c w
      a.1 a.2 := by
  cases c with
  | unfinished =>
    by_cases hparked : (w.service.store.jobs.rows.all fun r => r.state ≠ .awaitingReview) = true
    · simp only [carefully, hparked, if_true] at h
      refine ⟨fun new _ id r hr hstate => ?_, Shared.reply_answers h⟩
      have hne := List.all_eq_true.1 hparked r (Table.get?_some hr).1
      exact absurd hstate (of_decide_eq_true hne)
    · simp only [carefully, hparked] at h
      cases h
  | work c =>
    cases c with
    | store c =>
      cases c with
      | apply id t u => cases h
      | recordProgress id patch => cases h
      | _ => exact ⟨fun _ _ _ => trivial, Shared.reply_answers (e := env) h⟩
    | _ => exact ⟨trivial, Shared.reply_answers (e := env) h⟩
  | _ => exact ⟨trivial, Shared.reply_answers (e := env) h⟩

theorem installing_some {p : S Unit} {new : Config} (h : installing p = some new) :
    ∃ (runtime : Runtime) (k : Unit → S Unit), p = .call (.install runtime) k ∧
      runtime.config = new := by
  cases p with
  | ret a => cases h
  | call c k =>
    cases c with
    | install runtime => exact ⟨runtime, k, rfl, Option.some.inj h⟩
    | _ => cases h

end MovedRoot

/-- A job that is completed is no obstacle to moving the root. -/
theorem completed_unaffected : ∃ (s : Lib.Config Unit ServiceCall ServiceCall.Ans
      (Shared Unit (Comparison Unit))) (runtime : Runtime) (k : Unit → S Unit),
    s.threads () = some (.call (.install runtime) k) ∧
      ¬Standing s.world.service.current.config runtime.config s.world.service.store := by
  obtain ⟨s, hs, hthread, -⟩ := System.reach_alone
    ((services Unit compare).confine (fun _ _ => True) Cautious DiscoversElsewhere)
    (MovedRoot.service .completed) () ⟨trivial, .reload⟩
    (fun c w a h => ⟨w, .refl, MovedRoot.carefully_answers h⟩) 12
  have hinstalling : (MovedRoot.installing (System.drive MovedRoot.carefully 12
      (runFor RuntimeHandle.reload) (MovedRoot.service .completed)).1).isSome = true := by
    decide +kernel
  obtain ⟨new, hnew⟩ := Option.isSome_iff_exists.1 hinstalling
  obtain ⟨runtime, k, hcall, -⟩ := MovedRoot.installing_some hnew
  rw [hcall] at hthread
  exact ⟨s, runtime, k, hthread, installed_over_unaffected hs hthread⟩

/-- The root is moved under a job that waits for review. -/
theorem installed_over_parked : ∃ (s : Lib.Config Unit ServiceCall ServiceCall.Ans
      (Shared Unit (Comparison Unit))) (runtime : Runtime) (k : Unit → S Unit),
    (services Unit compare).Reach (MovedRoot.service .awaitingReview) s ∧
      s.threads () = some (.call (.install runtime) k) ∧
      Standing s.world.service.current.config runtime.config s.world.service.store := by
  obtain ⟨s, hs, hthread, hworld⟩ := System.reach_alone (services Unit compare)
    (MovedRoot.service .awaitingReview) () .reload
    (fun c w a h => ⟨w, .refl, Shared.reply_answers (e := MovedRoot.env) h⟩) 13
  have hstands : (MovedRoot.installing (System.drive (Shared.reply MovedRoot.env compare ()) 13
      (runFor RuntimeHandle.reload) (MovedRoot.service .awaitingReview)).1).any
        (MovedRoot.stands (System.drive (Shared.reply MovedRoot.env compare ()) 13
          (runFor RuntimeHandle.reload) (MovedRoot.service .awaitingReview)).2) = true := by
    decide +kernel
  obtain ⟨new, hnew, hstands⟩ := (Option.any_eq_true _ _).1 hstands
  obtain ⟨runtime, k, hcall, rfl⟩ := MovedRoot.installing_some hnew
  rw [hcall] at hthread
  refine ⟨s, runtime, k, hs, hthread, ?_⟩
  rw [hworld]
  exact MovedRoot.standing_of_stands hstands

end SeedMedic
