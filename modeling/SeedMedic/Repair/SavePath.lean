/-
  Where the client has the torrents it is asked to resume.
-/
import SeedMedic.Repair.Plans
import SeedMedic.Repair.Programs
import SeedMedic.Repair.ResumeSafety
import SeedMedic.Repair.Serve

namespace SeedMedic

open Lib Prog

/-! ## States from injection on -/

/-- A state a job only comes to once its torrent was handed to the client. -/
def RepairState.pastInjection : RepairState → Bool
  | injected | rechecking | verified | seeding | completed => true
  | _ => false

/-- A job that is past its injection, or will be when it is taken up again. -/
def PastInjection (state : RepairState) (reviewFrom : Option RepairState) : Prop :=
  state.pastInjection = true ∨
    state = .awaitingReview ∧ ∃ resumeTo, reviewFrom = some resumeTo ∧ resumeTo.pastInjection = true

/-- A transition leads past the injection from past it, by the injection itself, or by a retry. -/
theorem pastInjection_toState {t : Transition} (h : t.toState.pastInjection = true) :
    t.fromState.pastInjection = true ∨ (t.reason = .progress ∧ t.fromState = .staged) ∨
      (t.reason = .operatorRetry ∧ t.fromState = .awaitingReview) := by
  have hearly : ∀ {s : RepairState}, t.toState = s → s.pastInjection = false → False := by
    intro s hs hn
    rw [hs, hn] at h
    cases h
  rcases t.cases_reason with ⟨hr, hnext⟩ | ⟨-, -, -, hto⟩ | ⟨-, -, hto⟩ | ⟨hr, hfrom⟩ | ⟨-, -, hto⟩ |
    ⟨-, -, hto⟩ | ⟨-, -, hto⟩ | ⟨-, m, n, hm, hn, hlt⟩
  · -- one step on
    generalize t.fromState = src at *
    generalize t.toState = dst at *
    cases src <;> cases hnext <;> first | exact .inr (.inl ⟨hr, rfl⟩) | exact .inl rfl | cases h
  · exact (hearly hto rfl).elim
  · exact (hearly hto rfl).elim
  · exact .inr (.inr ⟨hr, hfrom⟩)
  · exact (hearly hto rfl).elim
  · exact (hearly hto rfl).elim
  · exact (hearly hto rfl).elim
  · -- backwards only
    left
    generalize t.fromState = src at *
    generalize t.toState = dst at *
    cases dst <;> cases h <;> cases hn <;> cases src <;> cases hm <;>
      first | rfl | exact absurd hlt (by decide)

/-! ## What is written and asked on the way to a resume -/

/-- The torrent whose injection the current step had accepted, after a call. -/
def placedRecord (placed : Option InfoHash) : (c : Call) → Ans c → Option InfoHash
  | .client (.addPaused request), .ok () => some request.infoHash
  | .enterStep _, _ => none
  | _, _ => placed

/-- A directory is the job's own, or the one the copy in the current step has. -/
def Desk.Knows (d : Desk) (id : JobId) (dir : SafeRelativePath) : Prop :=
  dir = id.home ∨ ∃ job, d.current = some job ∧ job.id = id ∧ job.stagingDir = some dir

/-- Torrents are handed to the client with the directory of the step's job, a job counts as injected
    once that was accepted, and torrents are resumed for jobs that are past it. -/
def placing (root : PathBuf) : Rules Call Ans (Desk × Option InfoHash) where
  may
    | .client (.addPaused request), (d, _) => ∃ job dir, d.current = some job ∧
      job.infoHash = some request.infoHash ∧ job.stagingDir = some dir ∧
        request.savePath = dir.joinOnto root
    | .client (.resume _), (d, _) => ∃ job, d.current = some job ∧ job.state.pastInjection = true
    | .store (.apply id t u), (d, placed) => (∀ dir, u.patch.stagingDir = some dir → d.Knows id dir) ∧
      (t.fromState ≠ .discovered → u.patch.infoHash = none) ∧
      (t.reason = .progress → t.fromState = .staged →
        (∃ job, d.current = some job ∧ job.id = id ∧ job.stagingDir.isSome) ∧ placed.isSome)
    | .store (.recordProgress id patch), (d, _) =>
      (∀ dir, patch.stagingDir = some dir → d.Knows id dir) ∧ patch.infoHash = none
    | _, _ => True
  next c r l l' := l' = (l.1.record c r, placedRecord l.2 c r)

section
variable {root : PathBuf} {deps : RepairDeps} {config : WorkerConfig} {job : RepairJob}
  {l : Desk × Option InfoHash}

/-- A call that is permitted wherever it is made. -/
def AlwaysPlaces (root : PathBuf) (c : Call) : Prop := ∀ l, (placing root).may c l

theorem obeys_of_alwaysPlaces {α : Type} {p : M α} (h : p.Only (AlwaysPlaces root)) :
    p.Obeys (placing root) l fun _ _ => True :=
  h.obeys (I := fun _ => True) trivial fun _ l hc _ => ⟨hc l, fun _ _ _ => trivial⟩

/-- A call that a step makes without handing over or resuming a torrent. -/
def PlacesNothing : Call → Prop
  | .client (.status _) | .client (.recheck _) => True
  | .client _ => False
  | c => Gathers c

theorem placesNothing_of_gathers {c : Call} (h : Gathers c) : PlacesNothing c := by
  cases c with
  | client c => cases h
  | _ => exact h

/-- Such a call leaves the step where it is. -/
theorem obeys_of_placesNothing {α : Type} {p : M α} (h : p.Only PlacesNothing)
    (hcurrent : l.1.current = some job) :
    p.Obeys (placing root) l fun _ l' => l'.1.current = some job ∧ l'.2 = l.2 := by
  refine h.obeys (I := fun l' : Desk × Option InfoHash => l'.1.current = some job ∧ l'.2 = l.2)
    ⟨hcurrent, rfl⟩ fun c l₁ hc hl₁ => ?_
  have hsame : ∀ {r : Ans c}, (l₁.1.record c r).current = l₁.1.current → placedRecord l₁.2 c r = l₁.2 →
      ∀ {l' : Desk × Option InfoHash}, (placing root).next c r l₁ l' →
        l'.1.current = some job ∧ l'.2 = l.2 := by
    rintro r hd hp l' rfl
    exact ⟨hd.trans hl₁.1, hp.trans hl₁.2⟩
  cases c with
  | store c =>
    cases c with
    | torrentFile id => exact ⟨trivial, fun r l' => hsame rfl rfl⟩
    | plannedFiles id => exact ⟨trivial, fun r l' => hsame rfl rfl⟩
    | _ => cases hc
  | client c =>
    cases c with
    | status h => exact ⟨trivial, fun r l' => hsame rfl rfl⟩
    | recheck h => exact ⟨trivial, fun r l' => hsame (by cases r <;> rfl) rfl⟩
    | _ => cases hc
  | shuttingDown => cases hc
  | publish e => cases hc
  | notify e => cases hc
  | recordTick time => cases hc
  | enterStep job => cases hc
  | _ => exact ⟨trivial, fun r l' => hsame rfl rfl⟩

/-! ## What a step concludes -/

/-- What is known when a step of a job has concluded: its patch says nothing of the torrent once
    that is fetched, nor of any directory but the job's, and an injection was accepted. -/
structure Lodges (job : RepairJob) (l : Desk × Option InfoHash) (outcome : StepOutcome) : Prop where
  current : l.1.current = some job
  dir : ∀ dir, outcome.patch.stagingDir = some dir → l.1.Knows job.id dir
  hash : job.state ≠ .discovered ∨ (∀ detail patch, outcome ≠ .advance detail patch) →
    outcome.patch.infoHash = none
  placed : outcome.Advances → job.state = .staged → job.stagingDir.isSome ∧ l.2.isSome

theorem lodges_of_planless {outcome : StepOutcome} (hcurrent : l.1.current = some job)
    (h : outcome.patch.Planless) (hstate : job.state ≠ .staged) : Lodges job l outcome where
  current := hcurrent
  dir dir hdir := by
    rw [h.stagingDir] at hdir
    cases hdir
  hash _ := h.infoHash
  placed _ hs := absurd hs hstate

/-- A job is injected into its own directory, and counts as injected once the client accepted. -/
theorem inject_lodges (hroot : deps.stagingRoot = root) (hcurrent : l.1.current = some job) :
    (inject deps job).Obeys (placing root) l fun outcome l' => Lodges job l' outcome := by
  have hheld : ∀ {l : Desk × Option InfoHash} {outcome : StepOutcome}, l.1.current = some job →
      outcome.patch.Planless → ¬outcome.Advances → Lodges job l outcome := fun hc hp hn =>
    { current := hc
      dir := fun dir hdir => by
        rw [hp.stagingDir] at hdir
        cases hdir
      hash := fun _ => hp.infoHash
      placed := fun ha => absurd ha hn }
  unfold inject
  split
  · rename_i h dir hh hd
    refine M.obeys_store trivial fun r l₁ hn => ?_
    obtain rfl := hn
    split
    · exact hheld hcurrent planless_default id
    · exact hheld hcurrent planless_default id
    · refine M.obeys_client ⟨job, dir, hcurrent, hh, hd, by rw [← hroot]; rfl⟩ fun r l₂ hn => ?_
      obtain rfl := hn
      split
      · rename_i e
        exact hheld hcurrent (clientRefused_planless e) (not_advances_clientRefused e)
      · have hlodges : ∀ detail, Lodges job (l.1, some h) (.advance detail .default) := fun detail =>
          ⟨hcurrent, fun dir hdir => (by cases hdir), fun _ => rfl, fun _ _ => ⟨by rw [hd]; rfl, rfl⟩⟩
        cases pathToJson (deps.savePath dir) with
        | none => exact ⟨trivial, fun e => nomatch e⟩
        | some path => exact hlodges _
  · exact hheld hcurrent planless_default id

/-- Calls to resume are those of a job past its injection. -/
theorem obeys_of_resumes {α : Type} {p : M α} (hcurrent : l.1.current = some job)
    (hpast : job.state.pastInjection = true)
    (h : p.Only fun c => PlacesNothing c ∨ ∃ h, c = .client (.resume h)) :
    p.Obeys (placing root) l fun _ l' => l'.1.current = some job := by
  refine h.obeys (I := fun l' : Desk × Option InfoHash => l'.1.current = some job) hcurrent
    fun c l₁ hc hl₁ => ?_
  rcases hc with hc | ⟨h, rfl⟩
  · have hone : (ask c : M (Ans c)).Obeys (placing root) l₁ fun _ l' =>
        l'.1.current = some job ∧ l'.2 = l₁.2 := obeys_of_placesNothing ⟨hc, fun _ => trivial⟩ hl₁
    exact ⟨hone.1, fun r l' hn => (hone.2 r l' hn).1⟩
  · refine ⟨⟨job, hl₁, hpast⟩, fun r l' hn => ?_⟩
    obtain rfl := hn
    exact hl₁

theorem step_lodges (hroot : deps.stagingRoot = root) (hcurrent : l.1.current = some job) :
    (step deps job).Obeys (placing root) l fun outcome l' => Lodges job l' outcome := by
  have hreads : ∀ {p : M StepOutcome} {Q : StepOutcome → Prop}, p.Only PlacesNothing → p.Returns Q →
      (∀ {outcome} {l' : Desk × Option InfoHash}, l'.1.current = some job → Q outcome →
        Lodges job l' outcome) → p.Obeys (placing root) l fun outcome l' => Lodges job l' outcome :=
    fun honly hreturns hlodges => ((obeys_of_placesNothing honly hcurrent).and hreturns).mono
      fun outcome l' ho => hlodges ho.1.1 ho.2
  have hresumes : ∀ {p : M StepOutcome}, job.state.pastInjection = true →
      p.Only (fun c => PlacesNothing c ∨ ∃ h, c = .client (.resume h)) →
        p.Returns (fun outcome => outcome.patch.Planless) →
          p.Obeys (placing root) l fun outcome l' => Lodges job l' outcome :=
    fun hpast honly hreturns => ((obeys_of_resumes hcurrent hpast honly).and hreturns).mono
      fun outcome l' ho => lodges_of_planless ho.1 ho.2 fun hs => by rw [hs] at hpast; cases hpast
  have hgathers : ∀ c, Reads c → PlacesNothing c := fun c hc => placesNothing_of_gathers (.of_reads hc)
  unfold step
  cases hstate : job.state with
  | discovered =>
    refine hreads (fetchTorrent_reads.mono hgathers) fetchTorrent_plans fun hc ho => ?_
    exact ⟨hc, fun dir hdir => .inl (ho.homed dir hdir),
      fun hor => (ho.else_planless (hor.resolve_left fun hne => hne hstate)).infoHash,
      fun _ hs => by rw [hstate] at hs; cases hs⟩
  | torrentFetched =>
    refine hreads (matchMedia_reads.mono hgathers) (matchMedia_plans.and matchMedia_hashless)
      fun hc ho => ?_
    exact ⟨hc, fun dir hdir => .inl (ho.1.homed dir hdir), fun _ => ho.2,
      fun _ hs => by rw [hstate] at hs; cases hs⟩
  | matched =>
    refine hreads (stageFiles_gathers.mono fun _ => placesNothing_of_gathers) stageFiles_dir
      fun hc ho => ?_
    refine ⟨hc, fun dir hdir => ?_, fun _ => ho.1, fun _ hs => by rw [hstate] at hs; cases hs⟩
    obtain rfl := ho.2 dir hdir
    cases hd : job.stagingDir with
    | none => exact .inl job.defaultStagingDir_eq
    | some dir => exact .inr ⟨job, hc, rfl, hd⟩
  | staged => exact inject_lodges hroot hcurrent
  | injected =>
    exact hreads (startRecheck_only trivial (fun _ _ => trivial) fun _ _ => trivial)
      startRecheck_planless fun hc ho => lodges_of_planless hc ho (by rw [hstate]; decide)
  | rechecking =>
    exact hreads (verify_only trivial fun _ _ => trivial) verify_planless
      fun hc ho => lodges_of_planless hc ho (by rw [hstate]; decide)
  | verified =>
    exact hresumes (by rw [hstate]; rfl) (resume_only (.inl trivial) (.inl trivial)
      (fun _ _ => .inl trivial) fun h _ _ _ => .inr ⟨h, rfl⟩) resume_planless
  | seeding =>
    exact hresumes (by rw [hstate]; rfl) (confirmWithTracker_only (fun c hc => .inl (hgathers c hc))
      (fun _ _ => .inl trivial) fun h _ _ _ => .inr ⟨h, rfl⟩) confirmWithTracker_planless
  | _ => exact lodges_of_planless hcurrent planless_default (by rw [hstate]; decide)

/-! ## Settling, and the other programs -/

/-- What a step concluded may be written. -/
theorem Lodges.may {outcome : StepOutcome} (h : Lodges job l outcome) {c : StoreCall}
    (hc : Settling job outcome c) : (placing root).may (.store c) l := by
  have hother : ∀ {t : Transition} {u : TransitionUpdate},
      (∀ dir, u.patch.stagingDir = some dir → l.1.Knows job.id dir) → u.patch.infoHash = none →
        t.reason ≠ .progress → (placing root).may (.store (.apply job.id t u)) l :=
    fun hdir hhash hne => ⟨hdir, fun _ => hhash, fun hr => absurd hr hne⟩
  cases hc with
  | advance ht =>
    obtain ⟨hfrom, -, -⟩ := RepairJob.advance_ok ht
    refine ⟨h.dir, fun hne => h.hash (.inl ?_), fun _ hs => ?_⟩
    · rw [← hfrom]
      exact hne
    · obtain ⟨hdir, hplaced⟩ := h.placed trivial (hfrom.symm.trans hs)
      exact ⟨⟨job, h.current, rfl, hdir⟩, hplaced⟩
  | rewind ht hu =>
    have hreason := (validateTransition_ok ht).2.2.1
    exact hother (fun dir hdir => by rw [hu] at hdir; cases hdir) (by rw [hu]; rfl)
      (by rw [hreason]; nofun)
  | review ht =>
    have hreason := (validateTransition_ok ht).2.2.1
    exact hother h.dir (h.hash (.inr fun _ _ he => by cases he)) (by rw [hreason]; nofun)
  | exhausted ht =>
    have hreason := (validateTransition_ok ht).2.2.1
    exact hother (fun dir hdir => by cases hdir) rfl (by rw [hreason]; nofun)
  | progress => exact ⟨h.dir, h.hash (.inr fun _ _ he => by cases he)⟩

theorem settle_places {summary : TickSummary} {outcome : StepOutcome} (h : Lodges job l outcome) :
    (settle deps config job summary outcome).Obeys (placing root) l fun _ _ => True := by
  have hrules : SettleRules (placing root) config job.id (fun _ => True) fun _ _ => True :=
    { tells := fun c l hc _ => by
        refine ⟨?_, fun _ _ _ => trivial⟩
        cases c with
        | store c =>
          obtain rfl : c = .renewLease job.id config.owner config.lease := hc
          trivial
        | client c => cases hc
        | _ => trivial
      load := fun _ _ => ⟨trivial, fun _ _ _ => ⟨trivial, fun _ _ => trivial⟩⟩ }
  exact (hrules.settle trivial fun c hc => ⟨h.may hc, fun _ _ _ => trivial⟩).mono fun _ _ _ => trivial

theorem workerRules_placing (hroot : deps.stagingRoot = root) :
    WorkerRules (placing root) deps config (fun _ _ => True) fun _ _ => True where
  idle c l hc := by
    refine ⟨?_, fun _ _ _ _ _ => trivial⟩
    cases c with
    | client c => cases hc
    | store c => cases hc
    | _ => trivial
  claim l := ⟨trivial, fun _ _ _ => ⟨List.pairwise_of_forall fun _ _ => trivial, fun _ _ => trivial⟩⟩
  release l job stop count := ⟨trivial, fun _ _ _ _ _ _ => trivial⟩
  round l job summary _ := by
    refine M.obeys_enterStep trivial fun l₁ hn => ?_
    have hcurrent : l₁.1.current = some job := by rw [show l₁ = _ from hn]; rfl
    refine (step_lodges hroot hcurrent).bind fun outcome l₂ hlodges => ?_
    exact (settle_places hlodges).mono fun r l₃ _ =>
      ⟨fun _ _ _ => trivial, fun _ _ => ⟨trivial, fun _ _ => trivial⟩⟩

/-- A transition that is no progress, with a patch that says nothing of the torrent. -/
theorem alwaysPlaces_apply {id : JobId} {t : Transition} {u : TransitionUpdate}
    (hr : t.reason ≠ .progress) (hhash : u.patch.infoHash = none) (hhomed : u.patch.Homed id) :
    AlwaysPlaces root (.store (.apply id t u)) :=
  fun _ => ⟨fun dir hdir => .inl (hhomed dir hdir), fun _ => hhash, fun h => absurd h hr⟩

theorem reconcileOnStartup_places (owner : String) :
    (reconcileOnStartup owner).Obeys (placing root) l fun _ _ => True := by
  have hcalls : ∀ c, ReconcileCall c → AlwaysPlaces root c := by
    intro c hc
    cases c with
    | store c =>
      cases c with
      | apply id t u =>
        refine alwaysPlaces_apply (by rw [hc.1]; nofun) (by rw [hc.2]; rfl) fun dir hdir => ?_
        rw [hc.2] at hdir
        cases hdir
      | recordProgress id patch => cases hc
      | _ => exact fun _ => trivial
    | client c =>
      cases c with
      | status h => exact fun _ => trivial
      | _ => cases hc
    | _ => exact fun _ => trivial
  refine M.obeys_store trivial fun r l₁ _ => ?_
  split
  · exact obeys_of_alwaysPlaces (reconcileAfter_only hcalls)
  · exact obeys_of_alwaysPlaces (reconcileAfter_only hcalls)

theorem allows_alwaysPlaces : AllowsOperators (AlwaysPlaces root) where
  job _ _ := trivial
  history _ _ := trivial
  plannedFiles _ _ := trivial
  recordProgress _ _ _ := ⟨fun _ hdir => (by cases hdir), rfl⟩
  apply id t u hr hu := by
    obtain ⟨dir, files, hu, hhome⟩ := hu
    refine alwaysPlaces_apply ?_ (by rw [hu]; rfl) fun d hd => hhome d (by rw [hu] at hd; exact hd)
    rcases hr with hr | hr | hr <;> rw [hr] <;> nofun
  remove _ _ := trivial
  discard _ _ := trivial
  publish _ _ := trivial
  panic _ := trivial

theorem OperatorProgram.places {id : JobId} {p : M Unit} (h : OperatorProgram id p) :
    p.Obeys (placing root) l fun _ _ => True :=
  obeys_of_alwaysPlaces (h.only allows_alwaysPlaces fun id t u hr hu => by
    obtain ⟨resumeApproved, hu⟩ := hu
    refine alwaysPlaces_apply (by rw [hr]; nofun) (by rw [hu]; rfl) fun dir hdir => ?_
    rw [hu] at hdir
    cases hdir)

/-- A worker stages below this root. -/
inductive StagesBelow (root : PathBuf) {W O : Type} : W ⊕ O → M Unit → Prop
  | tick {w : W} {deps : RepairDeps} {config : WorkerConfig} (hroot : deps.stagingRoot = root) :
    StagesBelow root (.inl w) (tick deps config >>= fun _ => pure ())
  | reconcile {w : W} {owner : String} :
    StagesBelow root (.inl w) (reconcileOnStartup owner >>= fun _ => pure ())
  | operator {o : O} {p : M Unit} : StagesBelow root (.inr o) p

/-- Everything that acts on jobs keeps the rules where it stages below the root. -/
theorem Acting.places {W O : Type} {policies : SafetyPolicy → Prop} {i : W ⊕ O} {p : M Unit}
    (h : Acting policies i p) (hroot : StagesBelow root i p) :
    p.Obeys (placing root) l fun _ _ => True := by
  cases hroot with
  | tick hroot => exact ((workerRules_placing hroot).tick l).bind fun _ _ _ => trivial
  | reconcile => exact (reconcileOnStartup_places _).bind fun _ _ _ => trivial
  | operator =>
    cases h with
    | operator h => exact h.places

end

/-! ## The client, and where it has its torrents -/

/-- The save path of each torrent a client holds. -/
abbrev SavePaths := InfoHash → Option PathBuf

/-- What a client may do when it is asked something; a torrent it already holds is not added. -/
inductive SavePaths.Serves (ps : SavePaths) : (c : ClientCall) → c.Ans → SavePaths → Prop
  | nothing {c : ClientCall} {r : c.Ans} (notStatus : ∀ h, c ≠ .status h) : Serves ps c r ps
  | reports {h : InfoHash} {r : ClientCall.Ans (.status h)}
      (truthful : ∀ status, r = .ok status → status.map TorrentStatus.savePath = ps h) :
    Serves ps (.status h) r ps
  | adds {request : AddTorrent} {r : ClientCall.Ans (.addPaused request)}
      (absent : ps request.infoHash = none) :
    Serves ps (.addPaused request) r (Function.update ps request.infoHash (some request.savePath))
  | removes {h : InfoHash} {deleteFiles : Bool} {r : ClientCall.Ans (.remove h deleteFiles)} :
    Serves ps (.remove h deleteFiles) r (Function.update ps h none)

/-- The store, the threads, and the torrents of the client. -/
structure ClientWorld (W O : Type) where
  store : SqliteRepairStore
  now : Time
  desks : W ⊕ O → Desk
  /-- The torrent whose injection the current step of a thread had accepted. -/
  placed : W ⊕ O → Option InfoHash
  paths : SavePaths

namespace ClientWorld

variable {W O : Type}

/-- What the client does at a call. -/
def ClientServes (w : ClientWorld W O) : (c : Call) → Ans c → SavePaths → Prop
  | .client c, r, ps => w.paths.Serves c r ps
  | _, _, ps => ps = w.paths

/-- A job counts on a torrent: its row is past the torrent's injection, or a copy of it a thread has
    before it, or the current step has just injected it. -/
inductive Expects (w : ClientWorld W O) (h : InfoHash) : JobId → Prop
  | row {id : JobId} {r : JobRow} (found : w.store.jobs.get? id = some r)
      (past : PastInjection r.state r.reviewFromState) (hash : r.infoHash = some h) : Expects w h id
  | copy {i : W ⊕ O} {job : RepairJob} (held : job ∈ (w.desks i).held)
      (past : job.state.pastInjection = true) (hash : job.infoHash = some h) : Expects w h job.id
  | placed {i : W ⊕ O} {job : RepairJob} (current : (w.desks i).current = some job)
      (hash : w.placed i = some h) : Expects w h job.id

/-- The condition on a call: a torrent is injected only where the client does not have it in another
    place and no other job counts on it; an injection is recorded, and a job retried, only in a
    row that has not changed its torrent, or where it stopped, in the meantime. -/
def Unoccupied (i : W ⊕ O) (c : Call) (w : ClientWorld W O) : Prop :=
  match c with
  | .client (.addPaused request) =>
    (∀ path, w.paths request.infoHash = some path → path = request.savePath) ∧
      ∀ id, w.Expects request.infoHash id → ∃ job, (w.desks i).current = some job ∧ job.id = id
  | .store (.apply id t _) => ∀ r, w.store.jobs.get? id = some r →
    (t.reason = .operatorRetry → r.reviewFromState = some t.toState) ∧
      (t.reason = .progress → t.fromState = .staged → r.infoHash = w.placed i)
  | _ => True

/-- The condition on what happens besides: a torrent a job counts on comes to no place but the
    job's. -/
def KeepsPlaces (root : PathBuf) (w w' : ClientWorld W O) : Prop :=
  ∀ h path, w'.paths h = some path → w.paths h = some path ∨
    ∀ id, w.Expects h id → path = id.home.joinOnto root

/-- What is true of every run that meets the conditions. -/
structure Housed (root : PathBuf) (w : ClientWorld W O) : Prop where
  homes : ∀ id r dir, w.store.jobs.get? id = some r → r.stagingDir = some dir → dir = id.home
  rows : ∀ id r, w.store.jobs.get? id = some r → PastInjection r.state r.reviewFromState →
    r.stagingDir.isSome
  copies : ∀ i, ∀ job ∈ (w.desks i).held, ∀ dir, job.stagingDir = some dir → dir = job.id.home ∧
    ∃ r, w.store.jobs.get? job.id = some r ∧ r.stagingDir.isSome
  staged : ∀ i, ∀ job ∈ (w.desks i).held, job.state.pastInjection = true → job.stagingDir.isSome
  current : ∀ i job, (w.desks i).current = some job → job ∈ (w.desks i).held
  places : ∀ h id path, w.Expects h id → w.paths h = some path → path = id.home.joinOnto root

variable [DecidableEq W] [DecidableEq O]

/-- The world after a call of a thread. -/
def after (w : ClientWorld W O) (i : W ⊕ O) (c : Call) (r : Ans c) (s : SqliteRepairStore)
    (ps : SavePaths) : ClientWorld W O where
  store := s
  now := w.now
  desks := Function.update w.desks i ((w.desks i).record c r)
  placed := Function.update w.placed i (placedRecord (w.placed i) c r)
  paths := ps

end ClientWorld

/-! ## What one call changes -/

section
variable {d : Desk} {job : RepairJob} {c : Call} {r : Ans c}

/-- The step in progress has just been entered, or was in progress before, with its copy at hand. -/
theorem Desk.current_record (h : (d.record c r).current = some job) :
    c = .enterStep job ∨ (∀ other, c ≠ .enterStep other) ∧ d.current = some job ∧
      d.held ⊆ (d.record c r).held := by
  cases c with
  | store c =>
    cases c with
    | claim owner lease limit =>
      cases r with
      | error e => exact .inr ⟨fun _ he => (by cases he), h, subset_rfl⟩
      | ok jobs => cases h
    | job id =>
      cases r with
      | error e => exact .inr ⟨fun _ he => (by cases he), h, subset_rfl⟩
      | ok next =>
        cases next with
        | none => exact .inr ⟨fun _ he => (by cases he), h, subset_rfl⟩
        | some next => exact .inr ⟨fun _ he => (by cases he), h, Set.subset_insert ..⟩
    | unfinished => cases r <;> exact .inr ⟨fun _ he => (by cases he), h, subset_rfl⟩
    | parked => cases r <;> exact .inr ⟨fun _ he => (by cases he), h, subset_rfl⟩
    | apply id t u => cases h
    | release id retryAt countAttempt => cases h
    | clearStaleLeases owner => cases h
    | _ => exact .inr ⟨fun _ he => (by cases he), h, subset_rfl⟩
  | client c =>
    cases c with
    | recheck h' => cases r <;> exact .inr ⟨fun _ he => (by cases he), h, subset_rfl⟩
    | _ => exact .inr ⟨fun _ he => (by cases he), h, subset_rfl⟩
  | enterStep other =>
    cases h
    exact .inl rfl
  | _ => exact .inr ⟨fun _ he => (by cases he), h, subset_rfl⟩

/-- The copy of the step in progress stays at hand. -/
theorem Desk.current_held {policies : SafetyPolicy → Prop}
    (hheld : ∀ job, d.current = some job → job ∈ d.held) (hmay : (conduct policies).may c d)
    (h : (d.record c r).current = some job) : job ∈ (d.record c r).held := by
  rcases Desk.current_record h with rfl | ⟨-, hcurrent, hsub⟩
  · exact hmay
  · exact hsub (hheld job hcurrent)

/-- An injection is on record because it was before, or was just accepted. -/
theorem placedRecord_cases {placed : Option InfoHash} {h : InfoHash}
    (hp : placedRecord placed c r = some h) : placed = some h ∧ (∀ other, c ≠ .enterStep other) ∨
      ∃ request, c = .client (.addPaused request) ∧ request.infoHash = h := by
  cases c with
  | client c =>
    cases c with
    | addPaused request =>
      cases r with
      | error e => exact .inl ⟨hp, fun _ he => by cases he⟩
      | ok u => exact .inr ⟨request, rfl, Option.some.inj hp⟩
    | _ => exact .inl ⟨hp, fun _ he => by cases he⟩
  | enterStep other => cases hp
  | _ => exact .inl ⟨hp, fun _ he => by cases he⟩

end

namespace ClientWorld

variable {W O : Type} {w : ClientWorld W O} {i : W ⊕ O} {root : PathBuf} {c : Call} {r : Ans c}
  {s : SqliteRepairStore} {ps : SavePaths}

/-- A row past its injection was so before the call, or the injection was recorded by it. -/
theorem pastInjection_changed {policies : SafetyPolicy → Prop} {c : StoreCall}
    (hconduct : (conduct policies).may (.store c) (w.desks i))
    (hplacing : (placing root).may (.store c) (w.desks i, w.placed i))
    (hfresh : Unoccupied i (.store c) w) {now : Time} {row row' : JobRow}
    (hrow : w.store.jobs.get? row.id = some row) (hchanged : SqliteRepairStore.Changed now c row row')
    (hpast : PastInjection row'.state row'.reviewFromState) :
    row'.infoHash = row.infoHash ∧ (PastInjection row.state row.reviewFromState ∨
      row.infoHash = w.placed i ∧
        ∃ job, (w.desks i).current = some job ∧ job.id = row.id ∧ job.stagingDir.isSome) := by
  cases hchanged with
  | @moved t u call left =>
    subst call
    obtain ⟨-, hhash, hinjects⟩ := hplacing
    obtain ⟨hretry, hinjected⟩ := hfresh row hrow
    have hkept : t.fromState.pastInjection = true ∨ t.fromState = .awaitingReview ∨
        t.fromState = .staged → (u.patch.infoHash <|> row.infoHash) = row.infoHash := by
      intro hfrom
      rw [hhash]
      · rfl
      · rintro hs
        rw [hs] at hfrom
        simp [RepairState.pastInjection] at hfrom
    rcases hpast with hto | ⟨hparked, resumeTo, hresume, hto⟩
    · rcases pastInjection_toState hto with hfrom | ⟨hreason, hfrom⟩ | ⟨hreason, hfrom⟩
      · exact ⟨hkept (.inl hfrom), .inl (.inl (by rw [left]; exact hfrom))⟩
      · exact ⟨hkept (.inr (.inr hfrom)), .inr ⟨hinjected hreason hfrom, (hinjects hreason hfrom).1⟩⟩
      · refine ⟨hkept (.inr (.inl hfrom)), .inl (.inr ⟨left.trans hfrom, _, hretry hreason, hto⟩)⟩
    · have hfrom : t.fromState = resumeTo := by
        simp only [patchRow, transitionRow] at hresume hparked
        rw [if_pos hparked] at hresume
        exact Option.some.inj hresume
      subst hfrom
      exact ⟨hkept (.inl hto), .inl (.inl (by rw [left]; exact hto))⟩
  | @patched patch call =>
    subst call
    refine ⟨?_, .inl hpast⟩
    simp only [patchRow, hplacing.2]
    rfl
  | @repointed state previous call parked recorded =>
    subst call
    exfalso
    rcases hpast with hstate | ⟨-, resumeTo, hresume, hstate⟩
    · rw [show row.state = .awaitingReview from parked] at hstate
      cases hstate
    · cases hresume
      rcases hconduct.2 with he | he
      · rw [he] at hstate
        cases hstate
      · rw [he] at hstate
        cases hstate
  | rescheduled h =>
    obtain ⟨_, _, _, _, _, rfl⟩ := h
    exact ⟨rfl, .inl hpast⟩

/-- A copy that is handed over is what the row said. -/
theorem row_of_delivers (hs : w.store.Replies w.now c r s) {job : RepairJob} (hd : Delivers c r job) :
    ∃ row, w.store.jobs.get? job.id = some row ∧ job.state = row.state ∧ job.infoHash = row.infoHash ∧
      job.stagingDir = row.stagingDir := by
  obtain ⟨row, row', hrow, ⟨_, _, _, _, _, rfl⟩, rfl⟩ := hs.shows hd.shows
  exact ⟨row, hrow, rfl, rfl, rfl⟩

variable [DecidableEq W] [DecidableEq O] {policies : SafetyPolicy → Prop}

/-- A job counts on a torrent after a call where it did before, or where the torrent was just
    injected for it. -/
theorem expects_after (hconduct : (conduct policies).may c (w.desks i))
    (hplacing : (placing root).may c (w.desks i, w.placed i)) (hfresh : Unoccupied i c w)
    (hs : w.store.Replies w.now c r s) {h : InfoHash} {id : JobId}
    (he : (w.after i c r s ps).Expects h id) : w.Expects h id ∨
      ∃ request job, c = .client (.addPaused request) ∧ request.infoHash = h ∧
        (w.desks i).current = some job ∧ job.id = id := by
  cases he with
  | @row _ row' found past hash =>
    obtain ⟨row, hrow, rfl | ⟨c', rfl, hchanged⟩⟩ := hs.changed found
    · exact .inl (.row hrow past hash)
    · have hid : row.id = id := (Table.get?_some hrow).2
      obtain ⟨hhash, hpast | ⟨hplaced, job, hcurrent, hjob, -⟩⟩ := pastInjection_changed hconduct
        hplacing hfresh (by rw [hid]; exact hrow) hchanged past
      · exact .inl (.row hrow hpast (hhash.symm.trans hash))
      · exact .inl (hid ▸ hjob ▸ .placed hcurrent (hplaced.symm.trans (hhash.symm.trans hash)))
  | @copy j job held past hash =>
    by_cases hj : j = i
    · subst hj
      simp only [after, Function.update_self] at held
      rcases Desk.held_record held with hold | hnew
      · exact .inl (.copy hold past hash)
      · obtain ⟨row, hrow, hstate, hinfo, -⟩ := row_of_delivers hs hnew
        exact .inl (.row hrow (.inl (by rw [← hstate]; exact past)) (by rw [← hinfo]; exact hash))
    · simp only [after, Function.update_of_ne hj] at held
      exact .inl (.copy held past hash)
  | @placed j job current hash =>
    by_cases hj : j = i
    · subst hj
      simp only [after, Function.update_self] at current hash
      rcases placedRecord_cases hash with ⟨hold, hno⟩ | ⟨request, rfl, hrequest⟩
      · rcases Desk.current_record current with rfl | ⟨-, hcurrent, -⟩
        · exact absurd rfl (hno _)
        · exact .inl (.placed hcurrent hold)
      · exact .inr ⟨request, job, rfl, hrequest, current, rfl⟩
    · simp only [after, Function.update_of_ne hj] at current hash
      exact .inl (.placed current hash)

omit [DecidableEq W] [DecidableEq O] in
/-- A torrent is where it was before a call, or was just added. -/
theorem paths_serves (hclient : w.ClientServes c r ps) {h : InfoHash} {path : PathBuf}
    (hp : ps h = some path) : w.paths h = some path ∨
      ∃ request, c = .client (.addPaused request) ∧ request.infoHash = h ∧ request.savePath = path := by
  cases c with
  | client c =>
    cases hclient with
    | nothing => exact .inl hp
    | reports => exact .inl hp
    | @adds request _ absent =>
      by_cases hh : h = request.infoHash
      · subst hh
        rw [Function.update_self] at hp
        exact .inr ⟨request, rfl, rfl, Option.some.inj hp⟩
      · rw [Function.update_of_ne hh] at hp
        exact .inl hp
    | @removes k =>
      by_cases hh : h = k
      · subst hh
        rw [Function.update_self] at hp
        cases hp
      · rw [Function.update_of_ne hh] at hp
        exact .inl hp
  | _ => exact .inl ((show ps = w.paths from hclient) ▸ hp)

/-- One call keeps every job's torrent in its place. -/
theorem Housed.after (h : w.Housed root) (hconduct : (conduct policies).may c (w.desks i))
    (hplacing : (placing root).may c (w.desks i, w.placed i)) (hfresh : Unoccupied i c w)
    (hs : w.store.Replies w.now c r s) (hclient : w.ClientServes c r ps) :
    (w.after i c r s ps).Housed root where
  homes id row' dir hrow' hdir := by
    obtain ⟨row, hrow, rfl | ⟨c', rfl, hchanged⟩⟩ := hs.changed hrow'
    · exact h.homes id _ dir hrow hdir
    have hid : row.id = id := (Table.get?_some hrow).2
    have hknows : (w.desks i).Knows row.id dir → dir = id.home := by
      rintro (hhome | ⟨job, hcurrent, hjob, hjobdir⟩)
      · rw [hhome, hid]
      · rw [(h.copies i job (h.current i job hcurrent) dir hjobdir).1, hjob, hid]
    have hpatch : ∀ patch : JobPatch, (∀ dir, patch.stagingDir = some dir →
        (w.desks i).Knows row.id dir) → (patch.stagingDir <|> row.stagingDir) = some dir →
          dir = id.home := by
      intro patch hp he
      cases hpd : patch.stagingDir with
      | none =>
        rw [hpd] at he
        exact h.homes id row dir hrow he
      | some d =>
        rw [hpd] at he
        cases he
        exact hknows (hp dir hpd)
    cases hchanged with
    | @moved t u call left =>
      subst call
      exact hpatch u.patch hplacing.1 hdir
    | @patched patch call =>
      subst call
      exact hpatch patch hplacing.1 hdir
    | repointed => exact h.homes id row dir hrow hdir
    | rescheduled hr =>
      obtain ⟨_, _, _, _, _, rfl⟩ := hr
      exact h.homes id row dir hrow hdir
  rows id row' hrow' hpast := by
    obtain ⟨row, hrow, rfl | ⟨c', rfl, hchanged⟩⟩ := hs.changed hrow'
    · exact h.rows id _ hrow hpast
    have hid : row.id = id := (Table.get?_some hrow).2
    have hsome : row.stagingDir.isSome := by
      obtain ⟨-, hbefore | ⟨-, job, hcurrent, hjob, hdir⟩⟩ := pastInjection_changed hconduct hplacing
        hfresh (by rw [hid]; exact hrow) hchanged hpast
      · exact h.rows id row hrow hbefore
      · obtain ⟨dir, hdir⟩ := Option.isSome_iff_exists.1 hdir
        obtain ⟨-, row₁, hrow₁, hsome⟩ := h.copies i job (h.current i job hcurrent) dir hdir
        rw [hjob, hid, hrow] at hrow₁
        cases hrow₁
        exact hsome
    exact hchanged.stagingDir_isSome hsome
  copies j job hjob dir hdir := by
    have hkept : (dir = job.id.home ∧ ∃ row, w.store.jobs.get? job.id = some row ∧
        row.stagingDir.isSome) → dir = job.id.home ∧ ∃ row, s.jobs.get? job.id = some row ∧
          row.stagingDir.isSome := by
      rintro ⟨hhome, row, hrow, hsome⟩
      obtain ⟨row', hrow'⟩ := hs.found hrow
      obtain ⟨row₁, hrow₁, rfl | ⟨c', -, hchanged⟩⟩ := hs.changed hrow'
      · cases hrow.symm.trans hrow₁
        exact ⟨hhome, row, hrow', hsome⟩
      · cases hrow.symm.trans hrow₁
        exact ⟨hhome, row', hrow', hchanged.stagingDir_isSome hsome⟩
    by_cases hj : j = i
    · subst hj
      simp only [ClientWorld.after, Function.update_self] at hjob
      rcases Desk.held_record hjob with hold | hnew
      · exact hkept (h.copies j job hold dir hdir)
      · obtain ⟨row, hrow, -, -, hrowdir⟩ := row_of_delivers hs hnew
        rw [hdir] at hrowdir
        exact hkept ⟨h.homes job.id row dir hrow hrowdir.symm, row, hrow, by rw [← hrowdir]; rfl⟩
    · simp only [ClientWorld.after, Function.update_of_ne hj] at hjob
      exact hkept (h.copies j job hjob dir hdir)
  staged j job hjob hpast := by
    by_cases hj : j = i
    · subst hj
      simp only [ClientWorld.after, Function.update_self] at hjob
      rcases Desk.held_record hjob with hold | hnew
      · exact h.staged j job hold hpast
      · obtain ⟨row, hrow, hstate, -, hdir⟩ := row_of_delivers hs hnew
        rw [hdir]
        exact h.rows job.id row hrow (.inl (by rw [← hstate]; exact hpast))
    · simp only [ClientWorld.after, Function.update_of_ne hj] at hjob
      exact h.staged j job hjob hpast
  current j job hcurrent := by
    by_cases hj : j = i
    · subst hj
      simp only [ClientWorld.after, Function.update_self] at hcurrent ⊢
      exact Desk.current_held (h.current j) hconduct hcurrent
    · simp only [ClientWorld.after, Function.update_of_ne hj] at hcurrent ⊢
      exact h.current j job hcurrent
  places k id path hexpects hpath := by
    -- the injection in progress is into the directory of its own job
    have hown : ∀ request job, c = .client (.addPaused request) → (w.desks i).current = some job →
        request.savePath = job.id.home.joinOnto root := by
      rintro request job rfl hcurrent
      obtain ⟨other, dir, hother, -, hdir, hsave⟩ := hplacing
      cases hcurrent.symm.trans hother
      rw [hsave, (h.copies i job (h.current i job hcurrent) dir hdir).1]
    rcases expects_after hconduct hplacing hfresh hs hexpects with hold |
      ⟨request, job, rfl, hrequest, hcurrent, hid⟩
    · rcases paths_serves hclient hpath with hsame | ⟨request, rfl, rfl, hsave⟩
      · exact h.places k id path hold hsame
      · obtain ⟨job, hcurrent, hid⟩ := hfresh.2 id hold
        rw [← hsave, hown request job rfl hcurrent, hid]
    · rcases paths_serves hclient hpath with hsame | ⟨request', he, -, hsave⟩
      · rw [hfresh.1 path (by rw [hrequest]; exact hsame), hown request job rfl hcurrent, hid]
      · cases he
        rw [← hsave, hown request job rfl hcurrent, hid]

omit [DecidableEq W] [DecidableEq O] in
/-- What happens besides keeps every job's torrent in its place. -/
theorem Housed.update (h : w.Housed root) {ps : SavePaths}
    (hkeeps : KeepsPlaces root w { w with paths := ps }) : Housed root { w with paths := ps } where
  homes := h.homes
  rows := h.rows
  copies := h.copies
  staged := h.staged
  current := h.current
  places k id path hexpects hpath := by
    have hbefore : w.Expects k id := by
      cases hexpects with
      | row found past hash => exact .row found past hash
      | copy held past hash => exact .copy held past hash
      | placed current hash => exact .placed current hash
    rcases hkeeps k path hpath with hsame | hplace
    · exact h.places k id path hbefore hsame
    · exact hplace id hbefore

omit [DecidableEq W] [DecidableEq O] in
theorem Housed.discover (h : w.Housed root) {hr : HitAndRun} {d : Discovered} {s : SqliteRepairStore}
    (hok : w.store.recordDiscovery w.now hr = .ok (d, s)) : Housed root { w with store := s } := by
  have hkept : ∀ {id r}, w.store.jobs.get? id = some r → s.jobs.get? id = some r := by
    intro id r hrow
    rcases SqliteRepairStore.recordDiscovery_cases hok with rfl | ⟨k, row, hfree, -, -, hrows⟩
    · exact hrow
    · rw [hrows, if_neg]
      · exact hrow
      · rintro rfl
        rw [hfree] at hrow
        cases hrow
  have hnew : ∀ {id r}, s.jobs.get? id = some r → w.store.jobs.get? id = some r ∨
      ¬PastInjection r.state r.reviewFromState ∧ r.stagingDir = none := by
    intro id r hrow
    rcases SqliteRepairStore.recordDiscovery_cases hok with rfl | ⟨k, row, -, -, -, hrows⟩
    · exact .inl hrow
    · rw [hrows] at hrow
      split_ifs at hrow
      · cases hrow
        refine .inr ⟨?_, rfl⟩
        rintro (hstate | ⟨hstate, -⟩) <;> cases hstate
      · exact .inl hrow
  refine ⟨fun id r dir hrow hdir => ?_, fun id r hrow hpast => ?_, fun i job hjob dir hdir => ?_,
    h.staged, h.current, fun k id path hexpects hpath => ?_⟩
  · rcases hnew hrow with hold | ⟨-, hnone⟩
    · exact h.homes id r dir hold hdir
    · rw [hnone] at hdir
      cases hdir
  · rcases hnew hrow with hold | ⟨hno, -⟩
    · exact h.rows id r hold hpast
    · exact absurd hpast hno
  · obtain ⟨hhome, r, hrow, hsome⟩ := h.copies i job hjob dir hdir
    exact ⟨hhome, r, hkept hrow, hsome⟩
  · refine h.places k id path ?_ hpath
    cases hexpects with
    | row found past hash =>
      rcases hnew found with hold | ⟨hno, -⟩
      · exact .row hold past hash
      · exact absurd past hno
    | copy held past hash => exact .copy held past hash
    | placed current hash => exact .placed current hash

end ClientWorld

/-! ## Every run -/

section
variable (W O : Type) [DecidableEq W] [DecidableEq O]

/-- Workers and operators on one store and one client, which others use as well. -/
def clients : System (W ⊕ O) Call Ans (ClientWorld W O) where
  answers i c w r w' := ∃ s ps, w.store.Replies w.now c r s ∧ w.ClientServes c r ps ∧
    w' = w.after i c r s ps
  moves w w' :=
    (∃ now, w.now ≤ now ∧ w' = { w with now }) ∨
    (∃ h d s, w.store.recordDiscovery w.now h = .ok (d, s) ∧ w' = { w with store := s }) ∨
    ∃ ps, w' = { w with paths := ps }
  starts := Acting fun _ => True

end

section
variable {W O : Type} [DecidableEq W] [DecidableEq O] {root : PathBuf}

theorem clients_sound :
    ((clients W O).confine (StagesBelow root) ClientWorld.Unoccupied
      (ClientWorld.KeepsPlaces root)).Sound
        (fun i => (conduct (slotPolicies (fun _ => True) i)).prod (placing root))
        (ClientWorld.Housed root) fun i l w => l = (w.desks i, (w.desks i, w.placed i)) where
  start := by
    rintro i p w - ⟨hroot, hp⟩
    exact ⟨_, rfl, (hp.conducts.prod (hp.places hroot)).mono fun _ _ _ => trivial⟩
  call := by
    rintro i c w r w' l hhoused rfl ⟨hconduct, hplacing⟩ ⟨hfresh, s, ps, hs, hclient, rfl⟩
    refine ⟨hhoused.after hconduct hplacing hfresh hs hclient,
      ⟨((w.desks i).record c r, (w.desks i).record c r, placedRecord (w.placed i) c r),
        ⟨⟨hs.honest, rfl⟩, rfl⟩, by simp [ClientWorld.after]⟩, fun j hj m hm => ?_⟩
    simp only [ClientWorld.after, Function.update_of_ne hj]
    exact hm
  move := by
    rintro w w' hhoused ⟨hkeeps, ⟨now, -, rfl⟩ | ⟨h, d, s, hok, rfl⟩ | ⟨ps, rfl⟩⟩
    · refine ⟨⟨hhoused.homes, hhoused.rows, hhoused.copies, hhoused.staged, hhoused.current,
        fun k id path hexpects => hhoused.places k id path ?_⟩, fun j m hm => hm⟩
      cases hexpects with
      | row found past hash => exact .row found past hash
      | copy held past hash => exact .copy held past hash
      | placed current hash => exact .placed current hash
    · exact ⟨hhoused.discover hok, fun j m hm => hm⟩
    · exact ⟨hhoused.update hkeeps, fun j m hm => hm⟩

/-- In every run that meets the conditions, a torrent that is about to be resumed lies, where the
    client has it at all, in the place where the step's job is staged. -/
theorem resumed_where_staged {w₀ : ClientWorld W O} (hw₀ : w₀.Housed root)
    {s : Lib.Config (W ⊕ O) Call Ans (ClientWorld W O)} {i : W ⊕ O} {h : InfoHash}
    {k : Ans (.client (.resume h)) → M Unit}
    (hreach : ((clients W O).confine (StagesBelow root) ClientWorld.Unoccupied
      (ClientWorld.KeepsPlaces root)).Reach w₀ s)
    (hresume : s.threads i = some (.call (.client (.resume h)) k)) :
    ∃ job dir, (s.world.desks i).current = some job ∧ job.infoHash = some h ∧
      job.stagingDir = some dir ∧ ∀ path, s.world.paths h = some path → path = dir.joinOnto root := by
  obtain ⟨hhoused, l, rfl, hconduct, hplacing⟩ := clients_sound.permitted hw₀ hreach hresume
  obtain ⟨job, hheld, hcurrent, hhash, -⟩ := hconduct
  obtain ⟨other, hother, hpast⟩ := hplacing
  cases hcurrent.symm.trans hother
  obtain ⟨dir, hdir⟩ := Option.isSome_iff_exists.1 (hhoused.staged i job hheld hpast)
  refine ⟨job, dir, hcurrent, hhash, hdir, fun path hpath => ?_⟩
  rw [(hhoused.copies i job hheld dir hdir).1]
  exact hhoused.places h job.id path (.copy hheld hpast hhash) hpath

end

/-- Nothing counts on a torrent before the first job. -/
theorem ClientWorld.housed_new {W O : Type} (now : Time) (ps : SavePaths) :
    Housed root (⟨.new, now, fun _ => .bare, fun _ => none, ps⟩ : ClientWorld W O) := by
  refine ⟨fun _ _ _ hr => (by cases hr), fun _ _ hr => (by cases hr), fun _ _ hjob => hjob.elim,
    fun _ _ hjob => hjob.elim, fun _ _ hjob => (by cases hjob), fun k id path hexpects => ?_⟩
  cases hexpects with
  | row found => cases found
  | copy held => exact held.elim
  | placed current => cases current

/-! ## A torrent the client had before -/

/-- A client with one torrent, and one job for it. -/
def oneTorrent (state : RepairState) (path : PathBuf) : ClientWorld Unit Unit where
  store :=
    { jobs := ⟨[{ discoveredRow ⟨1⟩ 0 ⟨⟨"tracker"⟩, ⟨"7"⟩, "show", none, 10, none⟩ with
        state := state, infoHash := some sevens, torrentFile := some [0],
        stagingDir := some (JobId.home ⟨1⟩) }], List.nodup_singleton _⟩
      files := .empty
      transitions := []
      jobSeq := 1 }
  now := 0
  desks _ := .bare
  placed _ := none
  paths h := if h = sevens then some path else none

theorem oneTorrent_housed {state : RepairState} {root path : PathBuf}
    (h : state.pastInjection = true → path = (JobId.home ⟨1⟩).joinOnto root) :
    (oneTorrent state path).Housed root := by
  have hrow : ∀ {id r}, (oneTorrent state path).store.jobs.get? id = some r → id = ⟨1⟩ ∧
      r.state = state ∧ r.reviewFromState = none ∧ r.stagingDir = some (JobId.home ⟨1⟩) := by
    intro id r hr
    obtain ⟨hmem, hid⟩ := Table.get?_some hr
    obtain rfl := List.mem_singleton.1 hmem
    exact ⟨hid.symm, rfl, rfl, rfl⟩
  refine ⟨fun id r dir hr hdir => ?_, fun id r hr _ => ?_, fun i job hjob => hjob.elim,
    fun i job hjob => hjob.elim, fun i job hjob => (by cases hjob), fun k id p hexpects hp => ?_⟩
  · obtain ⟨rfl, -, -, hhome⟩ := hrow hr
    rw [hhome] at hdir
    exact (Option.some.inj hdir).symm
  · rw [(hrow hr).2.2.2]
    rfl
  · have hpath : p = path := by
      simp only [oneTorrent] at hp
      split_ifs at hp
      exact (Option.some.inj hp).symm
    cases hexpects with
    | row found past hash =>
      obtain ⟨rfl, hstate, hreview, -⟩ := hrow found
      rcases past with hpast | ⟨-, resumeTo, hresume, -⟩
      · rw [hpath]
        exact h (hstate ▸ hpast)
      · rw [hreview] at hresume
        cases hresume
    | copy held past hash => exact held.elim
    | placed current hash => cases current

/-- What a client answers that holds what it was given, and finds it complete. -/
def holdingReply (w : ClientWorld Unit Unit) : (c : Call) → Option (Ans c × SqliteRepairStore × SavePaths)
  | .store c => some ((w.store.answer w.now c).1, (w.store.answer w.now c).2, w.paths)
  | .now => some (w.now, w.store, w.paths)
  | .client (.status h) => some (.ok ((w.paths h).map fun path => { completeTorrent with savePath := path }),
      w.store, w.paths)
  | .client (.addPaused request) => some (.ok (), w.store,
      if w.paths request.infoHash = none then
        Function.update w.paths request.infoHash (some request.savePath)
      else w.paths)
  | .client (.recheck _) => some (.ok (), w.store, w.paths)
  | .shuttingDown => some (false, w.store, w.paths)
  | .publish _ | .notify _ | .recordTick _ | .enterStep _ => some ((), w.store, w.paths)
  | _ => none

theorem holdingReply_replies {w : ClientWorld Unit Unit} {c : Call}
    {r : Ans c × SqliteRepairStore × SavePaths} (h : holdingReply w c = some r) :
    w.store.Replies w.now c r.1 r.2.1 ∧ w.ClientServes c r.1 r.2.2 := by
  cases c with
  | store c => cases h; exact ⟨.served, rfl⟩
  | now => cases h; exact ⟨⟨rfl, rfl⟩, rfl⟩
  | client c =>
    cases c with
    | status hash =>
      cases h
      refine ⟨rfl, .reports fun status hstatus => ?_⟩
      cases hstatus
      cases w.paths hash <;> rfl
    | addPaused request =>
      cases h
      refine ⟨rfl, ?_⟩
      simp only
      split_ifs with habsent
      · exact .adds habsent
      · exact .nothing fun _ he => by cases he
    | recheck hash => cases h; exact ⟨rfl, .nothing fun _ he => by cases he⟩
    | _ => cases h
  | tracker c => cases h
  | library c => cases h
  | staging c => cases h
  | panic => cases h
  | _ => cases h; exact ⟨rfl, rfl⟩

/-- The world after a worker's call was answered. -/
def afterHoldingReply {c : Call} (w : ClientWorld Unit Unit) (r : Ans c × SqliteRepairStore × SavePaths) :
    Ans c × ClientWorld Unit Unit := (r.1, w.after (.inl ()) c r.1 r.2.1 r.2.2)

/-- A client that answers, up to the call to resume. -/
def holding (c : Call) (w : ClientWorld Unit Unit) : Option (Ans c × ClientWorld Unit Unit) :=
  (holdingReply w c).map (afterHoldingReply w)

def resumingDeps : RepairDeps :=
  { anyDeps with policy := { SafetyPolicy.default with autoResume := .whenVerifiedComplete } }

def resumingTick : M Unit := tick resumingDeps ⟨"a", .fromSecs 60, 4⟩ >>= fun _ => pure ()

theorem acting_resumingTick :
    Acting (fun _ => True) (.inl () : Unit ⊕ Unit) resumingTick :=
  .tick resumingDeps ⟨"a", .fromSecs 60, 4⟩ trivial

def downloads : PathBuf := .ofString "/downloads"

/-- A torrent that was in the client before is resumed where it was, and not where its job is
    staged. -/
theorem resumed_elsewhere : (oneTorrent .staged downloads).Housed resumingDeps.stagingRoot ∧
    ∃ s h k, (clients Unit Unit).Reach (oneTorrent .staged downloads) s ∧
      s.threads (.inl ()) = some (.call (.client (.resume h)) k) ∧
        ¬∃ job dir, (s.world.desks (.inl ())).current = some job ∧ job.infoHash = some h ∧
          job.stagingDir = some dir ∧ ∀ path, s.world.paths h = some path →
            path = dir.joinOnto resumingDeps.stagingRoot := by
  obtain ⟨s, hs, hthread, hworld⟩ := System.reach_alone (clients Unit Unit)
    (oneTorrent .staged downloads) (.inl ()) (h := holding) acting_resumingTick (fun c w r hr => by
      obtain ⟨a, ha, rfl⟩ := Option.map_eq_some_iff.1 hr
      obtain ⟨hreplies, hclient⟩ := holdingReply_replies ha
      exact ⟨w, .refl, _, _, hreplies, hclient, rfl⟩) 32
  obtain ⟨k, hk⟩ := resumes_some (by decide +kernel : resumes (System.drive holding 32 resumingTick
    (oneTorrent .staged downloads)).1 = some sevens)
  refine ⟨oneTorrent_housed (by nofun), s, sevens, k, hs, hthread.trans (congrArg some hk), ?_⟩
  rintro ⟨job, dir, hcurrent, -, hdir, hpath⟩
  have hheld : s.world.paths sevens = some downloads := by
    rw [hworld]
    decide +kernel
  have hhome : (s.world.desks (.inl ())).current.bind RepairJob.stagingDir = some (JobId.home ⟨1⟩) := by
    rw [hworld]
    decide +kernel
  rw [hcurrent, Option.bind_some, hdir] at hhome
  have hsame := hpath downloads hheld
  rw [Option.some.inj hhome] at hsame
  exact absurd hsame (by decide +kernel)

/-- The same answers to the calls of a worker up to its resume, which neither inject nor write a
    transition. -/
def upToResume : (c : Call) → ClientWorld Unit Unit → Option (Ans c × ClientWorld Unit Unit)
  | .store (.claim ..), w | .client (.status _), w | .now, w | .shuttingDown, w
  | .recordTick _, w | .enterStep _, w => holding _ w
  | _, _ => none

/-- A verified job's torrent is resumed where the job is staged. -/
theorem verified_job_resumed_where_staged : ∃ s h k,
    ((clients Unit Unit).confine (StagesBelow resumingDeps.stagingRoot) ClientWorld.Unoccupied
      (ClientWorld.KeepsPlaces resumingDeps.stagingRoot)).Reach (oneTorrent .verified
        ((JobId.home ⟨1⟩).joinOnto resumingDeps.stagingRoot)) s ∧
      s.threads (.inl ()) = some (.call (.client (.resume h)) k) ∧
        ∃ job dir, (s.world.desks (.inl ())).current = some job ∧ job.infoHash = some h ∧
          job.stagingDir = some dir ∧ ∀ path, s.world.paths h = some path →
            path = dir.joinOnto resumingDeps.stagingRoot := by
  obtain ⟨s, hs, hthread, -⟩ := System.reach_alone
    ((clients Unit Unit).confine (StagesBelow resumingDeps.stagingRoot) ClientWorld.Unoccupied
      (ClientWorld.KeepsPlaces resumingDeps.stagingRoot)) (oneTorrent .verified _) (.inl ())
    (h := upToResume) ⟨.tick rfl, acting_resumingTick⟩ (fun c w r hr => by
      have hanswered : ∃ a, holdingReply w c = some a ∧ afterHoldingReply w a = r := by
        unfold upToResume at hr
        split at hr
        all_goals first | exact Option.map_eq_some_iff.1 hr | cases hr
      obtain ⟨a, ha, rfl⟩ := hanswered
      obtain ⟨hreplies, hclient⟩ := holdingReply_replies ha
      refine ⟨w, .refl, ?_, _, _, hreplies, hclient, rfl⟩
      unfold upToResume at hr
      split at hr
      all_goals trivial) 7
  obtain ⟨k, hk⟩ := resumes_some (by decide +kernel : resumes (System.drive upToResume 7 resumingTick
    (oneTorrent .verified ((JobId.home ⟨1⟩).joinOnto resumingDeps.stagingRoot))).1 = some sevens)
  have hresume := hthread.trans (congrArg some hk)
  exact ⟨s, sevens, k, hs, hresume, resumed_where_staged (oneTorrent_housed fun _ => rfl) hs hresume⟩

end SeedMedic
