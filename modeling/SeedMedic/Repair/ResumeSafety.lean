/-
  What the client last answered before a torrent is resumed.
-/
import SeedMedic.Lib.Pool
import SeedMedic.Repair.Drive
import SeedMedic.Repair.Store
import SeedMedic.Web.Calls

namespace SeedMedic

open Lib Prog

/-- The torrent a step was last told of, for each info-hash. -/
abbrev Seen := InfoHash → Option TorrentStatus

/-- What is known of the client in the current step after a call. -/
def Seen.record (seen : Seen) : (c : Call) → Ans c → Seen
  | .client (.status h), r => Function.update seen h (answeredTorrent r)
  | .enterStep _, _ => fun _ => none
  | _, _ => seen

/-- All data is there, and the client neither checks it nor complains. -/
structure Resumable (status : TorrentStatus) : Prop where
  complete : status.completeness = .complete
  notChecking : status.state ≠ .checking
  notErrored : status.state ≠ .errored

/-- A torrent is resumed only when the step last saw it resumable. -/
def seenRules : Rules Call Ans Seen where
  may
    | .client (.resume h), seen => ∃ status, seen h = some status ∧ Resumable status
    | _, _ => True
  next c r seen seen' := seen' = seen.record c r

/-- Calls other than a resume. -/
def NoResume : Call → Prop
  | .client (.resume _) => False
  | _ => True

section
variable {deps : RepairDeps} {config : WorkerConfig} {job : RepairJob} {seen : Seen}

theorem obeys_of_noResume {α : Type} {p : M α} (h : p.Only NoResume) :
    p.Obeys seenRules seen fun _ _ => True := by
  refine h.obeys trivial fun c l hc _ => ⟨?_, fun _ _ _ => trivial⟩
  cases c with
  | client c =>
    cases c with
    | resume h => cases hc
    | _ => trivial
  | _ => trivial

theorem noResume_of_gathers {c : Call} (h : Gathers c) : NoResume c := by
  cases c <;> trivial

/-- A status that is passed on is the one the step saw. -/
theorem currentStatus_seen : (currentStatus deps job).Obeys seenRules seen fun r seen' =>
    ∀ status, r = .ok status → ∃ h, job.infoHash = some h ∧ seen' h = some status ∧
      status.state ≠ .checking ∧ status.state ≠ .errored := by
  unfold currentStatus
  split
  · exact fun status h => by cases h
  · rename_i h hh
    refine M.obeys_client trivial fun r seen' hs => ?_
    subst hs
    split
    · exact fun status h => by cases h
    · exact fun status h => by cases h
    · rename_i status
      split
      · exact M.obeys_now trivial fun now l _ status h => by cases h
      · exact fun status h => by cases h
      · rename_i hchecking herrored
        intro status' hst
        cases hst
        exact ⟨h, hh, Function.update_self .., hchecking, herrored⟩

theorem resume_seen : (resume deps job).Obeys seenRules seen fun _ _ => True := by
  refine currentStatus_seen.bind fun r seen' hr => ?_
  split
  · trivial
  · rename_i status
    obtain ⟨h, hh, hseen, hchecking, herrored⟩ := hr status rfl
    split
    · trivial
    · rename_i hdecide
      rw [hh]
      refine M.obeys_client ⟨status, hseen, (decideResume_resume hdecide).1, hchecking, herrored⟩
        fun r l _ => ?_
      split <;> trivial

theorem checkClient_seen (h : InfoHash) : (checkClient deps job h).Obeys seenRules seen
    fun _ _ => True := by
  refine M.obeys_client trivial fun r seen' hs => ?_
  subst hs
  split
  · trivial
  · trivial
  · rename_i status
    split
    · trivial
    · trivial
    · rename_i hpaused
      split
      · trivial
      · rename_i hdecide
        refine M.obeys_client ⟨status, Function.update_self .., (decideResume_resume hdecide).1,
          by rw [hpaused]; decide, by rw [hpaused]; decide⟩ fun r l _ => ?_
        split <;> trivial
    · trivial
    · trivial

theorem confirmWithTracker_seen : (confirmWithTracker deps job).Obeys seenRules seen
    fun _ _ => True := by
  unfold confirmWithTracker
  split_ifs
  · refine M.obeys_tracker trivial fun r l _ => ?_
    split
    · trivial
    · split
      · trivial
      · refine (checkClient_seen _).bind fun r l _ => ?_
        split
        · trivial
        · exact M.obeys_now trivial fun now l _ => trivial
  · trivial

/-- No step resumes what it has not just seen complete. -/
theorem step_seen : (step deps job).Obeys seenRules seen fun _ _ => True := by
  have hgathers : ∀ {p : M StepOutcome}, p.Only Gathers → p.Obeys seenRules seen fun _ _ => True :=
    fun h => obeys_of_noResume (h.mono fun _ => noResume_of_gathers)
  unfold step
  split
  · exact hgathers (fetchTorrent_reads.mono fun _ => .of_reads)
  · exact hgathers (matchMedia_reads.mono fun _ => .of_reads)
  · exact hgathers stageFiles_gathers
  · exact obeys_of_noResume (inject_only (fun _ h => noResume_of_gathers (.of_reads h)) fun _ _ _ _ _ => trivial)
  · exact obeys_of_noResume (startRecheck_only trivial (fun _ _ => trivial) fun _ _ => trivial)
  · exact obeys_of_noResume (verify_only trivial fun _ _ => trivial)
  · exact resume_seen
  · exact confirmWithTracker_seen
  all_goals trivial

theorem settle_noResume {summary : TickSummary} {outcome : StepOutcome} :
    (settle deps config job summary outcome).Only NoResume :=
  settle_only (fun _ _ _ _ _ => trivial) trivial trivial trivial trivial (fun _ => trivial)
    fun _ => trivial

theorem workerRules_seen :
    WorkerRules seenRules deps config (fun _ _ => True) fun _ _ => True where
  idle c seen hc := by
    refine ⟨?_, fun _ _ _ _ _ => trivial⟩
    cases c with
    | client c => cases hc
    | _ => trivial
  claim seen := ⟨trivial, fun jobs l _ => ⟨List.pairwise_of_forall fun _ _ => trivial,
    fun _ _ => trivial⟩⟩
  release seen job stop count := ⟨trivial, fun _ _ _ _ _ _ => trivial⟩
  round seen job summary _ := by
    refine M.obeys_enterStep trivial fun l _ => step_seen.bind fun outcome l _ => ?_
    exact (obeys_of_noResume settle_noResume).mono fun r l _ =>
      ⟨fun _ _ _ => trivial, fun next _ => ⟨trivial, fun _ _ => trivial⟩⟩

theorem tick_seen : (tick deps config).Obeys seenRules seen fun _ _ => True :=
  workerRules_seen.tick seen

end

/-! ## Every run -/

/-- Everything that runs against the client: ticks, reconciliations and operators' actions. -/
inductive AnyProgram : M Unit → Prop
  | tick (deps : RepairDeps) (config : WorkerConfig) : AnyProgram (tick deps config >>= fun _ => pure ())
  | reconcile (owner : String) : AnyProgram (reconcileOnStartup owner >>= fun _ => pure ())
  | operator {id : JobId} {p : M Unit} (h : OperatorProgram id p) : AnyProgram p

/-- Any number of programs side by side, every call answered in any way; the world is what
    each of them was last told of the client in its current step. -/
def observed (ι : Type) [DecidableEq ι] : System ι Call Ans (ι → Seen) where
  answers i c w r w' := w' = Function.update w i ((w i).record c r)
  moves _ _ := False
  starts _ := AnyProgram

theorem AnyProgram.seen {p : M Unit} (h : AnyProgram p) (seen : Seen) :
    p.Obeys seenRules seen fun _ _ => True := by
  cases h with
  | tick deps config => exact tick_seen.bind fun _ _ _ => trivial
  | reconcile owner =>
    refine (M.obeys_store trivial fun r l _ => ?_ :
      (reconcileOnStartup owner).Obeys seenRules seen fun _ _ => True).bind fun _ _ _ => trivial
    have hcalls : ∀ c, ReconcileCall c → NoResume c := by
      intro c hc
      cases c with
      | client c => cases c <;> trivial
      | _ => trivial
    split
    · exact obeys_of_noResume (reconcileAfter_only hcalls)
    · exact obeys_of_noResume (reconcileAfter_only hcalls)
  | operator h =>
    refine obeys_of_noResume (h.operates.mono fun c hc => ?_)
    cases c with
    | client c => cases c <;> trivial
    | _ => trivial

theorem observed_sound (ι : Type) [DecidableEq ι] :
    (observed ι).Sound (fun _ => seenRules) (fun _ => True) fun i seen w => seen = w i where
  start := fun i p w _ hp => ⟨w i, rfl, hp.seen _⟩
  call := by
    rintro i c w r w' seen - rfl hmay rfl
    refine ⟨trivial, ⟨_, rfl, by rw [Function.update_self]⟩, fun j hj m hm => ?_⟩
    rw [Function.update_of_ne hj]
    exact hm
  move := fun _ _ _ h => h.elim

/-- Whenever a torrent is about to be resumed, the last status of it in the same step was a
    complete torrent that is neither being checked nor errored. -/
theorem resume_only_complete {ι : Type} [DecidableEq ι] {s : Lib.Config ι Call Ans (ι → Seen)} {i : ι}
    {h : InfoHash} {k : Ans (.client (.resume h)) → M Unit}
    (hreach : (observed ι).Reach (fun _ _ => none) s)
    (hresume : s.threads i = some (.call (.client (.resume h)) k)) :
    ∃ status, s.world i h = some status ∧ Resumable status := by
  obtain ⟨-, seen, rfl, hmay⟩ := (observed_sound ι).permitted trivial hreach hresume
  exact hmay

/-! ## A step that resumes -/

def sevens : InfoHash := ⟨Vector.replicate 20 7⟩

/-- A verified job an operator has approved. -/
def verifiedJob : RepairJob :=
  readJob { discoveredRow ⟨1⟩ 0 ⟨⟨"tracker"⟩, ⟨"7"⟩, "show", none, 10, none⟩ with
    state := .verified, infoHash := some sevens, resumeApproved := true }

def completeTorrent : TorrentStatus := ⟨.paused, .complete, ⟨[]⟩, none, false, none, 0, none⟩

def anyDeps : RepairDeps where
  trackers := []
  inspect := fun _ => .error (.malformed "")
  candidateSources := []
  stagingRoot := .ofString "/staging"
  policy := .default
  category := none

/-- Answers under which a verified job comes to its resume. -/
def answerVerified : (c : Call) → Option (Ans c)
  | .store (.claim ..) => some (.ok [verifiedJob])
  | .client (.status _) => some (.ok (some completeTorrent))
  | .now => some 5
  | .shuttingDown => some false
  | .recordTick _ | .enterStep _ => some ()
  | _ => none

/-- The torrent a program is about to resume. -/
def resumes : M Unit → Option InfoHash
  | .call (.client (.resume h)) _ => some h
  | _ => none

theorem resumes_some {p : M Unit} {h : InfoHash} (hp : resumes p = some h) :
    ∃ k, p = .call (.client (.resume h)) k := by
  unfold resumes at hp
  split at hp
  · cases hp
    exact ⟨_, rfl⟩
  · cases hp

/-- A complete torrent comes to be resumed, and was seen complete. -/
theorem verified_job_resumed : ∃ s k, (observed Unit).Reach (fun _ _ => none) s ∧
    s.threads () = some (.call (.client (.resume sevens)) k) ∧
    ∃ status, s.world () sevens = some status ∧ Resumable status := by
  let h : (c : Call) → (Unit → Seen) → Option (Ans c × (Unit → Seen)) := fun c w =>
    (answerVerified c).map fun r => (r, Function.update w () ((w ()).record c r))
  obtain ⟨s, hs, hthread, -⟩ := System.reach_alone (observed Unit) (fun _ _ => none) ()
    (h := h) (.tick anyDeps ⟨"a", 0, 4⟩) (fun c w r hr => by
      obtain ⟨a, -, rfl⟩ := Option.map_eq_some_iff.1 hr
      exact ⟨w, .refl, rfl⟩) 7
  obtain ⟨k, hk⟩ := resumes_some (by decide : resumes (System.drive h 7
    (tick anyDeps ⟨"a", 0, 4⟩ >>= fun _ => pure ()) fun _ _ => none).1 = some sevens)
  have hresume := hthread.trans (congrArg some hk)
  exact ⟨s, k, hs, hresume, resume_only_complete hs hresume⟩

end SeedMedic
