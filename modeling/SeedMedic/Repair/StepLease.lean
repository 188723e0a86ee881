/-
  Workers sharing one store: under which lease a step starts.
-/
import SeedMedic.Lib.Pool
import SeedMedic.Repair.Drive
import SeedMedic.Repair.Leases

namespace SeedMedic

open Lib Prog

/-! ## A worker on its own -/

/-- A worker starts steps only of jobs it was granted; the local state is the set of them. -/
def grantRules (owner : String) : Rules Call Ans (Set JobId) where
  may
    | .enterStep job, held => job.id ∈ held
    | .store c, _ => LeaseWorld.OwnName owner c
    | _, _ => True
  next
    | .store (.claim ..), .ok jobs, held, held' =>
      (jobs.map RepairJob.id).Nodup ∧ held' = held ∪ { id | id ∈ jobs.map RepairJob.id }
    | .store (.release id ..), _, held, held' => held' = held \ {id}
    | .store (.clearStaleLeases _), _, _, held' => held' = ∅
    | .store (.job id), r, held, held' => (∀ job, r = .ok (some job) → job.id = id) ∧ held' = held
    | _, _, held, held' => held' = held

section
variable {owner : String} {deps : RepairDeps} {config : WorkerConfig} {job : RepairJob}
  {held : Set JobId} {summary : TickSummary}

/-- Calls that neither need nor change what is held. -/
def Neutral (owner : String) : Call → Prop
  | .enterStep _ | .store (.claim ..) | .store (.release ..) | .store (.clearStaleLeases _) => False
  | .store (.renewLease _ o _) => o = owner
  | _ => True

/-- A program of neutral calls leaves what is held alone. -/
theorem obeys_of_neutral {α : Type} {p : M α} (h : p.Only (Neutral owner)) :
    p.Obeys (grantRules owner) held fun _ held' => held' = held := by
  refine h.obeys rfl fun c l hc hl => ?_
  subst hl
  cases c with
  | store c =>
    cases c with
    | claim o lease limit => cases hc
    | release id retryAt countAttempt => cases hc
    | clearStaleLeases o => cases hc
    | job id => exact ⟨trivial, fun r l' hn => hn.2⟩
    | renewLease id o lease => exact ⟨hc, fun r l' hn => hn⟩
    | _ => exact ⟨trivial, fun r l' hn => hn⟩
  | enterStep job => cases hc
  | _ => exact ⟨trivial, fun r l' hn => hn⟩

theorem neutral_of_stepCall {c : Call} (h : StepCall c) : Neutral owner c := by
  cases c with
  | store c => cases c <;> trivial
  | enterStep job => cases h
  | _ => trivial

/-- What is reloaded is the same job. -/
theorem reload_grants {id : JobId} : (reload id).Obeys (grantRules owner) held
    fun r held' => held' = held ∧ ∀ next, r = some next → next.id = id := by
  refine M.obeys_store trivial fun r held' hn => ?_
  obtain ⟨hid, rfl⟩ := hn
  split
  · exact ⟨rfl, fun next h => hid next (by rw [← h])⟩
  · exact ⟨rfl, fun next h => by cases h⟩

/-- Going on with a job keeps to that job. -/
def SameJob (job : RepairJob) (control : Control) : Prop :=
  ∀ next, control = .next next → next.id = job.id

theorem proceed_grants : (proceed config job.id).Obeys (grantRules config.owner) held
    fun r held' => held' = held ∧ SameJob job r := by
  have hrenew : (renewLease config job.id).Only (Neutral config.owner) := by
    refine M.only_store rfl fun r => ?_
    split <;> trivial
  refine (obeys_of_neutral hrenew).bind fun renewed l hl => ?_
  subst hl
  split_ifs
  · refine reload_grants.bind fun next l hl => ?_
    obtain ⟨rfl, hid⟩ := hl
    split
    · split_ifs
      · exact ⟨rfl, fun next h => by cases h; exact hid _ rfl⟩
      · exact ⟨rfl, fun next h => by cases h⟩
    · exact ⟨rfl, fun next h => by cases h⟩
  · exact ⟨rfl, fun next h => by cases h⟩

theorem settleAdvance_grants {detail : Option Json} {patch : JobPatch} :
    (settleAdvance deps config job summary detail patch).Obeys (grantRules config.owner) held
      fun r held' => held' = held ∧ SameJob job r.2 := by
  unfold settleAdvance
  split
  · exact ⟨rfl, fun next h => by cases h⟩
  · refine M.obeys_store trivial fun r l hl => ?_
    cases hl
    split
    · refine (obeys_of_neutral (recordAdvance_only (fun _ => trivial) fun _ => trivial)).bind
        fun _ l hl => ?_
      subst hl
      exact proceed_grants.bind fun control l hl => hl
    · exact proceed_grants.bind fun control l hl => hl
    · exact ⟨rfl, fun next h => by cases h⟩
    · refine (obeys_of_neutral (stopForRetry_only trivial)).bind fun stop l hl => ?_
      exact ⟨hl, fun next h => by cases h⟩

theorem settleRewind_grants {target : RepairState} {note : String} :
    (settleRewind job target note).Obeys (grantRules owner) held
      fun r held' => held' = held ∧ SameJob job r := by
  unfold settleRewind
  split
  · exact ⟨rfl, fun next h => by cases h⟩
  · refine M.obeys_store trivial fun r l hl => ?_
    cases hl
    split
    · exact ⟨rfl, fun next h => by cases h⟩
    · refine M.obeys_publish trivial fun l hl => ?_
      cases hl
      refine reload_grants.bind fun next l hl => ?_
      obtain ⟨rfl, hid⟩ := hl
      split
      · exact ⟨rfl, fun next h => by cases h; exact hid _ rfl⟩
      · exact ⟨rfl, fun next h => by cases h⟩

/-- Settling a step changes no grant and goes on with the same job only. -/
theorem settle_grants {outcome : StepOutcome} :
    (settle deps config job summary outcome).Obeys (grantRules config.owner) held
      fun r held' => held' = held ∧ SameJob job r.2 := by
  have hpark : ∀ reason detail patch, (park job reason detail patch).Only (Neutral config.owner) :=
    fun _ _ _ => park_only (fun _ _ _ _ _ => trivial) (fun _ => trivial) fun _ => trivial
  cases outcome with
  | advance detail patch => exact settleAdvance_grants
  | rewind target note => exact settleRewind_grants.bind fun control l hl => hl
  | review reason detail patch =>
    exact (obeys_of_neutral (hpark _ _ _)).bind fun _ l hl => ⟨hl, fun next h => by cases h⟩
  | wait after note patch =>
    exact (obeys_of_neutral (settleWait_only trivial trivial fun _ => trivial)).bind
      fun _ l hl => ⟨hl, fun next h => by cases h⟩
  | retry error =>
    show (settleRetry deps job summary error).Obeys _ _ _
    unfold settleRetry
    simp only
    split_ifs
    · exact (obeys_of_neutral (hpark _ _ _)).bind fun _ l hl => ⟨hl, fun next h => by cases h⟩
    · exact (obeys_of_neutral (stopForRetry_only trivial)).bind fun _ l hl =>
        ⟨hl, fun next h => by cases h⟩

/-- A worker is ready for the jobs it was granted and has not given up. -/
theorem workerRules_grants :
    WorkerRules (grantRules config.owner) deps config (fun held job => job.id ∈ held)
      fun other job => other.id ≠ job.id where
  idle c held hc := by
    cases c with
    | now => exact ⟨trivial, fun r l hl job hjob => (show l = held from hl) ▸ hjob⟩
    | shuttingDown => exact ⟨trivial, fun r l hl job hjob => (show l = held from hl) ▸ hjob⟩
    | recordTick t => exact ⟨trivial, fun r l hl job hjob => (show l = held from hl) ▸ hjob⟩
    | publish e => exact ⟨trivial, fun r l hl job hjob => (show l = held from hl) ▸ hjob⟩
    | _ => cases hc
  claim held := by
    refine ⟨rfl, fun jobs l hn => ?_⟩
    obtain ⟨hnodup, rfl⟩ := hn
    exact ⟨(List.pairwise_map.1 hnodup).imp Ne.symm, fun job hjob => .inr (List.mem_map_of_mem hjob)⟩
  release held job stop count := by
    refine ⟨trivial, fun r l hl other hne hother => ?_⟩
    rw [show l = held \ {job.id} from hl]
    exact ⟨hother, hne⟩
  round held job summary hjob := by
    refine M.obeys_enterStep hjob fun l hl => ?_
    cases hl
    refine (obeys_of_neutral (step_stepCalls.mono fun _ => neutral_of_stepCall)).bind
      fun outcome l hl => ?_
    subst hl
    refine settle_grants.mono fun r l hl => ?_
    obtain ⟨rfl, hsame⟩ := hl
    refine ⟨fun other _ h => h, fun next hnext => ?_⟩
    rw [hsame next hnext]
    exact ⟨hjob, fun other h => h⟩

/-- A tick starts steps only of the jobs it claimed and has not given up. -/
theorem tick_grants : (tick deps config).Obeys (grantRules config.owner) held fun _ _ => True :=
  workerRules_grants.tick held

/-- Reconciliation gives up what an earlier run of the same worker held, and starts no step. -/
theorem reconcileOnStartup_grants :
    (reconcileOnStartup owner).Obeys (grantRules owner) held fun _ _ => True := by
  have hneutral : ∀ c, ReconcileCall c → Neutral owner c := by
    intro c hc
    cases c with
    | store c => cases c <;> trivial
    | _ => trivial
  refine M.obeys_store rfl fun r l _ => ?_
  split
  · exact (obeys_of_neutral (reconcileAfter_only hneutral)).mono fun _ _ _ => trivial
  · exact (obeys_of_neutral (reconcileAfter_only hneutral)).mono fun _ _ _ => trivial

end

/-! ## Workers side by side -/

/-- How a call of a worker is answered: by the store, which may fail, by the clock, or by
    the world outside in any way. -/
def leaseAnswers (owner : String) : (c : Call) → LeaseWorld → Ans c → LeaseWorld → Prop
  | .store c, w, r, w' => ∃ s, w.store.Answers w.now c r s ∧
      w' = { w with store := s, granted := w.granted.learn owner w.now c r }
  | .now, w, r, w' => r = w.now ∧ w' = w
  | _, w, _, w' => w' = w

/-- Time passes, and others write to the store without touching a lease. -/
def leaseMoves (w w' : LeaseWorld) : Prop :=
  ∃ now s, w.now ≤ now ∧ s.leaseOf = w.store.leaseOf ∧ w' = { w with store := s, now }

/-- What a worker does with itself: ticks, and reconciliations when it starts again. -/
inductive WorkerProgram (owner : String) : M Unit → Prop
  | tick (deps : RepairDeps) (lease : Duration) (batchSize : ℤ) :
    WorkerProgram owner (tick deps ⟨owner, lease, batchSize⟩ >>= fun _ => pure ())
  | reconcile : WorkerProgram owner (reconcileOnStartup owner >>= fun _ => pure ())

section
variable {ι : Type} (owner : ι → String)

/-- Workers of different owners sharing one store. -/
def sharedStore : System ι Call Ans LeaseWorld where
  answers i := leaseAnswers (owner i)
  moves := leaseMoves
  starts i := WorkerProgram (owner i)

/-- The condition on a call: a step starts before the lease the worker was last granted on
    the job runs out, and no release is made while another worker's grant is in force. -/
def InTime (i : ι) : Call → LeaseWorld → Prop
  | .enterStep job, w => ∀ t, w.granted (owner i) job.id = some t → timestamp w.now < t
  | .store c, w => w.ReleasesOwn (owner i) c
  | _, _ => True

/-- What a worker holds was granted to it. -/
def Granted (i : ι) (held : Set JobId) (w : LeaseWorld) : Prop :=
  ∀ id ∈ held, (w.granted (owner i) id).isSome

variable {owner}

theorem learn_other {o w : String} {now : Time} {g : Grants} {c : StoreCall} {r : c.Ans}
    (h : o ≠ w) : (g.learn w now c r) o = g o := by
  funext id
  unfold Grants.learn
  split <;> simp [h]

theorem learn_fail {w : String} {now : Time} {g : Grants} {c : StoreCall} {e : StoreError} :
    g.learn w now c (c.fail e) = g := by
  cases c <;> rfl

theorem Granted.mono {i : ι} {held held' : Set JobId} {w : LeaseWorld} (h : Granted owner i held w)
    (hsub : held' ⊆ held) : Granted owner i held' w := fun id hid => h id (hsub hid)

/-- A worker knows what the store's answer granted it. -/
theorem granted_served {i : ι} {held : Set JobId} {w : LeaseWorld} (h : Granted owner i held w)
    (c : StoreCall) : ∃ held', (grantRules (owner i)).next (.store c) (w.store.answer w.now c).1
      held held' ∧ Granted owner i held' (w.serve (owner i) c) := by
  cases c with
  | claim o lease limit =>
    refine ⟨_, ⟨LeaseWorld.nodup_claim _ _ _ _ _, rfl⟩, fun id hid => ?_⟩
    show (if owner i = owner i ∧ id ∈ _ then _ else w.granted (owner i) id).isSome
    split_ifs with htaken
    · rfl
    · exact h id (hid.resolve_right fun hm => htaken ⟨rfl, hm⟩)
  | release id retryAt countAttempt =>
    refine ⟨_, rfl, fun k hk => ?_⟩
    show (if owner i = owner i ∧ k = id then none else w.granted (owner i) k).isSome
    rw [if_neg (fun hc => hk.2 hc.2)]
    exact h k hk.1
  | clearStaleLeases o => exact ⟨∅, rfl, fun k hk => absurd hk (Set.notMem_empty k)⟩
  | renewLease id o lease =>
    refine ⟨held, rfl, fun k hk => ?_⟩
    show (Grants.learn (owner i) w.now w.granted (.renewLease id o lease)
      (.ok (w.store.renewLease w.now id o lease).1) (owner i) k).isSome
    unfold Grants.learn
    cases (w.store.renewLease w.now id o lease).1
    · exact h k hk
    · simp only
      split_ifs
      · rfl
      · exact h k hk
  | job id =>
    refine ⟨held, ⟨fun job hjob => ?_, rfl⟩, h⟩
    obtain ⟨r, hr, rfl⟩ := Option.map_eq_some_iff.1 (Except.ok.inj hjob)
    exact (Table.get?_some hr).2
  | _ => exact ⟨held, rfl, h⟩

/-- An answer that is an error grants nothing. -/
theorem granted_failed {i : ι} {held : Set JobId} {w : LeaseWorld} (h : Granted owner i held w)
    (c : StoreCall) (e : StoreError) :
    ∃ held', (grantRules (owner i)).next (.store c) (c.fail e) held held' ∧
      Granted owner i held' w := by
  cases c with
  | release id retryAt countAttempt => exact ⟨_, rfl, h.mono Set.sdiff_subset⟩
  | clearStaleLeases o => exact ⟨∅, rfl, h.mono (Set.empty_subset _)⟩
  | job id => exact ⟨held, ⟨fun job hjob => (by cases hjob), rfl⟩, h⟩
  | _ => exact ⟨held, rfl, h⟩

/-- The workers keep rows and grants in agreement, as long as every call is in time. -/
theorem sharedStore_sound (hinj : Function.Injective owner) :
    ((sharedStore owner).restrict (InTime owner)).Sound (fun i => grantRules (owner i))
      LeaseWorld.Agree (Granted owner) where
  start := by
    intro i p w _ hp
    refine ⟨∅, fun id hid => absurd hid (Set.notMem_empty id), ?_⟩
    cases hp with
    | tick deps lease batchSize => exact tick_grants.bind fun _ _ _ => trivial
    | reconcile => exact reconcileOnStartup_grants.bind fun _ _ _ => trivial
  call := by
    rintro i c w r w' held hagree hheld hmay ⟨hintime, hans⟩
    cases c with
    | store c =>
      obtain ⟨s, hs, rfl⟩ := hans
      have hkept : (⟨s, w.now, w.granted.learn (owner i) w.now c r⟩ : LeaseWorld).Agree ∧
          ∃ held', (grantRules (owner i)).next (.store c) r held held' ∧
            Granted owner i held' ⟨s, w.now, w.granted.learn (owner i) w.now c r⟩ := by
        cases hs with
        | served => exact ⟨hagree.serve hmay hintime, granted_served hheld c⟩
        | failed detail =>
          rw [learn_fail]
          exact ⟨hagree, granted_failed hheld c _⟩
      refine ⟨hkept.1, hkept.2, fun j hj held' h id hid => ?_⟩
      · show (w.granted.learn (owner i) w.now c r (owner j) id).isSome
        rw [learn_other (fun he => hj (hinj he))]
        exact h id hid
    | now =>
      obtain ⟨-, rfl⟩ := hans
      exact ⟨hagree, ⟨held, rfl, hheld⟩, fun j _ held' h => h⟩
    | _ =>
      cases hans
      exact ⟨hagree, ⟨held, rfl, hheld⟩, fun j _ held' h => h⟩
  move := by
    rintro w w' hagree ⟨now, s, hnow, hs, rfl⟩
    exact ⟨(hagree.write hs).later hnow, fun j held h => h⟩

end

/-! ## A worker whose calls take a second each -/

/-- Two jobs of trackers that are not configured. -/
def twoJobs : SqliteRepairStore where
  jobs := ⟨[discoveredRow ⟨1⟩ 0 ⟨⟨"tracker"⟩, ⟨"7"⟩, "show", none, 10, none⟩,
    discoveredRow ⟨2⟩ 0 ⟨⟨"tracker"⟩, ⟨"8"⟩, "film", none, 20, none⟩], by decide⟩
  files := .empty
  transitions := []
  jobSeq := 2

def noTrackers : RepairDeps where
  trackers := []
  inspect := fun _ => .error (.malformed "")
  candidateSources := []
  stagingRoot := .ofString "/staging"
  policy := .default
  category := none

/-- A tick of a worker whose leases last five seconds. -/
def slowTick : M Unit := tick noTrackers ⟨"a", .fromSecs 5, 4⟩ >>= fun _ => pure ()

/-- The world a second later. -/
def aSecondLater (w : LeaseWorld) : LeaseWorld := { w with now := w.now + Duration.fromSecs 1 }

/-- Answer a call after a second. -/
def slowly : (c : Call) → LeaseWorld → Option (Ans c × LeaseWorld)
  | .store c, w => some (((aSecondLater w).store.answer (aSecondLater w).now c).1,
      (aSecondLater w).serve "a" c)
  | .now, w => some ((aSecondLater w).now, aSecondLater w)
  | .shuttingDown, w => some (false, aSecondLater w)
  | .publish _, w | .notify _, w | .recordTick _, w | .enterStep _, w => some ((), aSecondLater w)
  | _, _ => none

theorem slowly_answers {c : Call} {w : LeaseWorld} {r : Ans c × LeaseWorld}
    (h : slowly c w = some r) : Relation.ReflTransGen leaseMoves w (aSecondLater w) ∧
      leaseAnswers "a" c (aSecondLater w) r.1 r.2 := by
  refine ⟨.single ⟨_, w.store, Nat.le_add_right _ _, rfl, rfl⟩, ?_⟩
  cases c with
  | store c => cases h; exact ⟨_, .served, rfl⟩
  | now => cases h; exact ⟨rfl, rfl⟩
  | client c => cases h
  | tracker c => cases h
  | library c => cases h
  | staging c => cases h
  | panic => cases h
  | _ => cases h; rfl

/-- The job whose step a program is about to start. -/
def startsStep : M Unit → Option JobId
  | .call (.enterStep job) _ => some job.id
  | _ => none

theorem startsStep_some {p : M Unit} {id : JobId} (h : startsStep p = some id) :
    ∃ job k, p = .call (.enterStep job) k ∧ job.id = id := by
  unfold startsStep at h
  split at h
  · cases h
    exact ⟨_, _, rfl, rfl⟩
  · cases h

/-- The same answers, to calls that are in time in any world. -/
def slowlyInTime : (c : Call) → LeaseWorld → Option (Ans c × LeaseWorld)
  | .store (.release ..), _ | .enterStep _, _ => none
  | c, w => slowly c w

theorem slowlyInTime_answers {c : Call} {w : LeaseWorld} {r : Ans c × LeaseWorld}
    (h : slowlyInTime c w = some r) : slowly c w = some r ∧
      InTime (fun _ : Unit => "a") () c (aSecondLater w) := by
  cases c with
  | store c => cases c <;> first | exact ⟨h, trivial⟩ | cases h
  | enterStep job => cases h
  | _ => exact ⟨h, trivial⟩

end SeedMedic
