/-
  One set of rules for everything that acts on jobs: the worker's ticks, the
  reconciliation and the operators.
-/
import SeedMedic.Repair.Conclusions
import SeedMedic.Repair.Drive
import SeedMedic.Repair.Leases
import SeedMedic.Web.Calls

namespace SeedMedic

open Lib Prog

/-! ## What a thread has before it -/

/-- The copies of jobs a thread was handed, and how far its current step has come. -/
structure Desk where
  /-- The copies it may still step. -/
  held : Set RepairJob
  /-- Every copy it was ever handed. -/
  loaded : Set RepairJob
  /-- The job of the current step. -/
  current : Option RepairJob
  /-- What the client last answered in the step. -/
  seen : Option TorrentStatus
  /-- The client accepted a recheck in the step. -/
  requested : Bool
  held_loaded : held ⊆ loaded

namespace Desk

/-- A desk with nothing on it. -/
def bare : Desk := ⟨∅, ∅, none, none, false, Set.empty_subset _⟩

/-- The copies of a job are done with. -/
def putAway (d : Desk) (id : JobId) : Desk :=
  ⟨{job ∈ d.held | job.id ≠ id}, d.loaded, none, none, false, (Set.sep_subset _ _).trans d.held_loaded⟩

/-- More copies to look at, none of them to step. -/
def load (d : Desk) (jobs : List RepairJob) : Desk :=
  { d with
    loaded := d.loaded ∪ {job | job ∈ jobs}
    held_loaded := d.held_loaded.trans Set.subset_union_left }

/-- The desk after a call was answered. -/
def record (d : Desk) : (c : Call) → Ans c → Desk
  | .store (.claim ..), .ok jobs =>
    ⟨{job | job ∈ jobs}, d.loaded ∪ {job | job ∈ jobs}, none, none, false, Set.subset_union_right⟩
  | .store (.job _), .ok (some job) =>
    { d with
      held := insert job d.held
      loaded := insert job d.loaded
      held_loaded := Set.insert_subset_insert d.held_loaded }
  | .store .unfinished, .ok jobs | .store .parked, .ok jobs => d.load jobs
  | .store (.apply id ..), _ | .store (.release id ..), _ => d.putAway id
  | .store (.clearStaleLeases _), _ => ⟨∅, d.loaded, none, none, false, Set.empty_subset _⟩
  | .enterStep job, _ => { d with current := some job, seen := none, requested := false }
  | .client (.status _), r => { d with seen := answeredTorrent r }
  | .client (.recheck _), .ok () => { d with requested := true }
  | _, _ => d

/-- Two desks with the same copies, in the same step. -/
structure SameJobs (d d' : Desk) : Prop where
  held : d'.held = d.held
  loaded : d'.loaded = d.loaded
  current : d'.current = d.current

theorem SameJobs.refl (d : Desk) : d.SameJobs d := ⟨rfl, rfl, rfl⟩

end Desk

/-! ## What it may do -/

/-- A transition an operator approves a resume by. -/
def Approval (t : Transition) (u : TransitionUpdate) : Prop :=
  t.reason = .operatorRetry ∧
    ∃ resumedAt, u.detail = some (operatorJson "approve_resume" [("resumed_at", .str resumedAt)])

/-- A finished check was seen in the step. -/
def Desk.Settled (d : Desk) : Prop :=
  ∃ status, d.seen = some status ∧ status.completeness = .complete ∧ status.state ≠ .checking

/-- What a transition needs to be written from a desk. -/
structure Desk.MayApply (d : Desk) (id : JobId) (t : Transition) (u : TransitionUpdate) : Prop where
  /-- It was planned for a copy of the job. -/
  planned : ∃ job ∈ d.loaded, job.id = id ∧ job.planTransition t.toState t.reason = .ok t
  /-- Progress is the current step's. -/
  stepped : t.reason = .progress →
    ∃ job, d.current = some job ∧ job.id = id ∧ job.state = t.fromState
  /-- A recheck was accepted before the job counts as rechecking. -/
  requested : t.reason = .progress → t.fromState = .injected → d.requested = true
  /-- A finished check was seen before the job counts as verified. -/
  settled : t.reason = .progress → t.fromState = .rechecking → d.Settled
  /-- Only an operator's approval approves. -/
  approval : u.patch.resumeApproved = none ∨ Approval t u

/-- A torrent is resumed in a step of its job, by a policy that decides so. -/
def Desk.MayResume (d : Desk) (policies : SafetyPolicy → Prop) (h : InfoHash) : Prop :=
  ∃ job ∈ d.held, d.current = some job ∧ job.infoHash = some h ∧ ∃ policy completeness,
    policies policy ∧
      decideResume completeness job.materialization policy job.resumeApproved = .resume

/-- What is true of every answer of the store. -/
def Honest : (c : Call) → Ans c → Prop
  | .store (.claim ..), .ok jobs => (jobs.map RepairJob.id).Nodup
  | .store (.job id), .ok (some job) => job.id = id
  | _, _ => True

/-- The rules everything keeps that runs under one of some policies. -/
def conduct (policies : SafetyPolicy → Prop) : Rules Call Ans Desk where
  may
    | .enterStep job, d => job ∈ d.held
    | .client (.resume h), d => d.MayResume policies h
    | .client (.recheck h), d =>
      ∃ job, d.current = some job ∧ job.state = .injected ∧ job.infoHash = some h
    | .store (.apply id t u), d => d.MayApply id t u
    | .store (.recordProgress _ patch), _ => patch.resumeApproved = none
    | .store (.setReviewResumePoint id state), d =>
      (∀ job ∈ d.held, job.id ≠ id) ∧ (state = .staged ∨ state = .matched)
    | _, _ => True
  next c r d d' := Honest c r ∧ d' = d.record c r

/-- A copy that an answer puts on the desk to be stepped. -/
def Delivers : (c : Call) → Ans c → RepairJob → Prop
  | .store (.claim ..), .ok jobs, job => job ∈ jobs
  | .store (.job _), .ok (some next), job => job = next
  | _, _, _ => False

/-- A copy at hand was there before the call, or is handed over by its answer. -/
theorem Desk.held_record {d : Desk} {c : Call} {r : Ans c} {job : RepairJob}
    (h : job ∈ (d.record c r).held) : job ∈ d.held ∨ Delivers c r job := by
  cases c with
  | store c =>
    cases c with
    | claim owner lease limit =>
      cases r with
      | error e => exact .inl h
      | ok jobs => exact .inr h
    | job id =>
      cases r with
      | error e => exact .inl h
      | ok next =>
        cases next with
        | none => exact .inl h
        | some next => exact h.symm
    | unfinished => cases r <;> exact .inl h
    | parked => cases r <;> exact .inl h
    | apply id t u => exact .inl h.1
    | release id retryAt countAttempt => exact .inl h.1
    | clearStaleLeases owner => exact h.elim
    | _ => exact .inl h
  | client c =>
    cases c with
    | recheck h' => cases r <;> exact .inl h
    | _ => exact .inl h
  | _ => exact .inl h

/-- A copy an answer shows, to be stepped or only looked at. -/
def Shows : (c : Call) → Ans c → RepairJob → Prop
  | .store .unfinished, .ok jobs, job | .store .parked, .ok jobs, job => job ∈ jobs
  | c, r, job => Delivers c r job

theorem Delivers.shows {c : Call} {r : Ans c} {job : RepairJob} (h : Delivers c r job) :
    Shows c r job := by
  cases c with
  | store c =>
    cases c with
    | unfinished => cases r <;> exact h.elim
    | parked => cases r <;> exact h.elim
    | _ => exact h
  | _ => exact h

/-- A loaded copy was loaded before the call, or is shown by its answer. -/
theorem Desk.loaded_record {d : Desk} {c : Call} {r : Ans c} {job : RepairJob}
    (h : job ∈ (d.record c r).loaded) : job ∈ d.loaded ∨ Shows c r job := by
  cases c with
  | store c =>
    cases c with
    | claim owner lease limit =>
      cases r with
      | error e => exact .inl h
      | ok jobs => exact h
    | job id =>
      cases r with
      | error e => exact .inl h
      | ok next =>
        cases next with
        | none => exact .inl h
        | some next => exact h.symm
    | unfinished =>
      cases r with
      | error e => exact .inl h
      | ok jobs => exact h
    | parked =>
      cases r with
      | error e => exact .inl h
      | ok jobs => exact h
    | _ => exact .inl h
  | client c =>
    cases c with
    | recheck h' => cases r <;> exact .inl h
    | _ => exact .inl h
  | _ => exact .inl h

/-- A copy that is shown is what the row says. -/
theorem SqliteRepairStore.Replies.shows {s s' : SqliteRepairStore} {now : Time} {c : Call}
    {r : Ans c} {job : RepairJob} (h : s.Replies now c r s') (hd : Shows c r job) :
    ∃ row row', s.jobs.get? job.id = some row ∧ SqliteRepairStore.Rescheduled row row' ∧
      job = readJob row' := by
  have hlist : ∀ p : JobRow → Bool, job ∈ ((s.jobs.rows.filter p).insertionSort
      fun a b => a.id.val ≤ b.id.val).map readJob →
        ∃ row row', s.jobs.get? job.id = some row ∧ SqliteRepairStore.Rescheduled row row' ∧
          job = readJob row' := by
    intro p hjob
    obtain ⟨row, hrow, rfl⟩ := List.mem_map.1 hjob
    have hmem : row ∈ s.jobs.rows :=
      List.mem_of_mem_filter ((List.mem_insertionSort fun a b : JobRow => a.id.val ≤ b.id.val).1 hrow)
    exact ⟨row, row, Table.get?_eq_some hmem, .refl row, rfl⟩
  cases c with
  | store c =>
    cases c with
    | claim owner lease limit =>
      cases h with
      | failed detail => exact hd.elim
      | served =>
        obtain ⟨row', hrow', rfl⟩ := List.mem_map.1 (show job ∈ (s.claim now owner lease limit).1 from hd)
        obtain ⟨row, hrow, rfl⟩ := Table.mem_update.1 (List.mem_of_mem_filter hrow')
        have hid : ∀ p : Bool, (if p then leaseRow owner (leaseEnd now lease) row else row).id = row.id :=
          fun p => by cases p <;> rfl
        refine ⟨row, _, ?_, ?_, rfl⟩
        · show s.jobs.get? (if _ then leaseRow _ _ row else row).id = _
          rw [hid]
          exact Table.get?_eq_some hrow
        · split_ifs
          · exact ⟨_, _, _, _, _, rfl⟩
          · exact .refl row
    | job id =>
      cases h with
      | failed detail => exact hd.elim
      | served =>
        cases hs : s.jobs.get? id with
        | none =>
          have hj : s.job id = none := by rw [SqliteRepairStore.job, hs]; rfl
          simp only [SqliteRepairStore.answer, hj] at hd
          exact hd.elim
        | some row =>
          have hj : s.job id = some (readJob row) := by rw [SqliteRepairStore.job, hs]; rfl
          simp only [SqliteRepairStore.answer, hj] at hd
          cases hd
          have hid : row.id = id := (Table.get?_some hs).2
          exact ⟨row, row, by rw [show (readJob row).id = id from hid]; exact hs, .refl row, rfl⟩
    | unfinished =>
      cases h with
      | failed detail => exact hd.elim
      | served => exact hlist _ hd
    | parked =>
      cases h with
      | failed detail => exact hd.elim
      | served => exact hlist _ hd
    | _ => exact hd.elim
  | _ => exact hd.elim

/-- The store's answers are honest. -/
theorem SqliteRepairStore.Replies.honest {s s' : SqliteRepairStore} {now : Time} {c : Call}
    {r : Ans c} (h : s.Replies now c r s') : Honest c r := by
  cases c with
  | store c =>
    cases c with
    | claim owner lease limit =>
      cases h with
      | failed detail => trivial
      | served => exact LeaseWorld.nodup_claim _ _ _ _ _
    | job id =>
      cases h with
      | failed detail => trivial
      | served =>
        cases hs : s.jobs.get? id with
        | none =>
          have hj : s.job id = none := by rw [SqliteRepairStore.job, hs]; rfl
          simp only [SqliteRepairStore.answer, hj]
          trivial
        | some row =>
          have hj : s.job id = some (readJob row) := by rw [SqliteRepairStore.job, hs]; rfl
          simp only [SqliteRepairStore.answer, hj]
          exact (Table.get?_some hs).2
    | _ => trivial
  | _ => trivial

/-- A transition planned for a loaded copy, which is no progress. -/
theorem Desk.MayApply.of_plan {d : Desk} {job : RepairJob} {dst : RepairState}
    {reason : TransitionReason} {t : Transition} {u : TransitionUpdate} (hjob : job ∈ d.loaded)
    (ht : job.planTransition dst reason = .ok t) (hreason : reason ≠ .progress)
    (hu : u.patch.resumeApproved = none ∨ Approval t u) : d.MayApply job.id t u := by
  obtain ⟨-, hto, hr, -⟩ := validateTransition_ok ht
  have hno : t.reason ≠ .progress := by rw [hr]; exact hreason
  exact ⟨⟨job, hjob, rfl, by rw [hto, hr]; exact ht⟩, fun h => absurd h hno, fun h => absurd h hno,
    fun h => absurd h hno, hu⟩

/-! ## The steps keep the rules -/

section
variable {policies : SafetyPolicy → Prop} {deps : RepairDeps} {config : WorkerConfig}
  {job : RepairJob} {d : Desk} {summary : TickSummary}

/-- What a step may call. -/
def StepMay (policies : SafetyPolicy → Prop) (job : RepairJob) : Call → Prop
  | .client (.resume h) => job.infoHash = some h ∧ ∃ policy completeness, policies policy ∧
      decideResume completeness job.materialization policy job.resumeApproved = .resume
  | .client (.recheck h) => job.state = .injected ∧ job.infoHash = some h
  | c => StepCall c

theorem StepMay.of_gathers {c : Call} (h : Gathers c) : StepMay policies job c := by
  cases c with
  | client c => cases h
  | _ => exact h

theorem step_only (hpolicy : policies deps.policy) : (step deps job).Only (StepMay policies job) := by
  have hresume : ∀ h c, job.infoHash = some h →
      decideResume c job.materialization deps.policy job.resumeApproved = .resume →
        StepMay policies job (.client (.resume h)) :=
    fun h c hh hdecide => ⟨hh, _, c, hpolicy, hdecide⟩
  unfold step
  split
  · exact fetchTorrent_reads.mono fun _ h => .of_gathers (.of_reads h)
  · exact matchMedia_reads.mono fun _ h => .of_gathers (.of_reads h)
  · exact stageFiles_gathers.mono fun _ => .of_gathers
  · exact inject_only (fun _ h => .of_gathers (.of_reads h)) fun _ _ _ _ _ => trivial
  · rename_i hstate
    exact startRecheck_only trivial (fun _ _ => trivial) fun h hh => ⟨hstate, hh⟩
  · exact verify_only trivial fun _ _ => trivial
  · exact resume_only trivial trivial (fun _ _ => trivial) hresume
  · exact confirmWithTracker_only (fun _ h => .of_gathers (.of_reads h)) (fun _ _ => trivial) hresume
  all_goals trivial

/-- The calls of a step leave the copies as they are. -/
theorem obeys_of_stepMay {α : Type} {p : M α} (h : p.Only (StepMay policies job))
    (hheld : job ∈ d.held) (hcurrent : d.current = some job) :
    p.Obeys (conduct policies) d fun _ d' => d.SameJobs d' := by
  refine h.obeys (.refl d) fun c d₁ hc hsame => ?_
  obtain ⟨h₁, h₂, h₃⟩ := hsame
  cases c with
  | client c =>
    cases c with
    | resume h =>
      obtain ⟨hh, hdecide⟩ := hc
      refine ⟨⟨job, h₁ ▸ hheld, h₃.trans hcurrent, hh, hdecide⟩, fun r d₂ hn => ?_⟩
      obtain ⟨-, rfl⟩ := hn
      exact ⟨h₁, h₂, h₃⟩
    | recheck h =>
      refine ⟨⟨job, h₃.trans hcurrent, hc⟩, fun r d₂ hn => ?_⟩
      obtain ⟨-, rfl⟩ := hn
      cases r <;> exact ⟨h₁, h₂, h₃⟩
    | _ =>
      refine ⟨trivial, fun r d₂ hn => ?_⟩
      obtain ⟨-, rfl⟩ := hn
      exact ⟨h₁, h₂, h₃⟩
  | store c =>
    cases c with
    | torrentFile id =>
      refine ⟨trivial, fun r d₂ hn => ?_⟩
      obtain ⟨-, rfl⟩ := hn
      exact ⟨h₁, h₂, h₃⟩
    | plannedFiles id =>
      refine ⟨trivial, fun r d₂ hn => ?_⟩
      obtain ⟨-, rfl⟩ := hn
      exact ⟨h₁, h₂, h₃⟩
    | _ => cases hc
  | shuttingDown => cases hc
  | publish e => cases hc
  | notify e => cases hc
  | recordTick time => cases hc
  | enterStep job => cases hc
  | _ =>
    refine ⟨trivial, fun r d₂ hn => ?_⟩
    obtain ⟨-, rfl⟩ := hn
    exact ⟨h₁, h₂, h₃⟩

/-- A step that concluded with the next state. -/
def StepOutcome.Advances : StepOutcome → Prop
  | .advance .. => True
  | _ => False

theorem not_advances_clientRefused (e : ClientError) : ¬(clientRefused e).Advances := by
  cases e <;> exact id

theorem not_advances_stillChecking (status : TorrentStatus) (now : Time) :
    ¬(stillChecking deps job status now).Advances := by
  unfold stillChecking
  simp only
  split_ifs <;> exact id

/-- A recheck that was started was accepted. -/
theorem startRecheck_requests (hcurrent : d.current = some job) (hstate : job.state = .injected) :
    (startRecheck job).Obeys (conduct policies) d fun outcome d' =>
      outcome.Advances → d'.requested = true := by
  unfold startRecheck
  split
  · exact False.elim
  · rename_i h hh
    refine M.obeys_client trivial fun r d₁ hn => ?_
    obtain ⟨-, rfl⟩ := hn
    split
    · exact False.elim
    · exact fun h => absurd h (not_advances_clientRefused _)
    · refine M.obeys_client ⟨job, hcurrent, hstate, hh⟩ fun r d₂ hn => ?_
      obtain ⟨-, rfl⟩ := hn
      split
      · exact fun h => absurd h (not_advances_clientRefused _)
      · refine M.obeys_now trivial fun t d₃ hn => M.obeys_now trivial fun t' d₄ hn' => ?_
        obtain ⟨-, rfl⟩ := hn
        obtain ⟨-, rfl⟩ := hn'
        exact fun _ => rfl

/-- A status that is passed on is the one last seen. -/
theorem currentStatus_sees : (currentStatus deps job).Obeys (conduct policies) d fun r d' =>
    match r with
    | .error outcome => ¬outcome.Advances
    | .ok status => d'.seen = some status ∧ status.state ≠ .checking := by
  unfold currentStatus
  split
  · exact id
  · refine M.obeys_client trivial fun r d₁ hn => ?_
    obtain ⟨-, rfl⟩ := hn
    split
    · exact not_advances_clientRefused _
    · exact id
    · split
      · exact M.obeys_now trivial fun now d₂ _ => not_advances_stillChecking _ _
      · exact id
      · rename_i hchecking _
        exact ⟨rfl, hchecking⟩

/-- A job that is verified was seen complete by a client that is not checking it. -/
theorem verify_sees : (verify deps job).Obeys (conduct policies) d fun outcome d' =>
    outcome.Advances → d'.Settled := by
  refine currentStatus_sees.bind fun r d₁ hr => ?_
  cases r with
  | error outcome => exact fun h => absurd h hr
  | ok status =>
    obtain ⟨hseen, hchecking⟩ := hr
    show (verdict job status).Advances → d₁.Settled
    unfold verdict
    split
    · rename_i hdata
      exact fun _ => ⟨status, hseen, assessData_complete hdata, hchecking⟩
    · exact False.elim

/-- What is known when a step of a job has concluded. -/
structure Concluded (job : RepairJob) (d : Desk) (outcome : StepOutcome) : Prop where
  held : job ∈ d.held
  current : d.current = some job
  unapproving : Unapproving outcome
  requested : outcome.Advances → job.state = .injected → d.requested = true
  settled : outcome.Advances → job.state = .rechecking → d.Settled

/-- Every step keeps the rules. -/
theorem step_conducts (hpolicy : policies deps.policy) (hheld : job ∈ d.held)
    (hcurrent : d.current = some job) : (step deps job).Obeys (conduct policies) d
      fun outcome d' => d.SameJobs d' ∧ Concluded job d' outcome := by
  have hstep := (obeys_of_stepMay (step_only hpolicy) hheld hcurrent).and
    step_unapproving
  have hinjected : (step deps job).Obeys (conduct policies) d fun outcome d' =>
      outcome.Advances → job.state = .injected → d'.requested = true := by
    by_cases hstate : job.state = .injected
    · unfold step
      rw [hstate]
      exact (startRecheck_requests hcurrent hstate).mono fun _ _ h ha _ => h ha
    · exact hstep.mono fun _ _ _ _ h => absurd h hstate
  have hrechecking : (step deps job).Obeys (conduct policies) d fun outcome d' =>
      outcome.Advances → job.state = .rechecking → d'.Settled := by
    by_cases hstate : job.state = .rechecking
    · unfold step
      rw [hstate]
      exact verify_sees.mono fun _ _ h ha _ => h ha
    · exact hstep.mono fun _ _ _ _ h => absurd h hstate
  refine ((hstep.both hinjected).both hrechecking).mono fun outcome d' h => ?_
  obtain ⟨⟨⟨hsame, hu⟩, hrequested⟩, hsettled⟩ := h
  exact ⟨hsame, hsame.held ▸ hheld, hsame.current.trans hcurrent, hu, hrequested, hsettled⟩

end

end SeedMedic
