/-
  What a copy of a job is worth once others may have moved the job: operators' retries
  and reconciliation's corrections are planned from copies.
-/
import SeedMedic.Lib.Pool
import SeedMedic.Repair.Approval

namespace SeedMedic

open Lib Prog SqliteRepairStore

/-! ## Copies -/

/-- The copies a thread was last handed, and how long the audit trail was then. -/
structure Snapshot where
  copies : List RepairJob
  since : ℕ

/-- The copies after a call was answered. -/
def handed (copies : List RepairJob) : (c : Call) → Ans c → List RepairJob
  | .store (.job _), .ok (some job) => [job]
  | .store .parked, .ok jobs => jobs
  | _, _ => copies

/-- Whether an answer hands over copies. -/
def Hands : (c : Call) → Ans c → Prop
  | .store (.job _), .ok (some _) | .store .parked, .ok _ => True
  | _, _ => False

instance (c : Call) (r : Ans c) : Decidable (Hands c r) := by
  unfold Hands
  split <;> infer_instance

/-- The snapshot after a call was answered with a trail of that length. -/
def Snapshot.record (p : Snapshot) (c : Call) (r : Ans c) (trail : ℕ) : Snapshot :=
  ⟨handed p.copies c r, if Hands c r then trail else p.since⟩

/-- No row of a job was added to the trail since it had a length. -/
def Untouched (s : SqliteRepairStore) (since : ℕ) (id : JobId) : Prop :=
  ∀ row ∈ s.transitions.drop since, row.jobId ≠ id

/-- The row of a job says what a copy says of where the job stands. -/
def Agrees (s : SqliteRepairStore) (job : RepairJob) : Prop :=
  ∀ r, s.jobs.get? job.id = some r → r.state = job.state ∧ r.reviewFromState = job.reviewFromState ∧
    r.reviewReason = job.reviewReason

section
variable {s s' : SqliteRepairStore} {now : Time}

/-- A row is where it was unless the trail says otherwise. -/
theorem SqliteRepairStore.Wrote.untouched {c : StoreCall} (h : s.Wrote now c s') {k : JobId}
    {r' : JobRow} (hr' : s'.jobs.get? k = some r') (hquiet : Untouched s' s.transitions.length k) :
    ∃ r, s.jobs.get? k = some r ∧ r'.state = r.state ∧ r'.reviewFromState = r.reviewFromState ∧
      r'.reviewReason = r.reviewReason := by
  have hadded : ∀ row, s'.transitions = s.transitions ++ [row] → row.jobId ≠ k := by
    intro row htrail
    exact hquiet row (by simp [htrail])
  obtain ⟨r, hr, hchanged⟩ := h.changed hr'
  have hid : r.id = k := (Table.get?_some hr).2
  refine ⟨r, hr, ?_⟩
  cases hchanged with
  | @moved t u call left =>
    subst call
    cases h with
    | moved found left applied => exact absurd hid (hadded _ (apply_applied_transitions applied))
    | rescheduled trail rows =>
      obtain ⟨r₀, hr₀, _, _, _, _, _, heq⟩ := rows k _ hr'
      obtain rfl := Option.some.inj (hr.symm.trans hr₀)
      rw [heq]
      exact ⟨rfl, rfl, rfl⟩
  | patched call => exact ⟨rfl, rfl, rfl⟩
  | repointed call parked recorded =>
    subst call
    cases h with
    | repointed found parked recorded => exact absurd hid (hadded _ rfl)
    | rescheduled trail rows =>
      obtain ⟨r₀, hr₀, _, _, _, _, _, heq⟩ := rows k _ hr'
      obtain rfl := Option.some.inj (hr.symm.trans hr₀)
      rw [heq]
      exact ⟨rfl, rfl, rfl⟩
  | rescheduled hs =>
    obtain ⟨_, _, _, _, _, rfl⟩ := hs
    exact ⟨rfl, rfl, rfl⟩

/-- The trail only grows. -/
theorem SqliteRepairStore.Wrote.grows {c : StoreCall} (h : s.Wrote now c s') :
    s.transitions <+: s'.transitions := by
  cases h with
  | moved found left applied =>
    rw [apply_applied_transitions applied]
    exact List.prefix_append _ _
  | patched => exact List.prefix_rfl
  | repointed found parked recorded => exact List.prefix_append _ _
  | rescheduled trail rows => exact trail ▸ List.prefix_rfl

/-- What was untouched in a longer trail was so before. -/
theorem Untouched.shorter {since : ℕ} {id : JobId} (h : Untouched s' since id)
    (hgrows : s.transitions <+: s'.transitions) : Untouched s since id := by
  obtain ⟨added, hadded⟩ := hgrows
  intro row hrow
  refine h row ?_
  rw [← hadded, List.drop_append]
  exact List.mem_append_left _ hrow

theorem Untouched.later {since since' : ℕ} {id : JobId} (h : Untouched s since id)
    (hle : since ≤ since') : Untouched s since' id := by
  intro row hrow
  refine h row ?_
  obtain ⟨k, rfl⟩ := Nat.exists_eq_add_of_le hle
  rw [← List.drop_drop] at hrow
  exact List.mem_of_mem_drop hrow

/-- A copy that was true when the trail had a length is true while its job is untouched. -/
def TrueSince (s : SqliteRepairStore) (since : ℕ) (job : RepairJob) : Prop :=
  since ≤ s.transitions.length ∧ (Untouched s since job.id → Agrees s job)

theorem TrueSince.wrote {c : StoreCall} {since : ℕ} {job : RepairJob} (h : TrueSince s since job)
    (hw : s.Wrote now c s') : TrueSince s' since job := by
  have hgrows := hw.grows
  refine ⟨h.1.trans hgrows.length_le, fun hquiet r' hr' => ?_⟩
  obtain ⟨r, hr, hstate, hfrom, hreason⟩ := hw.untouched hr' (hquiet.later h.1)
  obtain ⟨h₁, h₂, h₃⟩ := h.2 (hquiet.shorter hgrows) r hr
  exact ⟨hstate.trans h₁, hfrom.trans h₂, hreason.trans h₃⟩

/-- What is discovered is no copy of a job that was there. -/
theorem TrueSince.discover {since : ℕ} {job : RepairJob} (h : TrueSince s since job)
    {hr : HitAndRun} {d : Discovered} (hok : s.recordDiscovery now hr = .ok (d, s')) :
    TrueSince s' since job := by
  rcases recordDiscovery_cases hok with rfl | ⟨id, row, -, htrail, ⟨detail, rfl⟩, hrows⟩
  · exact h
  · refine ⟨h.1.trans (by simp [htrail]), fun hquiet r' hr' => ?_⟩
    have hne : id ≠ job.id := by
      refine hquiet ⟨id, .discovered, .discovered, "discovered", detail, timestamp now⟩ ?_
      rw [htrail, List.drop_append]
      refine List.mem_append_right _ ?_
      rw [Nat.sub_eq_zero_of_le h.1]
      exact List.mem_singleton_self _
    rw [hrows, if_neg hne] at hr'
    exact h.2 (hquiet.shorter (htrail ▸ List.prefix_append _ _)) r' hr'

/-- A copy is true when it is handed over. -/
theorem Shows.trueSince {c : Call} {r : Ans c} {job : RepairJob} (h : s.Replies now c r s')
    (hs : Shows c r job) : TrueSince s s.transitions.length job := by
  refine ⟨le_rfl, fun _ r₀ hr₀ => ?_⟩
  obtain ⟨row, row', hrow, ⟨_, _, _, _, _, rfl⟩, rfl⟩ := h.shows hs
  obtain rfl := Option.some.inj (hrow.symm.trans hr₀)
  exact ⟨rfl, rfl, rfl⟩

end

/-! ## What is planned from copies -/

/-- A retry is planned from a copy, an approval from one parked for it, and a resume point is
    moved back from where a copy has it. -/
def watch : Rules Call Ans (List RepairJob) where
  may
    | .store (.apply id t u), copies =>
      t.reason = .operatorRetry ∨ u.patch.resumeApproved = some true → ∃ job ∈ copies,
        job.id = id ∧ t.reason = .operatorRetry ∧
          job.planTransition t.toState .operatorRetry = .ok t ∧
          (u.patch.resumeApproved = some true → job.reviewReason = some .autoResumeDisabled)
    | .store (.setReviewResumePoint id state), copies => ∃ job ∈ copies, job.id = id ∧
        ∃ starting, job.reviewFromState = some starting ∧ reconcileRank state ≤ reconcileRank starting
    | _, _ => True
  next c r copies copies' := copies' = handed copies c r

/-- A call that neither retries nor corrects. -/
def Plain : Call → Prop
  | .store (.apply _ t u) => t.reason ≠ .operatorRetry ∧ u.patch.resumeApproved = none
  | .store (.setReviewResumePoint ..) => False
  | _ => True

theorem Plain.permitted {c : Call} {copies : List RepairJob} (h : Plain c) : watch.may c copies := by
  cases c with
  | store c =>
    cases c with
    | apply id t u =>
      rintro (hretry | happroves)
      · exact absurd hretry h.1
      · rw [h.2] at happroves
        cases happroves
    | setReviewResumePoint id state => exact h.elim
    | _ => trivial
  | _ => trivial

theorem obeys_of_plain {α : Type} {p : M α} {copies : List RepairJob} (h : p.Only Plain) :
    p.Obeys watch copies fun _ _ => True :=
  h.obeys (I := fun _ => True) trivial fun _ _ hc _ => ⟨hc.permitted, fun _ _ _ => trivial⟩

section
variable {deps : RepairDeps} {config : WorkerConfig} {job : RepairJob} {copies : List RepairJob}

/-- A worker never retries. -/
theorem driveRound_plain {summary : TickSummary} :
    (driveRound deps config job summary).Obeys watch copies fun _ _ => True := by
  refine M.obeys_enterStep trivial fun l _ => ?_
  have hstep : (step deps job).Only Plain := step_stepCalls.mono fun c hc => by
    cases c with
    | store c =>
      cases c with
      | apply id t u => cases hc
      | setReviewResumePoint id state => cases hc
      | _ => trivial
    | _ => trivial
  refine ((obeys_of_plain hstep).and step_unapproving).bind fun outcome l' ho => ?_
  refine obeys_of_plain (settle_only (fun t u _ hreason hpatch => ⟨?_, ?_⟩) trivial trivial trivial
    trivial (fun _ => trivial) fun _ => trivial)
  · rcases hreason with hr | ⟨r, hr⟩ | hr <;> simp [hr]
  · rcases hpatch with hp | hp
    · rw [hp]
      exact ho.2
    · rw [hp]
      rfl

theorem tick_watched : (tick deps config).Obeys watch copies fun _ _ => True := by
  have h : WorkerRules watch deps config (fun _ _ => True) fun _ _ => True :=
    { idle := fun c l hc => by
        refine ⟨Plain.permitted ?_, fun _ _ _ _ _ => trivial⟩
        cases c <;> trivial
      claim := fun l => ⟨trivial, fun _ _ _ => ⟨List.pairwise_of_forall fun _ _ => trivial,
        fun _ _ => trivial⟩⟩
      release := fun l job stop count => ⟨trivial, fun _ _ _ _ _ _ => trivial⟩
      round := fun l job summary _ => driveRound_plain.mono fun r l' _ =>
        ⟨fun _ _ _ => trivial, fun next _ => ⟨trivial, fun _ _ => trivial⟩⟩ }
  exact h.tick copies

/-- Looking at reality hands over no copies. -/
theorem realityBackedTarget_watched {starting : RepairState} :
    (realityBackedTarget job starting).Obeys watch copies fun target copies' =>
      copies' = copies ∧ reconcileRank target ≤ reconcileRank starting := by
  refine (realityBackedTarget_asks.obeys (I := fun l => l = copies) rfl fun c l hc hl => ?_).and
    realityBackedTarget_backwards
  subst hl
  cases c with
  | store c =>
    cases c with
    | plannedFiles id => exact ⟨trivial, fun r l' hn => hn⟩
    | _ => cases hc
  | client c => exact ⟨trivial, fun r l' hn => hn⟩
  | staging c => exact ⟨trivial, fun r l' hn => hn⟩
  | _ => cases hc

theorem reconcileActionableJob_plain : (reconcileActionableJob job).Only Plain := by
  have hasks : (realityBackedTarget job job.state).Only Plain :=
    realityBackedTarget_asks.mono fun c hc => by
      cases c with
      | store c => cases c <;> trivial
      | _ => trivial
  refine hasks.bind fun target => ?_
  split_ifs
  · trivial
  · split
    · trivial
    · rename_i t ht
      have hreason : t.reason = .reconciliation := (validateTransition_ok ht).2.2.1
      refine M.only_store ⟨by simp [hreason], rfl⟩ fun r => ?_
      split <;> trivial

/-- A resume point is only moved back from where the copy has it. -/
theorem reconcileParkedJob_watched (hjob : job ∈ copies) :
    (reconcileParkedJob job).Obeys watch copies fun _ copies' => copies' = copies := by
  unfold reconcileParkedJob
  split
  · rfl
  · rename_i starting hstarting
    refine realityBackedTarget_watched.bind fun target l hl => ?_
    obtain ⟨rfl, hle⟩ := hl
    split_ifs
    · rfl
    · refine M.obeys_store ⟨job, hjob, rfl, starting, hstarting, hle⟩ fun r l' hn => ?_
      split <;> exact hn

theorem countParked_watched (all : List RepairJob) : ∀ jobs ⊆ all,
    (countMoved reconcileParkedJob jobs).Obeys watch all fun _ copies' => copies' = all
  | [], _ => rfl
  | job :: jobs, hsub => by
    rw [List.cons_subset] at hsub
    refine (reconcileParkedJob_watched hsub.1).bind fun moved l hl => ?_
    subst hl
    exact (countParked_watched _ jobs hsub.2).bind fun _ l hl => hl

theorem reconcileOnStartup_watched (owner : String) :
    (reconcileOnStartup owner).Obeys watch copies fun _ _ => True := by
  have hafter : ∀ cleared l, (reconcileAfter cleared).Obeys watch l fun _ _ => True := by
    intro cleared l
    refine M.obeys_store trivial fun r l₁ hn => ?_
    split
    · trivial
    · rename_i jobs
      refine (obeys_of_plain (countMoved_only (fun _ => reconcileActionableJob_plain) jobs)).bind
        fun rewound l₂ _ => ?_
      have hparked : listParked.Obeys watch l₂ fun parked l' => parked = [] ∨ l' = parked := by
        refine M.obeys_store trivial fun r l₃ hn => ?_
        split
        · exact .inr hn
        · exact .inl rfl
      refine hparked.bind fun parked l₃ hl₃ => ?_
      have hcount : (countMoved reconcileParkedJob parked).Obeys watch l₃ fun _ _ => True := by
        rcases hl₃ with rfl | rfl
        · trivial
        · exact (countParked_watched _ _ (List.Subset.refl _)).mono fun _ _ _ => trivial
      refine hcount.bind fun corrected l₄ _ => ?_
      exact M.obeys_now trivial fun now l₅ _ => M.obeys_publish trivial fun l₆ _ => trivial
  refine M.obeys_store trivial fun r l _ => ?_
  split <;> exact hafter _ _

/-- A retry is planned for the copy just loaded. -/
theorem applyAction_watched {target : RepairState} {u : TransitionUpdate} (hjob : job ∈ copies)
    (hu : u.patch.resumeApproved = some true → job.reviewReason = some .autoResumeDisabled) :
    (applyAction job target .operatorRetry u).Obeys watch copies fun _ _ => True := by
  unfold applyAction
  split
  · trivial
  · rename_i t ht
    obtain ⟨-, hto, hreason, -⟩ := validateTransition_ok ht
    refine M.obeys_store (fun _ => ⟨job, hjob, rfl, hreason, by rw [hto]; exact ht, hu⟩)
      fun r l _ => ?_
    split
    · trivial
    · exact M.obeys_publish trivial fun _ _ => trivial

theorem withJob_watched {id : JobId} {action : RepairJob → M (Except WebError Unit)}
    (h : ∀ job, (action job).Obeys watch [job] fun _ _ => True) :
    (withJob id action).Obeys watch copies fun _ _ => True := by
  refine M.obeys_store trivial fun r l hn => ?_
  split
  · trivial
  · trivial
  · rename_i job
    have hl : l = [job] := hn
    rw [hl]
    exact h job

theorem allows_plain : AllowsOperators Plain where
  job _ := trivial
  history _ := trivial
  plannedFiles _ := trivial
  recordProgress _ _ := trivial
  apply _ t u hr hu := by
    obtain ⟨dir, files, hu, -⟩ := hu
    exact ⟨by rcases hr with hr | hr | hr <;> simp [hr], by rw [hu]; rfl⟩
  remove _ := trivial
  discard _ := trivial
  publish _ := trivial
  panic := trivial

/-- Operators retry only what they have just loaded. -/
theorem OperatorProgram.watched {id : JobId} {p : M Unit} (h : OperatorProgram id p) :
    p.Obeys watch copies fun _ _ => True := by
  cases h with
  | retry =>
    refine Obeys.bind (withJob_watched fun job => ?_) fun _ _ _ => trivial
    split
    · trivial
    · exact applyAction_watched (List.mem_singleton_self _) (by nofun)
  | approveResume =>
    refine Obeys.bind (withJob_watched fun job => ?_) fun _ _ _ => trivial
    split
    · trivial
    · split_ifs with hreason
      · trivial
      · exact applyAction_watched (List.mem_singleton_self _) fun _ => not_not.1 hreason
  | chooseCandidate path index =>
    exact (obeys_of_plain (chooseCandidateAction_only allows_plain.toAllowsReviews)).bind fun _ _ _ => trivial
  | abandon =>
    exact (obeys_of_plain (abandonAction_only allows_plain.toAllowsReviews)).bind fun _ _ _ => trivial
  | abandonAndDiscard =>
    exact (obeys_of_plain (withJob_only trivial fun _ =>
      discardThen_only allows_plain (.inl rfl) (planOnly_default _))).bind fun _ _ _ => trivial
  | restart =>
    exact (obeys_of_plain (withJob_only trivial fun _ =>
      discardThen_only allows_plain (.inr rfl) (planOnly_default _))).bind fun _ _ _ => trivial

theorem AnyProgram.watched {p : M Unit} (h : AnyProgram p) : p.Obeys watch copies fun _ _ => True := by
  cases h with
  | tick deps config => exact tick_watched.bind fun _ _ _ => trivial
  | reconcile owner => exact (reconcileOnStartup_watched owner).bind fun _ _ _ => trivial
  | operator h => exact h.watched

end

/-! ## Every run -/

/-- The store, the clock, and the copies each thread was last handed. -/
structure Watched (ι : Type) where
  store : SqliteRepairStore
  now : Time
  snapshots : ι → Snapshot

namespace Watched

variable {ι : Type}

/-- A world in which nothing was handed over yet. -/
def opening (s : SqliteRepairStore) (now : Time) : Watched ι := ⟨s, now, fun _ => ⟨[], 0⟩⟩

/-- The copies of every thread are true as far as the trail says nothing else. -/
def Truthful (w : Watched ι) : Prop :=
  ∀ i, ∀ job ∈ (w.snapshots i).copies, TrueSince w.store (w.snapshots i).since job

theorem truthful_opening (s : SqliteRepairStore) (now : Time) :
    (opening s now : Watched ι).Truthful := fun _ _ h => by cases h

variable [DecidableEq ι]

/-- The world after a call of a thread was answered. -/
def after (w : Watched ι) (i : ι) (c : Call) (r : Ans c) (s : SqliteRepairStore) : Watched ι :=
  { w with
    store := s
    snapshots := Function.update w.snapshots i
      ((w.snapshots i).record c r w.store.transitions.length) }

end Watched

/-- Workers, reconciliations and operators side by side, on one store that may fail. -/
def watched (ι : Type) [DecidableEq ι] : System ι Call Ans (Watched ι) where
  answers i c w r w' := ∃ s, w.store.Replies w.now c r s ∧ w' = w.after i c r s
  moves w w' := ∃ now s, w.now ≤ now ∧
    (s = w.store ∨ ∃ h d, w.store.recordDiscovery w.now h = .ok (d, s)) ∧
      w' = { w with store := s, now }
  starts _ := AnyProgram

section
variable {ι : Type} [DecidableEq ι]

/-- A copy at hand was so before the call, or is shown by its answer. -/
theorem handed_cases {copies : List RepairJob} {c : Call} {r : Ans c} {job : RepairJob}
    (h : job ∈ handed copies c r) : (¬Hands c r ∧ job ∈ copies) ∨ (Hands c r ∧ Shows c r job) := by
  unfold handed at h
  split at h
  · exact .inr ⟨trivial, List.mem_singleton.1 h⟩
  · exact .inr ⟨trivial, h⟩
  · rename_i hjob hparked
    refine .inl ⟨fun hands => ?_, h⟩
    unfold Hands at hands
    split at hands
    · exact hjob _ _ rfl HEq.rfl
    · exact hparked _ rfl HEq.rfl
    · exact hands

/-- Every run keeps the copies true. -/
theorem watched_sound (ι : Type) [DecidableEq ι] : (watched ι).Sound (fun _ => watch)
    Watched.Truthful fun i copies w => copies = (w.snapshots i).copies where
  start := fun i p w _ hp => ⟨_, rfl, hp.watched⟩
  call := by
    rintro i c w r w' copies htrue rfl - ⟨s, hs, rfl⟩
    have hkeep : ∀ {since job}, TrueSince w.store since job → TrueSince s since job := by
      intro since job h
      rcases hs.wrote with ⟨c', rfl, hw⟩ | rfl
      · exact h.wrote hw
      · exact h
    refine ⟨fun j job hjob => ?_, ⟨_, rfl, by simp [Watched.after, Snapshot.record]⟩,
      fun j hj m hm => ?_⟩
    · by_cases hj : j = i
      · subst hj
        simp only [Watched.after, Function.update_self, Snapshot.record] at hjob ⊢
        rcases handed_cases hjob with ⟨hno, hold⟩ | ⟨hyes, hnew⟩
        · rw [if_neg hno]
          exact hkeep (htrue j job hold)
        · rw [if_pos hyes]
          exact hkeep (hnew.trueSince hs)
      · simp only [Watched.after, Function.update_of_ne hj] at hjob ⊢
        exact hkeep (htrue j job hjob)
    · simp only [Watched.after, Function.update_of_ne hj]
      exact hm
  move := by
    rintro w w' htrue ⟨now, s, -, rfl | ⟨h, d, hok⟩, rfl⟩
    · exact ⟨htrue, fun _ _ hm => hm⟩
    · exact ⟨fun j job hjob => (htrue j job hjob).discover hok, fun _ _ hm => hm⟩

/-- In every run, a retry that is committed with no row of the job written to the trail since the
    operator's copy was loaded leads to the resume point of the row, and an approval to a row
    parked for it. -/
theorem retry_resumes_recorded {s₀ : SqliteRepairStore} {now : Time}
    {s : Lib.Config ι Call Ans (Watched ι)} {i : ι} {id : JobId} {t : Transition} {u : TransitionUpdate}
    {k : Ans (.store (.apply id t u)) → M Unit} {s' : SqliteRepairStore}
    (hreach : (watched ι).Reach (.opening s₀ now) s)
    (happly : s.threads i = some (.call (.store (.apply id t u)) k))
    (hcommit : s.world.store.apply s.world.now id t u = .ok (.applied, s'))
    (hquiet : Untouched s.world.store (s.world.snapshots i).since id) :
    ∃ r, s.world.store.jobs.get? id = some r ∧
      (t.reason = .operatorRetry → r.reviewFromState = some t.toState) ∧
      (u.patch.resumeApproved = some true → r.reviewReason = some .autoResumeDisabled) := by
  obtain ⟨htrue, copies, rfl, hmay⟩ :=
    (watched_sound ι).permitted (Watched.truthful_opening s₀ now) hreach happly
  obtain ⟨r, hr, -⟩ := apply_ok hcommit
  have hcopy : t.reason = .operatorRetry ∨ u.patch.resumeApproved = some true →
      r.reviewFromState = some t.toState ∧
        (u.patch.resumeApproved = some true → r.reviewReason = some .autoResumeDisabled) := by
    intro h
    obtain ⟨job, hjob, rfl, -, ht, happroves⟩ := hmay h
    obtain ⟨-, hfrom, hreason⟩ := (htrue i job hjob).2 hquiet r hr
    exact ⟨hfrom.trans (RepairJob.retry_ok ht).2.1, fun ha => hreason.trans (happroves ha)⟩
  exact ⟨r, hr, fun h => (hcopy (.inl h)).1, fun h => (hcopy (.inr h)).2 h⟩

/-- In every run, a resume point that is moved with no row of the job written to the trail since
    the parked jobs were listed is moved back. -/
theorem resume_point_moved_back {s₀ : SqliteRepairStore} {now : Time}
    {s : Lib.Config ι Call Ans (Watched ι)} {i : ι} {id : JobId} {state previous : RepairState}
    {k : Ans (.store (.setReviewResumePoint id state)) → M Unit} {r : JobRow}
    (hreach : (watched ι).Reach (.opening s₀ now) s)
    (hmove : s.threads i = some (.call (.store (.setReviewResumePoint id state)) k))
    (hr : s.world.store.jobs.get? id = some r) (hfrom : r.reviewFromState = some previous)
    (hquiet : Untouched s.world.store (s.world.snapshots i).since id) :
    reconcileRank state ≤ reconcileRank previous := by
  obtain ⟨htrue, copies, rfl, hmay⟩ :=
    (watched_sound ι).permitted (Watched.truthful_opening s₀ now) hreach hmove
  obtain ⟨job, hjob, rfl, starting, hstarting, hle⟩ := hmay
  obtain ⟨-, hcopy, -⟩ := (htrue i job hjob).2 hquiet r hr
  have hsame : some previous = some starting := hfrom.symm.trans (hcopy.trans hstarting)
  rw [Option.some.inj hsame]
  exact hle

end

/-! ## A job parked anew behind an action's back -/

/-- Answers of a client that has lost every torrent. -/
def lostReply : (c : Call) → Watched (Fin 3) → Option (Ans c × SqliteRepairStore)
  | .store c, w => some (w.store.answer w.now c)
  | .now, w => some (w.now, w.store)
  | .client (.status _), w => some (.ok none, w.store)
  | .client (.remove ..), w => some (.ok (), w.store)
  | .staging (.discard _), w => some (.ok (), w.store)
  | .shuttingDown, w => some (false, w.store)
  | .publish _, w | .notify _, w | .recordTick _, w | .enterStep _, w => some ((), w.store)
  | _, _ => none

theorem lostReply_replies {c : Call} {w : Watched (Fin 3)} {r : Ans c × SqliteRepairStore}
    (h : lostReply c w = some r) : w.store.Replies w.now c r.1 r.2 := by
  cases c with
  | store c => cases h; exact .served
  | now => cases h; exact ⟨rfl, rfl⟩
  | client c => cases c <;> cases h <;> rfl
  | staging c =>
    cases c with
    | discard dir => cases h; rfl
    | _ => cases h
  | tracker c => cases h
  | library c => cases h
  | panic => cases h
  | _ => cases h; rfl

/-- A call of a thread with its answer. -/
def served (i : Fin 3) (c : Call) (w : Watched (Fin 3)) : Option (Ans c × Watched (Fin 3)) :=
  (lostReply c w).map fun r => (r.1, w.after i c r.1 r.2)

theorem served_answers {i : Fin 3} (c : Call) (w : Watched (Fin 3)) (r : Ans c × Watched (Fin 3))
    (h : served i c w = some r) : ∃ w', Relation.ReflTransGen (watched (Fin 3)).moves w w' ∧
      (watched (Fin 3)).answers i c w' r.1 r.2 := by
  obtain ⟨a, ha, rfl⟩ := Option.map_eq_some_iff.1 h
  exact ⟨w, .refl, _, lostReply_replies ha, rfl⟩

/-- Take `n` calls of a program in a thread. -/
def servedFor (i : Fin 3) (n : ℕ) (p : M Unit) (w : Watched (Fin 3)) : M Unit × Watched (Fin 3) :=
  System.drive (served i) n p w

def approveFirst : M Unit := approveResumeAction ⟨1⟩ >>= fun _ => pure ()

def restartFirst : M Unit := restartAction ⟨1⟩ >>= fun _ => pure ()

def reconcileFirst : M Unit := reconcileOnStartup "a" >>= fun _ => pure ()

/-- The world once thread 0 has made its first calls, an operator has then restarted the job, and
    a worker has parked it again. -/
def parkedAnew (n : ℕ) (p : M Unit) : Watched (Fin 3) :=
  (servedFor 2 40 approvalTick (servedFor 1 40 restartFirst
    (servedFor 0 n p (.opening heldStore 0)).2).2).2

/-- Such a run. -/
theorem parkedAnew_reach {p : M Unit} (hp : AnyProgram p) (n : ℕ) :
    ∃ s, (watched (Fin 3)).Reach (.opening heldStore 0) s ∧
      s.threads 0 = some (servedFor 0 n p (.opening heldStore 0)).1 ∧ s.world = parkedAnew n p := by
  obtain ⟨s₁, hs₁, hi₁, hw₁, ho₁⟩ := System.reach_next (S := watched (Fin 3)) (i := 0) .refl rfl hp
    served_answers n
  obtain ⟨s₂, hs₂, -, hw₂, ho₂⟩ := System.reach_next hs₁ (i := 1) (ho₁ 1 (by decide))
    (.operator .restart) served_answers 40
  obtain ⟨s₃, hs₃, -, hw₃, ho₃⟩ := System.reach_next hs₂ (i := 2)
    ((ho₂ 2 (by decide)).trans (ho₁ 2 (by decide))) (.tick anyDeps ⟨"a", .fromSecs 60, 4⟩)
    served_answers 40
  refine ⟨s₃, hs₃, ((ho₃ 0 (by decide)).trans (ho₂ 0 (by decide))).trans hi₁, ?_⟩
  rw [hw₃, hw₂, hw₁]
  rfl

/-- The transition a program is about to have applied. -/
def applies : M Unit → Option (JobId × Transition × TransitionUpdate)
  | .call (.store (.apply id t u)) _ => some (id, t, u)
  | _ => none

theorem applies_some {p : M Unit} {x : JobId × Transition × TransitionUpdate}
    (h : applies p = some x) : ∃ k, p = .call (.store (.apply x.1 x.2.1 x.2.2)) k := by
  unfold applies at h
  split at h
  · cases h
    exact ⟨_, rfl⟩
  · cases h

/-- Whether a transition is committed. -/
def commits (s : SqliteRepairStore) (x : JobId × Transition × TransitionUpdate) : Bool :=
  match s.apply 0 x.1 x.2.1 x.2.2 with
  | .ok (.applied, _) => true
  | _ => false

theorem commits_iff {s : SqliteRepairStore} {x : JobId × Transition × TransitionUpdate}
    (h : commits s x = true) : ∃ s', s.apply 0 x.1 x.2.1 x.2.2 = .ok (.applied, s') := by
  unfold commits at h
  split at h
  · rename_i s' hs
    exact ⟨s', hs⟩
  · cases h

/-- An operator approves the resume of a job that was restarted and parked for another reason
    since it was loaded: the job goes on from where it was, approved. -/
theorem approval_of_other_parking : ∃ s id t u k s' r,
    (watched (Fin 3)).Reach (.opening heldStore 0) s ∧
    s.threads 0 = some (.call (.store (.apply id t u)) k) ∧
    s.world.store.apply s.world.now id t u = .ok (.applied, s') ∧
    s.world.store.jobs.get? id = some r ∧
    t.reason = .operatorRetry ∧ r.reviewFromState ≠ some t.toState ∧
    u.patch.resumeApproved = some true ∧ r.reviewReason ≠ some .autoResumeDisabled := by
  obtain ⟨s, hs, hthread, hworld⟩ := parkedAnew_reach (p := approveFirst) (.operator .approveResume) 1
  obtain ⟨x, hx, hfields⟩ : ∃ x,
      applies (servedFor 0 1 approveFirst (.opening heldStore 0)).1 = some x ∧
      (x.1, x.2.1.reason, x.2.1.toState, x.2.2.patch.resumeApproved,
        commits (parkedAnew 1 approveFirst).store x) =
          (⟨1⟩, .operatorRetry, .verified, some true, true) :=
    Option.map_eq_some_iff.1 (by decide +kernel)
  obtain ⟨r, hr, hrow⟩ : ∃ r, (parkedAnew 1 approveFirst).store.jobs.get? ⟨1⟩ = some r ∧
      (r.reviewFromState, r.reviewReason) = (some .discovered, some .trackerStatusUnclear) :=
    Option.map_eq_some_iff.1 (by decide +kernel)
  simp only [Prod.mk.injEq] at hfields hrow
  obtain ⟨hid, hreason, hto, happroves, hcommits⟩ := hfields
  obtain ⟨s', hs'⟩ := commits_iff hcommits
  obtain ⟨k, hk⟩ := applies_some hx
  have hnow : (parkedAnew 1 approveFirst).now = 0 := by decide +kernel
  refine ⟨s, x.1, x.2.1, x.2.2, k, s', r, hs, hthread.trans (congrArg some hk), ?_, ?_, hreason,
    ?_, happroves, ?_⟩
  · rw [hworld, hnow]
    exact hs'
  · rw [hworld, hid]
    exact hr
  · rw [hrow.1, hto]
    decide
  · rw [hrow.2]
    decide

/-- A thread on its own. -/
theorem alone_reach {p : M Unit} (hp : AnyProgram p) (n : ℕ) :
    ∃ s, (watched (Fin 3)).Reach (.opening heldStore 0) s ∧
      s.threads 0 = some (servedFor 0 n p (.opening heldStore 0)).1 ∧
      s.world = (servedFor 0 n p (.opening heldStore 0)).2 :=
  System.reach_alone (watched (Fin 3)) (.opening heldStore 0) 0 hp served_answers n

/-- Whether the trail says nothing of the first job since thread 0 was handed its copies. -/
def unmoved (w : Watched (Fin 3)) : Bool :=
  (w.store.transitions.drop (w.snapshots 0).since).all fun row => row.jobId ≠ ⟨1⟩

theorem untouched_of_unmoved {w : Watched (Fin 3)} (h : unmoved w = true) :
    Untouched w.store (w.snapshots 0).since ⟨1⟩ := by
  simpa [unmoved, Untouched, List.all_eq_true] using h

/-- An approval with nobody else about. -/
theorem approval_of_loaded : ∃ s id t u k r, (watched (Fin 3)).Reach (.opening heldStore 0) s ∧
    s.threads 0 = some (.call (.store (.apply id t u)) k) ∧ t.reason = .operatorRetry ∧
    s.world.store.jobs.get? id = some r ∧ r.reviewFromState = some t.toState ∧
    u.patch.resumeApproved = some true ∧ r.reviewReason = some .autoResumeDisabled := by
  obtain ⟨s, hs, hthread, hworld⟩ := alone_reach (p := approveFirst) (.operator .approveResume) 1
  obtain ⟨x, hx, hfields⟩ : ∃ x,
      applies (servedFor 0 1 approveFirst (.opening heldStore 0)).1 = some x ∧
      (x.1, x.2.1.reason, x.2.2.patch.resumeApproved,
        commits (servedFor 0 1 approveFirst (.opening heldStore 0)).2.store x) =
          (⟨1⟩, .operatorRetry, some true, true) :=
    Option.map_eq_some_iff.1 (by decide +kernel)
  simp only [Prod.mk.injEq] at hfields
  obtain ⟨hid, hreason, happroves, hcommits⟩ := hfields
  obtain ⟨s', hs'⟩ := commits_iff hcommits
  obtain ⟨k, hk⟩ := applies_some hx
  have hnow : (servedFor 0 1 approveFirst (.opening heldStore 0)).2.now = 0 := by decide +kernel
  have happly := hthread.trans (congrArg some hk)
  have hquiet : Untouched s.world.store (s.world.snapshots 0).since x.1 := by
    rw [hworld, hid]
    exact untouched_of_unmoved (by decide +kernel)
  have hcommit : s.world.store.apply s.world.now x.1 x.2.1 x.2.2 = .ok (.applied, s') := by
    rw [hworld, hnow]
    exact hs'
  obtain ⟨r, hr, hfrom, hparked⟩ := retry_resumes_recorded hs happly hcommit hquiet
  exact ⟨s, x.1, x.2.1, x.2.2, k, r, hs, happly, hreason, hr, hfrom hreason, happroves,
    hparked happroves⟩

/-- The resume point a program is about to set. -/
def repoints : M Unit → Option (JobId × RepairState)
  | .call (.store (.setReviewResumePoint id state)) _ => some (id, state)
  | _ => none

theorem repoints_some {p : M Unit} {id : JobId} {state : RepairState}
    (h : repoints p = some (id, state)) :
    ∃ k, p = .call (.store (.setReviewResumePoint id state)) k := by
  unfold repoints at h
  split at h
  · cases h
    exact ⟨_, rfl⟩
  · cases h

/-- Where the first job resumes after a statement, if that went through. -/
def resumePoint : Except StoreError SqliteRepairStore → Option (Option RepairState)
  | .ok s => (s.jobs.get? ⟨1⟩).map JobRow.reviewFromState
  | .error _ => none

/-- A reconciliation that lists a job before it is restarted and parked again moves its resume
    point forward. -/
theorem resume_point_moved_forward : ∃ s k r s', (watched (Fin 3)).Reach (.opening heldStore 0) s ∧
    s.threads 0 = some (.call (.store (.setReviewResumePoint ⟨1⟩ .staged)) k) ∧
    s.world.store.jobs.get? ⟨1⟩ = some r ∧ r.reviewFromState = some .discovered ∧
    s.world.store.setReviewResumePoint s.world.now ⟨1⟩ .staged = .ok s' ∧
    (s'.jobs.get? ⟨1⟩).map JobRow.reviewFromState = some (some .staged) ∧
    reconcileRank .discovered < reconcileRank .staged := by
  obtain ⟨s, hs, hthread, hworld⟩ := parkedAnew_reach (p := reconcileFirst) (.reconcile "a") 5
  obtain ⟨k, hk⟩ := repoints_some (by decide +kernel :
    repoints (servedFor 0 5 reconcileFirst (.opening heldStore 0)).1 = some (⟨1⟩, .staged))
  obtain ⟨r, hr, hfrom⟩ : ∃ r, (parkedAnew 5 reconcileFirst).store.jobs.get? ⟨1⟩ = some r ∧
      r.reviewFromState = some .discovered :=
    Option.map_eq_some_iff.1 (by decide +kernel)
  have hmoved : resumePoint ((parkedAnew 5 reconcileFirst).store.setReviewResumePoint
      (parkedAnew 5 reconcileFirst).now ⟨1⟩ .staged) = some (some .staged) := by decide +kernel
  unfold resumePoint at hmoved
  split at hmoved
  · rename_i s' hs'
    refine ⟨s, k, r, s', hs, hthread.trans (congrArg some hk), ?_, hfrom, ?_, hmoved, by decide⟩
    · rw [hworld]
      exact hr
    · rw [hworld]
      exact hs'
  · cases hmoved

/-- A reconciliation with nobody else about. -/
theorem resume_point_of_listed : ∃ s k r, (watched (Fin 3)).Reach (.opening heldStore 0) s ∧
    s.threads 0 = some (.call (.store (.setReviewResumePoint ⟨1⟩ .staged)) k) ∧
    s.world.store.jobs.get? ⟨1⟩ = some r ∧ r.reviewFromState = some .verified ∧
    reconcileRank .staged ≤ reconcileRank .verified := by
  obtain ⟨s, hs, hthread, hworld⟩ := alone_reach (p := reconcileFirst) (.reconcile "a") 5
  obtain ⟨k, hk⟩ := repoints_some (by decide +kernel :
    repoints (servedFor 0 5 reconcileFirst (.opening heldStore 0)).1 = some (⟨1⟩, .staged))
  obtain ⟨r, hr, hfrom⟩ : ∃ r,
      (servedFor 0 5 reconcileFirst (.opening heldStore 0)).2.store.jobs.get? ⟨1⟩ = some r ∧
        r.reviewFromState = some .verified :=
    Option.map_eq_some_iff.1 (by decide +kernel)
  have hmove := hthread.trans (congrArg some hk)
  have hquiet : Untouched s.world.store (s.world.snapshots 0).since ⟨1⟩ := by
    rw [hworld]
    exact untouched_of_unmoved (by decide +kernel)
  rw [← hworld] at hr
  exact ⟨s, k, r, hs, hmove, hr, hfrom, resume_point_moved_back hs hmove hr hfrom hquiet⟩

end SeedMedic
