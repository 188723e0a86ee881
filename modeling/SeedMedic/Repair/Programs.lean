/-
  The programs that act on jobs, and that each of them keeps the rules.
-/
import SeedMedic.Repair.Conduct

namespace SeedMedic

open Lib Prog

section
variable {policies : SafetyPolicy → Prop} {deps : RepairDeps} {config : WorkerConfig}
  {job : RepairJob} {d : Desk} {summary : TickSummary}

/-! ## The worker -/

/-- Calls that are always permitted and leave the desk alone. -/
def Calm : Call → Prop
  | .store (.renewLease ..) | .store (.plannedFiles _) | .store (.history _) => True
  | .now | .shuttingDown | .publish _ | .notify _ | .recordTick _ | .panic => True
  | .staging _ | .client (.remove ..) => True
  | _ => False

theorem Calm.permitted {c : Call} (h : Calm c) : (conduct policies).may c d ∧
    ∀ r d', (conduct policies).next c r d d' → d' = d := by
  cases c with
  | store c =>
    cases c with
    | renewLease id owner lease => exact ⟨trivial, fun r d' hn => hn.2⟩
    | plannedFiles id => exact ⟨trivial, fun r d' hn => hn.2⟩
    | history id => exact ⟨trivial, fun r d' hn => hn.2⟩
    | _ => cases h
  | client c =>
    cases c with
    | remove h deleteFiles => exact ⟨trivial, fun r d' hn => hn.2⟩
    | _ => cases h
  | tracker c => cases h
  | library c => cases h
  | enterStep job => cases h
  | _ => exact ⟨trivial, fun r d' hn => hn.2⟩

theorem obeys_of_calm {α : Type} {p : M α} (h : p.Only Calm) :
    p.Obeys (conduct policies) d fun _ d' => d' = d := by
  refine h.obeys rfl fun c d' hc hd => ?_
  subst hd
  exact hc.permitted

/-- Where a drive has come to once a step is settled: the other jobs are as they were, and
    what it goes on with is a copy of the same job. -/
structure Settles (job : RepairJob) (d d' : Desk) (control : Control) : Prop where
  others : ∀ other ∈ d.held, other.id ≠ job.id → other ∈ d'.held
  next : ∀ next, control = .next next → next ∈ d'.held ∧ next.id = job.id

theorem Settles.leave {d' : Desk} {stop : Option Stop}
    (h : ∀ other ∈ d.held, other.id ≠ job.id → other ∈ d'.held) :
    Settles job d d' (.leave stop) := ⟨h, fun next hn => by cases hn⟩

theorem mem_putAway {other : RepairJob} (h : other ∈ d.held) (hne : other.id ≠ job.id) :
    other ∈ (d.putAway job.id).held := ⟨h, hne⟩

/-- A job is reloaded into the copies at hand. -/
theorem reload_conducts : (reload job.id).Obeys (conduct policies) d fun r d' =>
    (∀ other ∈ d.held, other ∈ d'.held) ∧
      ∀ next, r = some next → next ∈ d'.held ∧ next.id = job.id := by
  refine M.obeys_store trivial fun r d' hn => ?_
  obtain ⟨hhonest, rfl⟩ := hn
  split
  · rename_i next
    cases next with
    | none => exact ⟨fun _ h => h, fun next h => by cases h⟩
    | some next =>
      refine ⟨fun _ h => .inr h, fun next' h => ?_⟩
      cases h
      exact ⟨.inl rfl, hhonest⟩
  · exact ⟨fun _ h => h, fun next h => by cases h⟩

theorem proceed_conducts : (proceed config job.id).Obeys (conduct policies) d fun control d' =>
    Settles job d d' control := by
  have hrenew : (renewLease config job.id).Only Calm := by
    refine M.only_store trivial fun r => ?_
    split <;> trivial
  refine (obeys_of_calm hrenew).bind fun renewed d₁ hd => ?_
  subst hd
  split_ifs
  · refine reload_conducts.bind fun next d₂ hnext => ?_
    obtain ⟨hkept, hid⟩ := hnext
    split
    · rename_i next
      refine ⟨fun other h _ => hkept other h, fun next' h => ?_⟩
      split_ifs at h
      cases h
      exact hid _ rfl
    · exact .leave fun other h _ => hkept other h
  · exact .leave fun other h _ => h

theorem Settles.of_putAway {d' : Desk} {control : Control}
    (h : Settles job (d.putAway job.id) d' control) : Settles job d d' control :=
  ⟨fun other ho hne => h.others other (mem_putAway ho hne) hne, h.next⟩

/-- Progress may be written once its step has concluded. -/
theorem Concluded.mayApply {detail : Option Json} {patch : JobPatch}
    (h : Concluded job d (.advance detail patch)) {t : Transition} (ht : job.advance = .ok t) :
    d.MayApply job.id t ⟨detail, none, patch⟩ := by
  obtain ⟨hfrom, hto, hreason, -⟩ := validateTransition_ok ht
  refine ⟨⟨job, d.held_loaded h.held, rfl, ?_⟩, fun _ => ⟨job, h.current, rfl, hfrom.symm⟩,
    fun _ hs => h.requested trivial (hfrom.symm.trans hs),
    fun _ hs => h.settled trivial (hfrom.symm.trans hs), .inl h.unapproving⟩
  rw [hto, hreason]
  exact ht

theorem settleAdvance_conducts {detail : Option Json} {patch : JobPatch}
    (h : Concluded job d (.advance detail patch)) :
    (settleAdvance deps config job summary detail patch).Obeys (conduct policies) d
      fun r d' => Settles job d d' r.2 := by
  unfold settleAdvance
  split
  · exact .leave fun other ho _ => ho
  · rename_i t ht
    refine M.obeys_store (h.mayApply ht) fun r d₁ hn => ?_
    obtain ⟨-, rfl⟩ := hn
    have haway : ∀ other ∈ d.held, other.id ≠ job.id → other ∈ (d.putAway job.id).held :=
      fun other => mem_putAway
    split
    · refine (obeys_of_calm (recordAdvance_only (fun _ => trivial) fun _ => trivial)).bind
        fun _ d₂ hd => ?_
      subst hd
      exact proceed_conducts.bind fun control d' hs => hs.of_putAway
    · exact proceed_conducts.bind fun control d' hs => hs.of_putAway
    · exact .leave haway
    · refine (obeys_of_calm (stopForRetry_only trivial)).bind fun stop d₂ hd => ?_
      subst hd
      exact .leave haway

theorem settleRewind_conducts {target : RepairState} {note : String} (hheld : job ∈ d.held) :
    (settleRewind job target note).Obeys (conduct policies) d
      fun control d' => Settles job d d' control := by
  unfold settleRewind
  split
  · exact .leave fun other ho _ => ho
  · rename_i t ht
    refine M.obeys_store (.of_plan (d.held_loaded hheld) ht (by nofun) (.inl rfl)) fun r d₁ hn => ?_
    obtain ⟨-, rfl⟩ := hn
    split
    · exact .leave fun other => mem_putAway
    · refine M.obeys_publish trivial fun d₂ hn => ?_
      obtain ⟨-, rfl⟩ := hn
      refine reload_conducts.bind fun next d₃ hnext => ?_
      obtain ⟨hkept, hid⟩ := hnext
      have haway : ∀ other ∈ d.held, other.id ≠ job.id → other ∈ d₃.held :=
        fun other ho hne => hkept other (mem_putAway ho hne)
      split
      · refine ⟨haway, fun next' h => ?_⟩
        cases h
        exact hid _ rfl
      · exact .leave haway

/-- Parking puts the job away. -/
theorem park_conducts {reason : ReviewReason} {detail : Option Json} {patch : JobPatch}
    (hheld : job ∈ d.held) (hpatch : patch.resumeApproved = none) :
    (park job reason detail patch).Obeys (conduct policies) d fun _ d' =>
      ∀ other ∈ d.held, other.id ≠ job.id → other ∈ d'.held := by
  unfold park
  split
  · exact fun other ho _ => ho
  · rename_i t ht
    refine M.obeys_store (.of_plan (d.held_loaded hheld) ht (by nofun) (.inl hpatch)) fun r d₁ hn => ?_
    obtain ⟨-, rfl⟩ := hn
    split
    · exact fun other => mem_putAway
    · have hcalm : Only Calm (do
          M.publish (.jobTransitioned job.id job.state .awaitingReview "review")
          M.notify (.parkedForReview job.id job.tracker.str job.torrentName reason.asStr)) :=
        ⟨trivial, fun _ => ⟨trivial, fun _ => trivial⟩⟩
      refine (obeys_of_calm hcalm).mono fun _ d' hd => ?_
      subst hd
      exact fun other => mem_putAway

theorem settleWait_conducts {after : Duration} {patch : JobPatch}
    (hpatch : patch.resumeApproved = none) :
    (settleWait job after patch).Obeys (conduct policies) d fun _ d' => d' = d := by
  unfold settleWait
  split_ifs
  · refine M.obeys_store hpatch fun r d₁ hn => ?_
    obtain ⟨-, rfl⟩ := hn
    split
    · exact obeys_of_calm ⟨trivial, fun _ => trivial⟩
    · exact obeys_of_calm ⟨trivial, fun _ => ⟨trivial, fun _ => trivial⟩⟩
  · exact obeys_of_calm ⟨trivial, fun _ => trivial⟩

/-- What a step concluded is carried out by the rules. -/
theorem settle_conducts {outcome : StepOutcome} (h : Concluded job d outcome) :
    (settle deps config job summary outcome).Obeys (conduct policies) d
      fun r d' => Settles job d d' r.2 := by
  cases outcome with
  | advance detail patch => exact settleAdvance_conducts h
  | rewind target note =>
    exact (settleRewind_conducts h.held).bind fun control d' hs => hs
  | review reason detail patch =>
    exact (park_conducts h.held h.unapproving).bind fun _ d' hs => .leave hs
  | wait after note patch =>
    refine (settleWait_conducts h.unapproving).bind fun stop d' hd => ?_
    subst hd
    exact .leave fun other ho _ => ho
  | retry error =>
    show (settleRetry deps job summary error).Obeys _ _ _
    unfold settleRetry
    simp only
    split_ifs
    · exact (park_conducts h.held rfl).bind fun _ d' hs => .leave hs
    · refine (obeys_of_calm (stopForRetry_only trivial)).bind fun stop d' hd => ?_
      subst hd
      exact .leave fun other ho _ => ho

/-- A worker is ready for the copies at hand. -/
theorem workerRules_conduct (hpolicy : policies deps.policy) :
    WorkerRules (conduct policies) deps config (fun d job => job ∈ d.held)
      fun other job => other.id ≠ job.id where
  idle c d hc := by
    have hcalm : Calm c := by cases c <;> first | exact trivial | cases hc
    obtain ⟨hmay, hnext⟩ : (conduct policies).may c d ∧
        ∀ r d', (conduct policies).next c r d d' → d' = d := hcalm.permitted
    exact ⟨hmay, fun r d' hn job hjob => hnext r d' hn ▸ hjob⟩
  claim d := by
    refine ⟨trivial, fun jobs d' hn => ?_⟩
    obtain ⟨hnodup, rfl⟩ := hn
    exact ⟨(List.pairwise_map.1 hnodup).imp Ne.symm, fun job hjob => hjob⟩
  release d job stop count := by
    refine ⟨trivial, fun r d' hn other hne ho => ?_⟩
    obtain ⟨-, rfl⟩ := hn
    exact mem_putAway ho hne
  round d job summary hjob := by
    refine M.obeys_enterStep hjob fun d₁ hn => ?_
    obtain ⟨-, rfl⟩ := hn
    refine (step_conducts (d := d.record (.enterStep job) ()) hpolicy hjob rfl).bind fun outcome d₂ h => ?_
    obtain ⟨hsame, hconcluded⟩ := h
    refine (settle_conducts hconcluded).mono fun r d₃ hs => ⟨fun other hne ho => ?_, fun next hn => ?_⟩
    · exact hs.others other (hsame.held ▸ ho) hne
    · obtain ⟨hheld, hid⟩ := hs.next next hn
      refine ⟨hheld, fun other hne => ?_⟩
      rw [hid]
      exact hne

theorem tick_conducts (hpolicy : policies deps.policy) :
    (tick deps config).Obeys (conduct policies) d fun _ _ => True :=
  (workerRules_conduct hpolicy).tick d

/-! ## Reconciliation -/

/-- The state of a desk throughout a reconciliation: nothing to step, and `jobs` to look at. -/
def Examining (jobs : List RepairJob) (d : Desk) : Prop :=
  d.held = ∅ ∧ ∀ job ∈ jobs, job ∈ d.loaded

/-- What an inspection of reality calls for: what was, or staging, or matching over again. -/
theorem realityBackedTarget_returns {starting : RepairState} :
    (realityBackedTarget job starting).Returns fun target =>
      target = starting ∨ target = .staged ∨ target = .matched := by
  have hearliest : ∀ a b, earliest a b = a ∨ earliest a b = b := by
    intro a b
    unfold earliest
    split_ifs
    · exact .inl rfl
    · exact .inr rfl
  have hclient : (clientBackedTarget job starting).Returns fun target =>
      target = starting ∨ target = .staged := by
    unfold clientBackedTarget
    split_ifs
    · split
      · exact .inl rfl
      · refine M.returns_client fun r => ?_
        split
        · exact hearliest _ _
        · exact .inl rfl
        · exact .inl rfl
    · exact .inl rfl
  refine hclient.bind fun target htarget => ?_
  have hkept : target = starting ∨ target = .staged ∨ target = .matched := by tauto
  have hany : (stagingPlan job).Returns fun _ => True := .all _
  unfold stagingBackedTarget
  split_ifs
  · refine hany.bind fun plan _ => ?_
    split
    · exact hkept
    · refine M.returns_staging fun r => ?_
      split
      · exact hkept
      · exact hkept
      · show earliest target .matched = starting ∨ _
        rcases hearliest target .matched with h | h
        · rw [h]
          exact hkept
        · exact .inr (.inr h)
  · exact hkept

/-- Looking at reality changes no copies. -/
theorem realityBackedTarget_conducts {jobs : List RepairJob} {starting : RepairState}
    (h : Examining jobs d) : (realityBackedTarget job starting).Obeys (conduct policies) d
      fun target d' => Examining jobs d' ∧
        (target = starting ∨ target = .staged ∨ target = .matched) := by
  refine (realityBackedTarget_asks.obeys h fun c d' hc hd => ?_).and realityBackedTarget_returns
  cases c with
  | store c =>
    cases c with
    | plannedFiles id => exact ⟨trivial, fun r d'' hn => hn.2 ▸ hd⟩
    | _ => cases hc
  | client c =>
    cases c with
    | status h => exact ⟨trivial, fun r d'' hn => hn.2 ▸ hd⟩
    | _ => cases hc
  | staging c => exact ⟨trivial, fun r d'' hn => hn.2 ▸ hd⟩
  | _ => cases hc

theorem Examining.putAway {jobs : List RepairJob} {id : JobId} (h : Examining jobs d) :
    Examining jobs (d.putAway id) := by
  refine ⟨?_, h.2⟩
  show {job ∈ d.held | job.id ≠ id} = ∅
  rw [h.1]
  exact Set.sep_empty _

theorem reconcileActionableJob_conducts {jobs : List RepairJob} (h : Examining jobs d)
    (hjob : job ∈ jobs) : (reconcileActionableJob job).Obeys (conduct policies) d
      fun _ d' => Examining jobs d' := by
  refine (realityBackedTarget_conducts h).bind fun target d₁ hd => ?_
  obtain ⟨hexamining, -⟩ := hd
  split_ifs
  · exact hexamining
  · split
    · exact hexamining
    · rename_i t ht
      refine M.obeys_store (.of_plan (hexamining.2 job hjob) ht (by nofun) (.inl rfl)) fun r d₂ hn => ?_
      obtain ⟨-, rfl⟩ := hn
      split <;> exact hexamining.putAway

theorem reconcileParkedJob_conducts {jobs : List RepairJob} (h : Examining jobs d) :
    (reconcileParkedJob job).Obeys (conduct policies) d fun _ d' => Examining jobs d' := by
  unfold reconcileParkedJob
  split
  · exact h
  · refine (realityBackedTarget_conducts h).bind fun target d₁ hd => ?_
    obtain ⟨hexamining, htarget⟩ := hd
    split_ifs with hmoved
    · exact hexamining
    · have hnone : ∀ other ∈ d₁.held, other.id ≠ job.id := by
        rw [hexamining.1]
        exact fun other ho => ho.elim
      refine M.obeys_store ⟨hnone, htarget.resolve_left hmoved⟩ fun r d₂ hn => ?_
      obtain ⟨-, rfl⟩ := hn
      split <;> exact hexamining

theorem countMoved_conducts {action : RepairJob → M Bool} {all : List RepairJob}
    (h : ∀ job ∈ all, ∀ d, Examining all d →
      (action job).Obeys (conduct policies) d fun _ d' => Examining all d') :
    ∀ (jobs : List RepairJob), jobs ⊆ all → ∀ d, Examining all d →
      (countMoved action jobs).Obeys (conduct policies) d fun _ d' => Examining all d'
  | [], _, _, hd => hd
  | job :: jobs, hsub, d, hd => by
    rw [List.cons_subset] at hsub
    refine (h job hsub.1 d hd).bind fun moved d₁ hd₁ => ?_
    exact (countMoved_conducts h jobs hsub.2 d₁ hd₁).bind fun _ d₂ hd₂ => hd₂

theorem reconcileAfter_conducts {cleared : ℕ} (hheld : d.held = ∅) :
    (reconcileAfter cleared).Obeys (conduct policies) d fun _ _ => True := by
  refine M.obeys_store trivial fun r d₁ hn => ?_
  obtain ⟨-, rfl⟩ := hn
  split
  · trivial
  · rename_i jobs
    have hfirst : Examining jobs (d.load jobs) := ⟨hheld, fun job hjob => .inr hjob⟩
    refine (countMoved_conducts (fun job hjob d hd => reconcileActionableJob_conducts hd hjob) jobs
      (List.Subset.refl _) _ hfirst).bind fun rewound d₂ hd₂ => ?_
    have hparked : listParked.Obeys (conduct policies) d₂ fun parked d' => Examining parked d' := by
      refine M.obeys_store trivial fun r d₃ hn => ?_
      obtain ⟨-, rfl⟩ := hn
      split
      · rename_i parked
        exact ⟨hd₂.1, fun job hjob => .inr hjob⟩
      · exact ⟨hd₂.1, fun job hjob => by cases hjob⟩
    refine hparked.bind fun parked d₃ hd₃ => ?_
    refine (countMoved_conducts (fun job _ d hd => reconcileParkedJob_conducts hd) parked
      (List.Subset.refl _) _ hd₃).bind fun corrected d₄ _ => ?_
    exact M.obeys_now trivial fun now d₅ _ => M.obeys_publish trivial fun d₆ _ => trivial

/-- Reconciliation keeps the rules. -/
theorem reconcileOnStartup_conducts (owner : String) :
    (reconcileOnStartup owner).Obeys (conduct policies) d fun _ _ => True := by
  refine M.obeys_store trivial fun r d₁ hn => ?_
  obtain ⟨-, rfl⟩ := hn
  split <;> exact reconcileAfter_conducts rfl

/-! ## Operators -/

theorem withJob_conducts {id : JobId} {action : RepairJob → M (Except WebError Unit)}
    (h : ∀ job d, job ∈ d.loaded → (action job).Obeys (conduct policies) d fun _ _ => True) :
    (withJob id action).Obeys (conduct policies) d fun _ _ => True := by
  refine M.obeys_store trivial fun r d₁ hn => ?_
  obtain ⟨-, rfl⟩ := hn
  split
  · trivial
  · trivial
  · exact h _ _ (.inl rfl)

theorem applyAction_conducts {target : RepairState} {reason : TransitionReason}
    {u : TransitionUpdate} (hjob : job ∈ d.loaded) (hreason : reason ≠ .progress)
    (hu : u.patch.resumeApproved = none ∨ ∀ t : Transition, t.reason = reason → Approval t u) :
    (applyAction job target reason u).Obeys (conduct policies) d fun _ _ => True := by
  unfold applyAction
  split
  · trivial
  · rename_i t ht
    have hu : u.patch.resumeApproved = none ∨ Approval t u :=
      hu.imp_right fun h => h t (validateTransition_ok ht).2.2.1
    refine M.obeys_store (.of_plan hjob ht hreason hu) fun r d₁ _ => ?_
    split
    · trivial
    · exact M.obeys_publish trivial fun _ _ => trivial

theorem discardThen_conducts {target : RepairState} {reason : TransitionReason}
    {u : TransitionUpdate} (hjob : job ∈ d.loaded) (hreason : reason ≠ .progress)
    (hu : u.patch.resumeApproved = none) :
    (discardThen job target reason u).Obeys (conduct policies) d fun _ _ => True := by
  have hdiscard : (discardStaged job).Only Calm :=
    discardStaged_only (fun _ _ => trivial) fun _ _ => trivial
  refine (obeys_of_calm hdiscard).bind fun r d₁ hd => ?_
  subst hd
  split
  · trivial
  · exact applyAction_conducts hjob hreason (.inl hu)

theorem retryAction_conducts {id : JobId} :
    (retryAction id).Obeys (conduct policies) d fun _ _ => True := by
  refine withJob_conducts fun job d hjob => ?_
  split
  · trivial
  · exact applyAction_conducts hjob (by nofun) (.inl rfl)

/-- An approval is an operator's retry that says so. -/
theorem approveResumeAction_conducts {id : JobId} :
    (approveResumeAction id).Obeys (conduct policies) d fun _ _ => True := by
  refine withJob_conducts fun job d hjob => ?_
  split
  · trivial
  · split_ifs
    · trivial
    · exact applyAction_conducts hjob (by nofun) (.inr fun t ht => ⟨ht, _, rfl⟩)

theorem finishChoice_conducts {detail : Json} {files : List PlannedFile} (hjob : job ∈ d.loaded) :
    (finishChoice job detail files).Obeys (conduct policies) d fun _ _ => True := by
  unfold finishChoice
  split_ifs
  · refine M.obeys_store rfl fun r d₁ _ => ?_
    split
    · trivial
    · exact M.obeys_publish trivial fun _ _ => trivial
  · refine (applyAction_conducts hjob (by nofun) (.inl rfl)).bind fun r d₁ _ => ?_
    split <;> trivial

theorem chooseCandidateAction_conducts {id : JobId} {path : String} {index : ℕ} :
    (chooseCandidateAction id path index).Obeys (conduct policies) d fun _ _ => True := by
  refine M.obeys_store trivial fun r d₁ hn => ?_
  obtain ⟨-, rfl⟩ := hn
  split
  · trivial
  · trivial
  · rename_i job
    split
    · trivial
    · refine M.obeys_store trivial fun r d₂ hn => ?_
      obtain ⟨-, rfl⟩ := hn
      split
      · trivial
      · simp only
        split
        · trivial
        · refine M.obeys_store trivial fun r d₃ hn => ?_
          obtain ⟨-, rfl⟩ := hn
          split
          · trivial
          · split
            · trivial
            · refine (obeys_of_calm (M.only_expect _ trivial)).bind fun chosen d₄ hd => ?_
              subst hd
              exact finishChoice_conducts (.inl rfl)

/-- Operators keep the rules. -/
theorem OperatorProgram.conducts {id : JobId} {p : M Unit} (h : OperatorProgram id p) :
    p.Obeys (conduct policies) d fun _ _ => True := by
  cases h with
  | retry => exact retryAction_conducts.bind fun _ _ _ => trivial
  | approveResume => exact approveResumeAction_conducts.bind fun _ _ _ => trivial
  | chooseCandidate path index => exact chooseCandidateAction_conducts.bind fun _ _ _ => trivial
  | abandon =>
    exact (withJob_conducts fun job d hjob =>
      applyAction_conducts hjob (by nofun) (.inl rfl)).bind fun _ _ _ => trivial
  | abandonAndDiscard =>
    exact (withJob_conducts fun job d hjob =>
      discardThen_conducts hjob (by nofun) rfl).bind fun _ _ _ => trivial
  | restart =>
    exact (withJob_conducts fun job d hjob =>
      discardThen_conducts hjob (by nofun) rfl).bind fun _ _ _ => trivial

/-! ## Workers and operators side by side -/

/-- What runs in the slot of a worker, one program after another, and in that of an operator. -/
inductive Acting {W O : Type} (policies : SafetyPolicy → Prop) : W ⊕ O → M Unit → Prop
  | tick {w : W} (deps : RepairDeps) (config : WorkerConfig) (hpolicy : policies deps.policy) :
    Acting policies (.inl w) (tick deps config >>= fun _ => pure ())
  | reconcile {w : W} (owner : String) :
    Acting policies (.inl w) (reconcileOnStartup owner >>= fun _ => pure ())
  | operator {o : O} {id : JobId} {p : M Unit} (h : OperatorProgram id p) :
    Acting policies (.inr o) p

/-- The policies a slot may resume by: operators never resume. -/
def slotPolicies {W O : Type} (policies : SafetyPolicy → Prop) : W ⊕ O → SafetyPolicy → Prop
  | .inl _ => policies
  | .inr _ => fun _ => False

theorem Acting.conducts {W O : Type} {i : W ⊕ O} {p : M Unit} (h : Acting policies i p) :
    p.Obeys (conduct (slotPolicies policies i)) d fun _ _ => True := by
  cases h with
  | tick deps config hpolicy => exact (tick_conducts hpolicy).bind fun _ _ _ => trivial
  | reconcile owner => exact (reconcileOnStartup_conducts owner).bind fun _ _ _ => trivial
  | operator h => exact h.conducts

end

end SeedMedic
