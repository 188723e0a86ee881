/-
  One rule for a whole tick: what has to be shown of a single round of a single job.
-/
import SeedMedic.Repair.Calls

namespace SeedMedic

open Lib Prog

/-- A call the worker makes between the rounds of its jobs. -/
def Idle : Call → Prop
  | .now | .shuttingDown | .recordTick _ | .publish _ => True
  | _ => False

/-- What the rules of a worker have to grant it: `Ready l job` says that a drive may go on with
    `job` in local state `l`, `Leaves l job stop` that it may leave it that way, and
    `Apart other job` that the drive of `job` leaves `other` ready. -/
structure DriveRules {L : Type} (R : Rules Call Ans L) (deps : RepairDeps) (config : WorkerConfig)
    (Ready : L → RepairJob → Prop) (Leaves : L → RepairJob → Stop → Prop)
    (Apart : RepairJob → RepairJob → Prop) : Prop where
  idle : ∀ c l, Idle c → R.may c l ∧ ∀ r l', R.next c r l l' → ∀ job, Ready l job → Ready l' job
  claim : ∀ l, R.may (.store (.claim config.owner config.lease config.batchSize)) l ∧
    ∀ jobs l', R.next (.store (.claim config.owner config.lease config.batchSize)) (.ok jobs) l l' →
      jobs.Pairwise (fun job other => Apart other job) ∧ ∀ job ∈ jobs, Ready l' job
  untouched : ∀ l job, Leaves l job .idle
  release : ∀ l job stop, Leaves l job stop →
    R.may (.store (.release job.id stop.retryAt stop.countAttempt)) l ∧
      ∀ r l', R.next (.store (.release job.id stop.retryAt stop.countAttempt)) r l l' →
        ∀ other, Apart other job → Ready l other → Ready l' other
  round : ∀ l job summary, Ready l job → (driveRound deps config job summary).Obeys R l fun r l' =>
    (∀ other, Apart other job → Ready l other → Ready l' other) ∧
      (∀ next, r.2 = .next next → Ready l' next ∧ (∀ other, Apart other job → Apart other next) ∧
        ∀ l'' stop, Leaves l'' next stop → Leaves l'' job stop) ∧
      ∀ stop, r.2 = .leave (some stop) → Leaves l' job stop

namespace DriveRules

variable {L : Type} {R : Rules Call Ans L} {deps : RepairDeps} {config : WorkerConfig}
  {Ready : L → RepairJob → Prop} {Leaves : L → RepairJob → Stop → Prop}
  {Apart : RepairJob → RepairJob → Prop}

/-- The other jobs stay ready through the drive of one. -/
theorem driveLoop (h : DriveRules R deps config Ready Leaves Apart) (bound : ℕ) :
    ∀ {l : L} {job : RepairJob} {summary : TickSummary}, Ready l job →
      (SeedMedic.driveLoop deps config bound job summary).Obeys R l fun r l' =>
        (∀ other, Apart other job → Ready l other → Ready l' other) ∧
          ∀ stop, r.2 = some stop → Leaves l' job stop := by
  have hidle : ∀ l' job stop, some Stop.idle = some stop → Leaves l' job stop := by
    intro l' job stop hs
    cases hs
    exact h.untouched l' job
  induction bound with
  | zero => exact fun _ => ⟨fun other _ ho => ho, hidle _ _⟩
  | succ bound ih =>
    intro l job summary hready
    obtain ⟨hmay, hrest⟩ := h.idle .shuttingDown l trivial
    refine M.obeys_shuttingDown hmay fun down l₁ hn => ?_
    have hkept := hrest down l₁ hn
    split_ifs
    · exact ⟨fun other _ => hkept other, hidle _ _⟩
    · refine (h.round l₁ job summary (hkept job hready)).bind fun r l₂ hr => ?_
      obtain ⟨hothers, hnext, hleave⟩ := hr
      obtain ⟨summary', control⟩ := r
      cases control with
      | leave stop =>
        refine ⟨fun other hne ho => hothers other hne (hkept other ho), fun stop' hs => ?_⟩
        exact hleave stop' (congrArg Control.leave hs)
      | next next =>
        obtain ⟨hready', hapart, hleaves⟩ := hnext next rfl
        refine (ih hready').mono fun r l₃ hr => ⟨fun other hne ho => ?_, fun stop hs => ?_⟩
        · exact hr.1 other (hapart other hne) (hothers other hne (hkept other ho))
        · exact hleaves _ _ (hr.2 stop hs)

theorem drive (h : DriveRules R deps config Ready Leaves Apart) {l : L} {job : RepairJob}
    {summary : TickSummary} (hready : Ready l job) :
    (SeedMedic.drive deps config job summary).Obeys R l fun _ l' =>
      ∀ other, Apart other job → Ready l other → Ready l' other := by
  refine (h.driveLoop driveBound hready).bind fun r l₁ hr => ?_
  obtain ⟨hothers, hleave⟩ := hr
  obtain ⟨summary', stop⟩ := r
  cases stop with
  | none => exact hothers
  | some stop =>
    obtain ⟨hmay, hrelease⟩ := h.release l₁ job stop (hleave stop rfl)
    refine (M.obeys_store hmay fun r l₂ hn => ?_ : (SeedMedic.release job.id stop).Obeys R l₁ fun _ l' =>
      ∀ other, Apart other job → Ready l other → Ready l' other).bind fun _ l₂ hl₂ => hl₂
    exact fun other hne ho => hrelease r l₂ hn other hne (hothers other hne ho)

theorem driveAll (h : DriveRules R deps config Ready Leaves Apart) :
    ∀ {jobs : List RepairJob} {l : L} {summary : TickSummary},
      jobs.Pairwise (fun job other => Apart other job) →
      (∀ job ∈ jobs, Ready l job) →
        (SeedMedic.driveAll deps config jobs summary).Obeys R l fun _ _ => True
  | [], _, _, _, _ => trivial
  | job :: jobs, l, summary, hapart, hready => by
    rw [List.pairwise_cons] at hapart
    obtain ⟨hmay, hidle⟩ := h.idle .shuttingDown l trivial
    refine M.obeys_shuttingDown hmay fun down l₁ hn => ?_
    have hkept := hidle down l₁ hn
    split_ifs
    · trivial
    · refine (h.drive (hkept job (hready job (List.mem_cons_self ..)))).bind fun _ l₂ hl₂ => ?_
      exact h.driveAll hapart.2 fun next hnext => hl₂ next (hapart.1 next hnext) (hkept next
        (hready next (List.mem_cons_of_mem _ hnext)))

/-- A tick obeys rules that one round of one job obeys. -/
theorem tick (h : DriveRules R deps config Ready Leaves Apart) (l : L) :
    (SeedMedic.tick deps config).Obeys R l fun _ _ => True := by
  refine M.obeys_now (h.idle .now l trivial).1 fun now l₁ _ => ?_
  refine M.obeys_recordTick (h.idle (.recordTick now) l₁ trivial).1 fun l₂ _ => ?_
  obtain ⟨hmay, hclaim⟩ := h.claim l₂
  refine M.obeys_store hmay fun r l₃ hn => ?_
  cases r with
  | error e => trivial
  | ok jobs =>
    obtain ⟨hapart, hready⟩ := hclaim jobs l₃ hn
    refine (h.driveAll hapart hready).bind fun summary l₄ _ => ?_
    refine M.obeys_now (h.idle .now l₄ trivial).1 fun now l₅ _ => ?_
    exact M.obeys_publish (h.idle (.publish _) l₅ trivial).1 fun _ _ => trivial

end DriveRules

/-- The rules of a worker that may leave any job in any way. -/
structure WorkerRules {L : Type} (R : Rules Call Ans L) (deps : RepairDeps) (config : WorkerConfig)
    (Ready : L → RepairJob → Prop) (Apart : RepairJob → RepairJob → Prop) : Prop where
  idle : ∀ c l, Idle c → R.may c l ∧ ∀ r l', R.next c r l l' → ∀ job, Ready l job → Ready l' job
  claim : ∀ l, R.may (.store (.claim config.owner config.lease config.batchSize)) l ∧
    ∀ jobs l', R.next (.store (.claim config.owner config.lease config.batchSize)) (.ok jobs) l l' →
      jobs.Pairwise (fun job other => Apart other job) ∧ ∀ job ∈ jobs, Ready l' job
  release : ∀ l job stop count, R.may (.store (.release job.id stop count)) l ∧
    ∀ r l', R.next (.store (.release job.id stop count)) r l l' →
      ∀ other, Apart other job → Ready l other → Ready l' other
  round : ∀ l job summary, Ready l job → (driveRound deps config job summary).Obeys R l fun r l' =>
    (∀ other, Apart other job → Ready l other → Ready l' other) ∧
      ∀ next, r.2 = .next next → Ready l' next ∧ ∀ other, Apart other job → Apart other next

/-- Such a tick, too, is one of rounds. -/
theorem WorkerRules.tick {L : Type} {R : Rules Call Ans L} {deps : RepairDeps}
    {config : WorkerConfig} {Ready : L → RepairJob → Prop} {Apart : RepairJob → RepairJob → Prop}
    (h : WorkerRules R deps config Ready Apart) (l : L) :
    (SeedMedic.tick deps config).Obeys R l fun _ _ => True := by
  have hrules : DriveRules R deps config Ready (fun _ _ _ => True) Apart :=
    { idle := h.idle
      claim := h.claim
      untouched := fun _ _ => trivial
      release := fun l job stop _ => h.release l job stop.retryAt stop.countAttempt
      round := fun l job summary hready => (h.round l job summary hready).mono fun r l' hr =>
        ⟨hr.1, fun next hn => ⟨(hr.2 next hn).1, (hr.2 next hn).2, fun _ _ _ => trivial⟩,
          fun _ _ => trivial⟩ }
  exact hrules.tick l

/-! ## Settling a step -/

/-- What carrying out a conclusion writes to the job. -/
inductive Settling (job : RepairJob) : StepOutcome → StoreCall → Prop
  | advance {detail : Option Json} {patch : JobPatch} {t : Transition} (h : job.advance = .ok t) :
    Settling job (.advance detail patch) (.apply job.id t ⟨detail, none, patch⟩)
  | rewind {target : RepairState} {note : String} {t : Transition} {u : TransitionUpdate}
      (h : job.planTransition target .reconciliation = .ok t) (hu : u.patch = .default) :
    Settling job (.rewind target note) (.apply job.id t u)
  | review {reason : ReviewReason} {detail : Option Json} {patch : JobPatch} {t : Transition}
      (h : job.planTransition .awaitingReview (.review reason) = .ok t) :
    Settling job (.review reason detail patch) (.apply job.id t ⟨detail, none, patch⟩)
  | exhausted {error : String} {detail : Option Json} {t : Transition}
      (h : job.planTransition .awaitingReview (.review .retryBudgetExhausted) = .ok t) :
    Settling job (.retry error) (.apply job.id t ⟨detail, none, .default⟩)
  | progress {after : Duration} {note : String} {patch : JobPatch} :
    Settling job (.wait after note patch) (.recordProgress job.id patch)

/-- A call that tells of what was written, or renews the lease on the job. -/
def Tells (config : WorkerConfig) (id : JobId) : Call → Prop
  | .store c => c = .renewLease id config.owner config.lease
  | .now | .publish _ | .notify _ => True
  | _ => False

/-- What the rules have to grant once a conclusion is written: everything told keeps `Inv`, and
    the job is `Loaded` when it is loaded again. -/
structure SettleRules {L : Type} (R : Rules Call Ans L) (config : WorkerConfig) (id : JobId)
    (Inv : L → Prop) (Loaded : L → RepairJob → Prop) : Prop where
  tells : ∀ c l, Tells config id c → Inv l → R.may c l ∧ ∀ r l', R.next c r l l' → Inv l'
  load : ∀ l, Inv l → R.may (.store (.job id)) l ∧ ∀ r l', R.next (.store (.job id)) r l l' →
    Inv l' ∧ ∀ next, r = .ok (some next) → Loaded l' next

namespace SettleRules

variable {L : Type} {R : Rules Call Ans L} {deps : RepairDeps} {config : WorkerConfig}
  {job : RepairJob} {Inv : L → Prop} {Loaded : L → RepairJob → Prop} {l : L}

/-- Where a drive has come to once a step is settled. -/
def Settled (Inv : L → Prop) (Loaded : L → RepairJob → Prop) (control : Control) (l : L) : Prop :=
  Inv l ∧ ∀ next, control = .next next → Loaded l next

theorem settled_leave {stop : Option Stop} (hl : Inv l) : Settled Inv Loaded (.leave stop) l :=
  ⟨hl, fun next hn => by cases hn⟩

theorem told (h : SettleRules R config job.id Inv Loaded) {α : Type} {p : M α}
    (hp : p.Only (Tells config job.id)) (hl : Inv l) : p.Obeys R l fun _ l' => Inv l' :=
  hp.obeys hl h.tells

theorem reload (h : SettleRules R config job.id Inv Loaded) (hl : Inv l) :
    (reload job.id).Obeys R l fun r l' => Inv l' ∧ ∀ next, r = some next → Loaded l' next := by
  refine M.obeys_store (h.load l hl).1 fun r l' hn => ?_
  obtain ⟨hl', hloaded⟩ := (h.load l hl).2 r l' hn
  split
  · refine ⟨hl', fun next hnext => hloaded next ?_⟩
    rw [show _ = some next from hnext]
  · exact ⟨hl', fun next hnext => by cases hnext⟩

theorem proceed (h : SettleRules R config job.id Inv Loaded) (hl : Inv l) :
    (proceed config job.id).Obeys R l (Settled Inv Loaded) := by
  have hrenew : (renewLease config job.id).Only (Tells config job.id) := by
    refine M.only_store rfl fun r => ?_
    split <;> trivial
  refine (h.told hrenew hl).bind fun renewed l₁ hl₁ => ?_
  split_ifs
  · refine (h.reload hl₁).bind fun next l₂ hr => ?_
    obtain ⟨hl₂, hloaded⟩ := hr
    split
    · rename_i next
      refine ⟨hl₂, fun next' hn => ?_⟩
      split_ifs at hn
      cases hn
      exact hloaded _ rfl
    · exact settled_leave hl₂
  · exact settled_leave hl₁

/-- Settling a step obeys rules that grant what it writes. -/
theorem settle (h : SettleRules R config job.id Inv Loaded) {summary : TickSummary}
    {outcome : StepOutcome} (hl : Inv l)
    (hwrite : ∀ c, Settling job outcome c →
      R.may (.store c) l ∧ ∀ r l', R.next (.store c) r l l' → Inv l') :
    (settle deps config job summary outcome).Obeys R l fun r l' => Settled Inv Loaded r.2 l' := by
  have hpark : ∀ reason detail patch, (∀ t, job.planTransition .awaitingReview (.review reason) = .ok t →
      Settling job outcome (.apply job.id t ⟨detail, none, patch⟩)) →
        (park job reason detail patch).Obeys R l fun _ l' => Inv l' := by
    intro reason detail patch hsettling
    unfold park
    split
    · exact hl
    · rename_i t ht
      obtain ⟨hmay, hnext⟩ := hwrite _ (hsettling t ht)
      refine M.obeys_store hmay fun r l₁ hn => ?_
      split
      · exact hnext _ _ hn
      · exact h.told (p := do
          M.publish (.jobTransitioned job.id job.state .awaitingReview "review")
          M.notify (.parkedForReview job.id job.tracker.str job.torrentName reason.asStr))
          ⟨trivial, fun _ => ⟨trivial, fun _ => trivial⟩⟩ (hnext _ _ hn)
  have hretry : ∀ {attempts : ℕ} {l : L}, Inv l →
      (stopForRetry deps job attempts).Obeys R l fun _ l' => Inv l' :=
    fun hl => h.told (stopForRetry_only trivial) hl
  cases outcome with
  | advance detail patch =>
    show (settleAdvance deps config job summary detail patch).Obeys R l _
    unfold settleAdvance
    split
    · exact settled_leave hl
    · rename_i t ht
      obtain ⟨hmay, hnext⟩ := hwrite _ (.advance ht)
      refine M.obeys_store hmay fun r l₁ hn => ?_
      have hl₁ := hnext _ _ hn
      split
      · refine (h.told (recordAdvance_only (fun _ => trivial) fun _ => trivial) hl₁).bind
          fun _ l₂ hl₂ => ?_
        exact (h.proceed hl₂).bind fun control l₃ hs => hs
      · exact (h.proceed hl₁).bind fun control l₃ hs => hs
      · exact settled_leave hl₁
      · exact (hretry hl₁).bind fun stop l₂ hl₂ => settled_leave hl₂
  | rewind target note =>
    have hrewind : (settleRewind job target note).Obeys R l (Settled Inv Loaded) := by
      unfold settleRewind
      split
      · exact settled_leave hl
      · rename_i t ht
        refine M.obeys_store (hwrite _ (.rewind ht rfl)).1 fun r l₁ hn => ?_
        have hl₁ := (hwrite _ (.rewind ht rfl)).2 r l₁ hn
        split
        · exact settled_leave hl₁
        · obtain ⟨hmay, hpublished⟩ := h.tells (.publish _) l₁ trivial hl₁
          refine M.obeys_publish hmay fun l₂ hn => ?_
          refine (h.reload (hpublished _ _ hn)).bind fun next l₃ hr => ?_
          obtain ⟨hl₃, hloaded⟩ := hr
          split
          · refine ⟨hl₃, fun next' hn => ?_⟩
            cases hn
            exact hloaded _ rfl
          · exact settled_leave hl₃
    exact hrewind.bind fun control l' hs => hs
  | review reason detail patch =>
    exact (hpark _ _ _ fun t ht => .review ht).bind fun _ l' hl' => settled_leave hl'
  | wait after note patch =>
    have hnow : ∀ {l : L}, Inv l → (do
        let now ← M.now
        pure ⟨some (now + chronoDuration after), false⟩ : M Stop).Obeys R l fun _ l' => Inv l' :=
      fun hl => h.told ⟨trivial, fun _ => trivial⟩ hl
    have hwait : (settleWait job after patch).Obeys R l fun _ l' => Inv l' := by
      unfold settleWait
      split_ifs
      · obtain ⟨hmay, hnext⟩ := hwrite _ .progress
        refine M.obeys_store hmay fun r l₁ hn => ?_
        have hl₁ := hnext _ _ hn
        split
        · exact hnow hl₁
        · exact h.told ⟨trivial, fun _ => ⟨trivial, fun _ => trivial⟩⟩ hl₁
      · exact hnow hl
    exact hwait.bind fun stop l' hl' => settled_leave hl'
  | retry error =>
    show (settleRetry deps job summary error).Obeys R l _
    unfold settleRetry
    simp only
    split_ifs
    · exact (hpark _ _ _ fun t ht => .exhausted ht).bind fun _ l' hl' => settled_leave hl'
    · exact (hretry hl).bind fun stop l' hl' => settled_leave hl'

end SettleRules

end SeedMedic
