/-
  Which calls each part of the workflow makes.
-/
import SeedMedic.Lib.Hoare
import SeedMedic.Repair.Reconcile
import SeedMedic.Repair.Worker

namespace SeedMedic

open Lib Prog

/-- A call that reads the store or asks the tracker or the library. -/
def Reads : Call → Prop
  | .store (.torrentFile _) | .store (.plannedFiles _) => True
  | .tracker _ | .library _ | .now | .panic => True
  | _ => False

/-- A call that reads the store or asks the tracker, the library or the staging area. -/
def Gathers : Call → Prop
  | .store (.torrentFile _) | .store (.plannedFiles _) => True
  | .tracker _ | .library _ | .now | .panic => True
  | .staging (.materialize ..) => True
  | _ => False

/-- A call that asks the client, or gathers. -/
def StepCall : Call → Prop
  | .client _ => True
  | c => Gathers c

/-- A call that writes down what a step concluded. -/
def SettleCall : Call → Prop
  | .store (.apply ..) | .store (.recordProgress ..) | .store (.renewLease ..) | .store (.job _) => True
  | .now | .publish _ | .notify _ => True
  | _ => False

theorem Gathers.of_reads {c : Call} (h : Reads c) : Gathers c := by
  cases c with
  | store c => cases c <;> exact h
  | staging c => cases h
  | _ => exact h

theorem StepCall.of_gathers {c : Call} (h : Gathers c) : StepCall c := by
  cases c <;> trivial

theorem StepCall.of_reads {c : Call} (h : Reads c) : StepCall c := .of_gathers (.of_reads h)

section
variable {P : Call → Prop} {α β : Type}

namespace M

theorem only_store {c : StoreCall} {f : c.Ans → M α} (h : P (.store c)) (hf : ∀ r, (f r).Only P) :
    (M.store c >>= f).Only P := ⟨h, hf⟩

theorem only_client {c : ClientCall} {f : c.Ans → M α} (h : P (.client c))
    (hf : ∀ r, (f r).Only P) : (M.client c >>= f).Only P := ⟨h, hf⟩

theorem only_tracker {c : TrackerCall} {f : c.Ans → M α} (h : P (.tracker c))
    (hf : ∀ r, (f r).Only P) : (M.tracker c >>= f).Only P := ⟨h, hf⟩

theorem only_library {c : LibraryCall} {f : c.Ans → M α} (h : P (.library c))
    (hf : ∀ r, (f r).Only P) : (M.library c >>= f).Only P := ⟨h, hf⟩

theorem only_staging {c : StagingCall} {f : c.Ans → M α} (h : P (.staging c))
    (hf : ∀ r, (f r).Only P) : (M.staging c >>= f).Only P := ⟨h, hf⟩

theorem only_now {f : Time → M α} (h : P .now) (hf : ∀ r, (f r).Only P) :
    (M.now >>= f).Only P := ⟨h, hf⟩

theorem only_expect (o : Option α) (h : P .panic) : (M.expect o).Only P := by
  cases o with
  | none => exact ⟨h, fun e => nomatch e⟩
  | some a => trivial

variable {L : Type} {R : Rules Call Ans L} {l : L} {Q : α → L → Prop}

theorem obeys_store {c : StoreCall} {f : c.Ans → M α} (h : R.may (.store c) l)
    (hf : ∀ r l', R.next (.store c) r l l' → (f r).Obeys R l' Q) : (M.store c >>= f).Obeys R l Q :=
  ⟨h, hf⟩

theorem obeys_client {c : ClientCall} {f : c.Ans → M α} (h : R.may (.client c) l)
    (hf : ∀ r l', R.next (.client c) r l l' → (f r).Obeys R l' Q) : (M.client c >>= f).Obeys R l Q :=
  ⟨h, hf⟩

theorem obeys_tracker {c : TrackerCall} {f : c.Ans → M α} (h : R.may (.tracker c) l)
    (hf : ∀ r l', R.next (.tracker c) r l l' → (f r).Obeys R l' Q) :
    (M.tracker c >>= f).Obeys R l Q := ⟨h, hf⟩

theorem obeys_staging {c : StagingCall} {f : c.Ans → M α} (h : R.may (.staging c) l)
    (hf : ∀ r l', R.next (.staging c) r l l' → (f r).Obeys R l' Q) :
    (M.staging c >>= f).Obeys R l Q := ⟨h, hf⟩

theorem obeys_now {f : Time → M α} (h : R.may .now l)
    (hf : ∀ r l', R.next .now r l l' → (f r).Obeys R l' Q) : (M.now >>= f).Obeys R l Q :=
  ⟨h, hf⟩

theorem obeys_shuttingDown {f : Bool → M α} (h : R.may .shuttingDown l)
    (hf : ∀ r l', R.next .shuttingDown r l l' → (f r).Obeys R l' Q) :
    (M.shuttingDown >>= f).Obeys R l Q := ⟨h, hf⟩

theorem obeys_enterStep {job : RepairJob} {f : Unit → M α} (h : R.may (.enterStep job) l)
    (hf : ∀ l', R.next (.enterStep job) () l l' → (f ()).Obeys R l' Q) :
    (M.enterStep job >>= f).Obeys R l Q := ⟨h, fun _ => hf⟩

theorem obeys_publish {e : EventKind} {f : Unit → M α} (h : R.may (.publish e) l)
    (hf : ∀ l', R.next (.publish e) () l l' → (f ()).Obeys R l' Q) :
    (M.publish e >>= f).Obeys R l Q := ⟨h, fun _ => hf⟩

theorem obeys_recordTick {time : Time} {f : Unit → M α} (h : R.may (.recordTick time) l)
    (hf : ∀ l', R.next (.recordTick time) () l l' → (f ()).Obeys R l' Q) :
    (M.recordTick time >>= f).Obeys R l Q := ⟨h, fun _ => hf⟩

variable {Q : α → Prop}

theorem returns_store {c : StoreCall} {f : c.Ans → M α} (hf : ∀ r, (f r).Returns Q) :
    (M.store c >>= f).Returns Q := hf

theorem returns_client {c : ClientCall} {f : c.Ans → M α} (hf : ∀ r, (f r).Returns Q) :
    (M.client c >>= f).Returns Q := hf

theorem returns_tracker {c : TrackerCall} {f : c.Ans → M α} (hf : ∀ r, (f r).Returns Q) :
    (M.tracker c >>= f).Returns Q := hf

theorem returns_staging {c : StagingCall} {f : c.Ans → M α} (hf : ∀ r, (f r).Returns Q) :
    (M.staging c >>= f).Returns Q := hf

theorem returns_now {f : Time → M α} (hf : ∀ r, (f r).Returns Q) : (M.now >>= f).Returns Q := hf

theorem returns_expect {o : Option α} : (M.expect o).Returns fun a => o = some a := by
  cases o with
  | none => exact fun e => nomatch e
  | some a => rfl

end M

theorem only_foldlM {f : β → α → M β} (h : ∀ b a, (f b a).Only P) (xs : List α) :
    ∀ b, (xs.foldlM f b).Only P := by
  induction xs with
  | nil => exact fun b => trivial
  | cons x xs ih => exact fun b => (h b x).bind ih

end

/-! ## The steps -/

section
variable {deps : RepairDeps} {job : RepairJob}

theorem fetchTorrent_reads : (fetchTorrent deps job).Only Reads := by
  unfold fetchTorrent
  split_ifs
  · refine M.only_tracker trivial fun r => ?_
    split <;> trivial
  · trivial

section
variable {P : Call → Prop} (hlibrary : ∀ c, P (.library c))
include hlibrary

theorem checkPieces_only (matched : FileMatch) (range : ByteRange) (pieceLength : ℕ)
    (pieces : List PieceHash) (total : ℕ) (chosen : List ℕ) :
    (checkPieces (m := M) (fun path range => M.library (.hashPiece path range)) matched range
      pieceLength pieces total chosen).Only P := by
  induction chosen with
  | nil => trivial
  | cons i rest ih =>
    refine M.only_library (hlibrary _) fun r => ?_
    split
    · trivial
    · simp only
      split_ifs
      · exact ih.bind fun _ => trivial
      · trivial

theorem verifyMatches_only (files : List TorrentFile) (candidates : List Candidate)
    (pieceLength : ℕ) (pieces : List PieceHash) (count : ℕ) :
    (verifyMatches (m := M) (fun path range => M.library (.hashPiece path range)) files candidates
      pieceLength pieces count).Only P := by
  have hmatch : ∀ round entry, (verifyMatch (m := M)
      (fun path range => M.library (.hashPiece path range)) files pieceLength pieces
      (wsum (files.map (·.length))) count round entry).Only P := by
    rintro round ⟨matched, i⟩
    unfold verifyMatch
    simp only
    split
    · trivial
    · split_ifs
      · trivial
      · exact (checkPieces_only hlibrary _ _ _ _ _ _).bind fun _ => trivial
  have hrounds : ∀ n cs report, (verifyRounds (m := M)
      (fun path range => M.library (.hashPiece path range)) files pieceLength pieces
      (wsum (files.map (·.length))) count n cs report).Only P := by
    intro n
    induction n with
    | zero => exact fun cs report => trivial
    | succ n ih =>
      intro cs report
      refine (only_foldlM hmatch _ _).bind fun round => ?_
      split_ifs
      · trivial
      · exact ih _ _
  unfold verifyMatches
  split_ifs
  · trivial
  · exact hrounds _ _ _

theorem lookUp_only (query : CandidateQuery) (found : Lookup) (source : String × ℕ) :
    (lookUp query found source).Only P := by
  refine M.only_library (hlibrary _) fun r => ?_
  split <;> trivial

theorem verifiedPlan_only (htorrent : P (.store (.torrentFile job.id))) {files : List TorrentFile}
    {candidates : List Candidate} : (verifiedPlan deps job files candidates).Only P := by
  have hpieces : (torrentPieces deps job).Only P := by
    refine M.only_store htorrent fun r => ?_
    split
    · split <;> trivial
    · trivial
  refine hpieces.bind fun pieces => ?_
  split
  · exact verifyMatches_only hlibrary _ _ _ _ _
  · trivial

theorem matchMedia_only (hplan : P (.store (.plannedFiles job.id)))
    (htorrent : P (.store (.torrentFile job.id))) (hpanic : P .panic) :
    (matchMedia deps job).Only P := by
  refine M.only_store hplan fun r => ?_
  split
  · trivial
  · trivial
  · refine (only_foldlM (lookUp_only hlibrary _) _ _).bind fun found => ?_
    split_ifs
    · trivial
    · trivial
    · refine (verifiedPlan_only hlibrary htorrent).bind fun p => ?_
      refine (M.only_expect _ hpanic).bind fun detail => ?_
      split <;> trivial

end

theorem matchMedia_reads : (matchMedia deps job).Only Reads :=
  matchMedia_only (fun _ => trivial) trivial trivial trivial

theorem stageFiles_gathers : (stageFiles deps job).Only Gathers := by
  refine M.only_store trivial fun r => ?_
  split
  · trivial
  · split
    · trivial
    · simp only
      split_ifs
      · trivial
      · refine M.only_staging trivial fun r => ?_
        split <;> trivial

/-- Injecting only adds the torrent to the client. -/
theorem inject_only {P : Call → Prop} (hP : ∀ c, Reads c → P c)
    (hadd : ∀ h b dir, job.infoHash = some h → job.stagingDir = some dir →
      P (.client (.addPaused ⟨h, b, deps.savePath dir, deps.category⟩))) :
    (inject deps job).Only P := by
  unfold inject
  cases hh : job.infoHash with
  | none => trivial
  | some h =>
    cases hd : job.stagingDir with
    | none => trivial
    | some dir =>
      refine M.only_store (hP _ trivial) fun r => ?_
      split
      · trivial
      · trivial
      · refine M.only_client (hadd _ _ _ hh hd) fun r => ?_
        split
        · trivial
        · exact (M.only_expect _ (hP _ trivial)).bind fun _ => trivial

theorem startRecheck_only {P : Call → Prop} (hnow : P .now)
    (hstatus : ∀ h, job.infoHash = some h → P (.client (.status h)))
    (hrecheck : ∀ h, job.infoHash = some h → P (.client (.recheck h))) :
    (startRecheck job).Only P := by
  unfold startRecheck
  split
  · trivial
  · rename_i h hh
    refine M.only_client (hstatus h hh) fun r => ?_
    split
    · trivial
    · trivial
    · refine M.only_client (hrecheck h hh) fun r => ?_
      split
      · trivial
      · exact M.only_now hnow fun _ => M.only_now hnow fun _ => trivial

theorem currentStatus_only {P : Call → Prop} (hnow : P .now)
    (hstatus : ∀ h, job.infoHash = some h → P (.client (.status h))) :
    (currentStatus deps job).Only P := by
  unfold currentStatus
  split
  · trivial
  · rename_i h hh
    refine M.only_client (hstatus h hh) fun r => ?_
    split
    · trivial
    · trivial
    · split
      · exact M.only_now hnow fun _ => trivial
      · trivial
      · trivial

theorem verify_only {P : Call → Prop} (hnow : P .now)
    (hstatus : ∀ h, job.infoHash = some h → P (.client (.status h))) :
    (verify deps job).Only P := by
  refine (currentStatus_only hnow hstatus).bind fun r => ?_
  cases r <;> trivial

/-- A torrent is resumed only when the policy decides so. -/
theorem resume_only {P : Call → Prop} (hnow : P .now) (hpanic : P .panic)
    (hstatus : ∀ h, job.infoHash = some h → P (.client (.status h)))
    (hresume : ∀ h c, job.infoHash = some h →
      decideResume c job.materialization deps.policy job.resumeApproved = .resume →
        P (.client (.resume h))) : (resume deps job).Only P := by
  refine (currentStatus_only hnow hstatus).bind fun r => ?_
  split
  · trivial
  · split
    · trivial
    · rename_i hdecide
      cases hh : job.infoHash with
      | none => exact ⟨hpanic, fun e => nomatch e⟩
      | some h =>
        refine M.only_client (hresume h _ hh hdecide) fun r => ?_
        split <;> trivial

theorem checkClient_only {P : Call → Prop} {h : InfoHash} (hstatus : P (.client (.status h)))
    (hresume : ∀ c, decideResume c job.materialization deps.policy job.resumeApproved = .resume →
      P (.client (.resume h))) : (checkClient deps job h).Only P := by
  refine M.only_client hstatus fun r => ?_
  split
  · trivial
  · trivial
  · split
    · trivial
    · trivial
    · split
      · trivial
      · rename_i hdecide
        refine M.only_client (hresume _ hdecide) fun r => ?_
        split <;> trivial
    · trivial
    · trivial

theorem confirmWithTracker_only {P : Call → Prop} (hreads : ∀ c, Reads c → P c)
    (hstatus : ∀ h, job.infoHash = some h → P (.client (.status h)))
    (hresume : ∀ h c, job.infoHash = some h →
      decideResume c job.materialization deps.policy job.resumeApproved = .resume →
        P (.client (.resume h))) : (confirmWithTracker deps job).Only P := by
  unfold confirmWithTracker
  split_ifs
  · refine M.only_tracker (hreads _ trivial) fun r => ?_
    split
    · trivial
    · split
      · trivial
      · rename_i h hh
        refine (checkClient_only (hstatus h hh) fun c => hresume h c hh).bind fun r => ?_
        split
        · trivial
        · exact M.only_now (hreads _ trivial) fun _ => trivial
  · trivial

/-- A step reads the store and acts on the world outside it, and nothing else. -/
theorem step_stepCalls : (step deps job).Only StepCall := by
  unfold step
  split
  · exact fetchTorrent_reads.mono fun _ => .of_reads
  · exact matchMedia_reads.mono fun _ => .of_reads
  · exact stageFiles_gathers.mono fun _ => .of_gathers
  · exact inject_only (fun _ => .of_reads) fun _ _ _ _ _ => trivial
  · exact startRecheck_only trivial (fun _ _ => trivial) fun _ _ => trivial
  · exact verify_only trivial fun _ _ => trivial
  · exact resume_only trivial trivial (fun _ _ => trivial) fun _ _ _ _ => trivial
  · exact confirmWithTracker_only (fun _ => .of_reads) (fun _ _ => trivial)
      fun _ _ _ _ => trivial
  all_goals trivial

end

/-! ## What follows a step -/

section
variable {P : Call → Prop} {job : RepairJob}

/-- Parking writes one transition and tells of it. -/
theorem park_only {reason : ReviewReason} {detail : Option Json} {patch : JobPatch}
    (happly : ∀ t u, t.fromState = job.state → t.reason = .review reason →
      t.toState = .awaitingReview → P (.store (.apply job.id t u)))
    (hpublish : ∀ e, P (.publish e)) (hnotify : ∀ e, P (.notify e)) :
    (park job reason detail patch).Only P := by
  unfold park
  split
  · trivial
  · rename_i t ht
    obtain ⟨hfrom, hto, hreason, -⟩ := validateTransition_ok ht
    refine M.only_store (happly t _ hfrom hreason hto) fun r => ?_
    split
    · trivial
    · exact ⟨hpublish _, fun _ => ⟨hnotify _, fun _ => trivial⟩⟩

theorem recordAdvance_only {t : Transition} (hpublish : ∀ e, P (.publish e))
    (hnotify : ∀ e, P (.notify e)) : (recordAdvance job t).Only P := by
  unfold recordAdvance
  split_ifs
  · exact ⟨hnotify _, fun _ => ⟨hpublish _, fun _ => trivial⟩⟩
  · exact ⟨hpublish _, fun _ => trivial⟩

theorem settleWait_only {after : Duration} {patch : JobPatch} (hnow : P .now)
    (hrecord : P (.store (.recordProgress job.id patch))) (hpublish : ∀ e, P (.publish e)) :
    (settleWait job after patch).Only P := by
  unfold settleWait
  split_ifs
  · refine M.only_store hrecord fun r => ?_
    split
    · exact ⟨hnow, fun _ => trivial⟩
    · exact ⟨hpublish _, fun _ => ⟨hnow, fun _ => trivial⟩⟩
  · exact ⟨hnow, fun _ => trivial⟩

theorem stopForRetry_only {deps : RepairDeps} {attempts : ℕ} (hnow : P .now) :
    (stopForRetry deps job attempts).Only P := ⟨hnow, fun _ => ⟨hnow, fun _ => trivial⟩⟩

end

/-- What a conclusion has written to the job. -/
def StepOutcome.patch : StepOutcome → JobPatch
  | .advance _ patch | .review _ _ patch | .wait _ _ patch => patch
  | .rewind .. | .retry _ => .default

section
variable {P : Call → Prop} {deps : RepairDeps} {config : WorkerConfig} {job : RepairJob}
  {summary : TickSummary}

theorem proceed_only {id : JobId} (hrenew : P (.store (.renewLease id config.owner config.lease)))
    (hload : P (.store (.job id))) : (proceed config id).Only P := by
  have hrenewed : (renewLease config id).Only P := by
    refine M.only_store hrenew fun r => ?_
    split <;> trivial
  have hreload : (reload id).Only P := by
    refine M.only_store hload fun r => ?_
    split <;> trivial
  refine hrenewed.bind fun renewed => ?_
  split_ifs
  · refine hreload.bind fun next => ?_
    split <;> trivial
  · trivial

/-- Settling a step writes one transition or its progress, and tells of it. -/
theorem settle_only {outcome : StepOutcome}
    (happly : ∀ t u, t.fromState = job.state →
      t.reason = .progress ∨ (∃ r, t.reason = .review r) ∨ t.reason = .reconciliation →
        u.patch = outcome.patch ∨ u.patch = .default → P (.store (.apply job.id t u)))
    (hrecord : P (.store (.recordProgress job.id outcome.patch)))
    (hrenew : P (.store (.renewLease job.id config.owner config.lease)))
    (hload : P (.store (.job job.id))) (hnow : P .now) (hpublish : ∀ e, P (.publish e))
    (hnotify : ∀ e, P (.notify e)) : (settle deps config job summary outcome).Only P := by
  have hpark : ∀ reason detail patch, patch = outcome.patch ∨ patch = .default →
      (park job reason detail patch).Only P := by
    intro reason detail patch hpatch
    unfold park
    split
    · trivial
    · rename_i t ht
      obtain ⟨hfrom, -, hreason, -⟩ := validateTransition_ok ht
      refine M.only_store (happly t _ hfrom (.inr (.inl ⟨_, hreason⟩)) hpatch) fun r => ?_
      split
      · trivial
      · exact ⟨hpublish _, fun _ => ⟨hnotify _, fun _ => trivial⟩⟩
  cases outcome with
  | advance detail patch =>
    show (settleAdvance deps config job summary detail patch).Only P
    unfold settleAdvance
    split
    · trivial
    · rename_i t ht
      obtain ⟨hfrom, -, hreason⟩ := RepairJob.advance_ok ht
      refine M.only_store (happly t _ hfrom (.inl hreason) (.inl rfl)) fun r => ?_
      split
      · refine (recordAdvance_only hpublish hnotify).bind fun _ => ?_
        exact (proceed_only hrenew hload).bind fun _ => trivial
      · exact (proceed_only hrenew hload).bind fun _ => trivial
      · trivial
      · exact (stopForRetry_only hnow).bind fun _ => trivial
  | rewind target note =>
    have hrewind : (settleRewind job target note).Only P := by
      unfold settleRewind
      split
      · trivial
      · rename_i t ht
        obtain ⟨hfrom, -, hreason, -⟩ := validateTransition_ok ht
        refine M.only_store (happly t _ hfrom (.inr (.inr hreason)) (.inr rfl)) fun r => ?_
        split
        · trivial
        · have hreload : (reload job.id).Only P := by
            refine M.only_store hload fun r => ?_
            split <;> trivial
          refine ⟨hpublish _, fun _ => hreload.bind fun next => ?_⟩
          split <;> trivial
    exact hrewind.bind fun _ => trivial
  | review reason detail patch => exact (hpark _ _ _ (.inl rfl)).bind fun _ => trivial
  | wait after note patch =>
    exact (settleWait_only hnow hrecord hpublish).bind fun _ => trivial
  | retry error =>
    show (settleRetry deps job summary error).Only _
    unfold settleRetry
    simp only
    split_ifs
    · exact (hpark _ _ _ (.inr rfl)).bind fun _ => trivial
    · exact (stopForRetry_only hnow).bind fun _ => trivial

end

/-! ## Reconciliation -/

/-- A call of the reconciliation once stale leases are dropped. -/
def ReconcileCall : Call → Prop
  | .store (.plannedFiles _) | .store .unfinished | .store .parked => True
  | .store (.apply _ t u) => t.reason = .reconciliation ∧ u.patch = .default
  | .store (.setReviewResumePoint ..) => True
  | .client (.status _) | .staging (.inspect _) | .now | .publish _ => True
  | _ => False

section
variable {job : RepairJob}

/-- A call that looks at what became of a job. -/
def Asks : Call → Prop
  | .store (.plannedFiles _) | .client (.status _) | .staging (.inspect _) => True
  | _ => False

theorem realityBackedTarget_asks {starting : RepairState} :
    (realityBackedTarget job starting).Only Asks := by
  have hclient : (clientBackedTarget job starting).Only Asks := by
    unfold clientBackedTarget
    split_ifs
    · split
      · trivial
      · refine M.only_client trivial fun r => ?_
        split <;> trivial
    · trivial
  have hplan : (stagingPlan job).Only Asks := by
    unfold stagingPlan
    split
    · trivial
    · refine M.only_store trivial fun r => ?_
      split <;> trivial
  refine hclient.bind fun target => ?_
  unfold stagingBackedTarget
  split_ifs
  · refine hplan.bind fun plan => ?_
    split
    · trivial
    · refine M.only_staging trivial fun r => ?_
      split <;> trivial
  · trivial

theorem realityBackedTarget_reconciles {starting : RepairState} :
    (realityBackedTarget job starting).Only ReconcileCall := by
  refine realityBackedTarget_asks.mono fun c hc => ?_
  cases c with
  | store c => cases c <;> trivial
  | client c => cases c <;> trivial
  | staging c => cases c <;> trivial
  | _ => cases hc

theorem earliest_le_left (a b : RepairState) : reconcileRank (earliest a b) ≤ reconcileRank a := by
  unfold earliest
  split_ifs with h
  · exact le_rfl
  · exact (not_le.1 h).le

/-- Reality never calls for more than what was there. -/
theorem realityBackedTarget_backwards {starting : RepairState} :
    (realityBackedTarget job starting).Returns fun target =>
      reconcileRank target ≤ reconcileRank starting := by
  have hclient : (clientBackedTarget job starting).Returns fun target =>
      reconcileRank target ≤ reconcileRank starting := by
    unfold clientBackedTarget
    split_ifs
    · split
      · exact le_rfl
      · refine M.returns_client fun r => ?_
        split
        · exact earliest_le_left _ _
        · exact le_rfl
        · exact le_rfl
    · exact le_rfl
  refine hclient.bind fun target htarget => ?_
  unfold stagingBackedTarget
  split_ifs
  · refine (Returns.all _).bind fun plan _ => ?_
    split
    · exact htarget
    · refine M.returns_staging fun r => ?_
      split
      · exact htarget
      · exact htarget
      · exact (earliest_le_left _ _).trans htarget
  · exact htarget

theorem reconcileActionableJob_reconciles : (reconcileActionableJob job).Only ReconcileCall := by
  refine realityBackedTarget_reconciles.bind fun target => ?_
  split_ifs
  · trivial
  · split
    · trivial
    · rename_i t ht
      refine M.only_store ⟨(validateTransition_ok ht).2.2.1, rfl⟩ fun r => ?_
      split <;> trivial

theorem reconcileParkedJob_reconciles : (reconcileParkedJob job).Only ReconcileCall := by
  unfold reconcileParkedJob
  split
  · trivial
  · refine realityBackedTarget_reconciles.bind fun target => ?_
    split_ifs
    · trivial
    · refine M.only_store trivial fun r => ?_
      split <;> trivial

theorem countMoved_only {P : Call → Prop} {action : RepairJob → M Bool}
    (h : ∀ job, (action job).Only P) : ∀ jobs, (countMoved action jobs).Only P
  | [] => trivial
  | job :: jobs => (h job).bind fun _ => (countMoved_only h jobs).bind fun _ => trivial

/-- Reconciliation takes no step and touches no lease once stale ones are dropped. -/
theorem reconcileAfter_only {P : Call → Prop} {cleared : ℕ} (hP : ∀ c, ReconcileCall c → P c) :
    (reconcileAfter cleared).Only P := by
  refine Only.mono (P := ReconcileCall) (M.only_store trivial fun r => ?_) hP
  split
  · trivial
  · refine (countMoved_only (fun _ => reconcileActionableJob_reconciles) _).bind fun rewound => ?_
    have hparked : listParked.Only ReconcileCall := by
      refine M.only_store trivial fun r => ?_
      split <;> trivial
    refine hparked.bind fun parked => ?_
    refine (countMoved_only (fun _ => reconcileParkedJob_reconciles) _).bind fun corrected => ?_
    exact M.only_now trivial fun now => ⟨trivial, fun _ => trivial⟩

end

end SeedMedic
