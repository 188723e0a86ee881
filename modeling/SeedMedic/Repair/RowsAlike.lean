/-
  Two rows of one job that the worker goes on from alike: which columns a step reads, and what
  writes them before.
-/
import SeedMedic.Repair.Drive
import SeedMedic.Repair.Plans
import SeedMedic.Repair.Serve

namespace SeedMedic

open Lib Prog SqliteRepairStore

/-! ## How far a state has come -/

/-- The state is on the way, at `m` or past it. -/
def RepairState.since (m s : RepairState) : Bool :=
  match m.rank, s.rank with
  | some a, some b => a ≤ b
  | _, _ => false

namespace RepairState

theorem since_next {m s t : RepairState} (h : s.next = some t) (hm : m.since t = true) :
    m.since s = true ∨ t = m := by
  cases s <;> cases h <;> cases m <;> first | exact .inl rfl | exact .inr rfl | cases hm

theorem since_trans {m k s : RepairState} (hm : m.since k = true) (hk : k.since s = true) :
    m.since s = true := by
  unfold since at *
  cases hrm : m.rank with
  | none =>
    rw [hrm] at hm
    cases hm
  | some a =>
    cases hrk : k.rank with
    | none =>
      rw [hrk] at hk
      cases hk
    | some b =>
      cases hrs : s.rank with
      | none =>
        rw [hrk, hrs] at hk
        cases hk
      | some c =>
        rw [hrm, hrk] at hm
        rw [hrk, hrs] at hk
        have hab : a ≤ b := by simpa using hm
        have hbc : b ≤ c := by simpa using hk
        simpa using hab.trans hbc

theorem since_back {m s t : RepairState} {a b : ℕ} (hs : s.rank = some a) (ht : t.rank = some b)
    (hlt : b < a) (hm : m.since t = true) : m.since s = true := by
  unfold since at hm ⊢
  rw [ht] at hm
  rw [hs]
  cases hr : m.rank with
  | none =>
    rw [hr] at hm
    cases hm
  | some k =>
    rw [hr] at hm
    have hk : k ≤ b := by simpa using hm
    simpa using hk.trans hlt.le

end RepairState

/-! ## Rows alike -/

/-- Two rows of a job that differ only in what the worker writes before it reads it, and in what
    no step reads. Their info-hashes may differ until the torrent is fetched, if it is one that
    each of them expects, and their streaks of unknown answers if there are to be none. -/
structure RowsAlike (Served : InfoHash → Prop) (Unknown : Prop) (r r' : JobRow) : Prop where
  id : r.id = r'.id
  trackerId : r.trackerId = r'.trackerId
  trackerTorrentId : r.trackerTorrentId = r'.trackerTorrentId
  torrentName : r.torrentName = r'.torrentName
  state : r.state = r'.state
  reviewFromState : r.reviewFromState = r'.reviewFromState
  deadline : r.deadline = r'.deadline
  resumeApproved : r.resumeApproved = r'.resumeApproved
  attempts : r.attempts = r'.attempts
  nextAttemptAt : r.nextAttemptAt = r'.nextAttemptAt
  infoHash : r.infoHash = r'.infoHash ∨ (RepairState.torrentFetched.since r.state = false ∧
    ∀ hash, Served hash → r.infoHash.all (· = hash) = true ∧ r'.infoHash.all (· = hash) = true)
  unknown : r.consecutiveUnknownTrackerStatus = r'.consecutiveUnknownTrackerStatus ∨ ¬Unknown
  torrentFile : RepairState.torrentFetched.since r.state = true → r.torrentFile = r'.torrentFile
  stagingDir : RepairState.matched.since r.state = true → r.stagingDir = r'.stagingDir
  materialization :
    RepairState.staged.since r.state = true → r.materialization = r'.materialization
  recheckingStartedAt :
    RepairState.rechecking.since r.state = true → r.recheckingStartedAt = r'.recheckingStartedAt

/-- What has to be written on the way from one state to another for rows to stay alike. -/
structure JobPatch.Brings (patch : JobPatch) (src dst : RepairState) : Prop where
  infoHash : RepairState.torrentFetched.since dst = true →
    RepairState.torrentFetched.since src = true ∨ patch.infoHash.isSome
  torrentFile : RepairState.torrentFetched.since dst = true →
    RepairState.torrentFetched.since src = true ∨ patch.torrentFile.isSome
  stagingDir : RepairState.matched.since dst = true →
    RepairState.matched.since src = true ∨ patch.stagingDir.isSome
  materialization : RepairState.staged.since dst = true →
    RepairState.staged.since src = true ∨ patch.materialization.isSome
  recheckingStartedAt : RepairState.rechecking.since dst = true →
    RepairState.rechecking.since src = true ∨ patch.recheckingStartedAt.isSome
  /-- The plan is there from the torrent on. -/
  files : RepairState.torrentFetched.since dst = true →
    RepairState.torrentFetched.since src = true ∨ patch.files.isSome
  /-- From the match on it is not empty. -/
  planned : RepairState.matched.since dst = true →
    (RepairState.matched.since src = true ∧ patch.files = none) ∨
      ∃ files, patch.files = some files ∧ files ≠ []

/-- A move that comes no further than where things are written needs nothing. -/
theorem brings_of_since {patch : JobPatch} {src dst : RepairState}
    (h : ∀ m ∈ [RepairState.torrentFetched, .matched, .staged, .rechecking],
      m.since dst = true → m.since src = true)
    (hfiles : RepairState.matched.since dst = true → patch.files = none) :
    patch.Brings src dst where
  infoHash hm := .inl (h _ (by simp) hm)
  torrentFile hm := .inl (h _ (by simp) hm)
  stagingDir hm := .inl (h _ (by simp) hm)
  materialization hm := .inl (h _ (by simp) hm)
  recheckingStartedAt hm := .inl (h _ (by simp) hm)
  files hm := .inl (h _ (by simp) hm)
  planned hm := .inl ⟨h _ (by simp) hm, hfiles hm⟩

section
variable {Served : InfoHash → Prop} {Unknown : Prop} {r r' : JobRow}

/-- A column that both rows have alike, or that the patch writes, is alike after the patch. -/
theorem orElse_congr {α : Type} {p a b : Option α} (h : a = b ∨ p.isSome) :
    (p <|> a) = (p <|> b) := by
  cases p with
  | none => rw [h.resolve_right Bool.false_ne_true]
  | some x => rfl

theorem RowsAlike.patched (h : RowsAlike Served Unknown r r') (patch : JobPatch) (now : Stamp) :
    RowsAlike Served Unknown (patchRow patch now r) (patchRow patch now r') where
  id := h.id
  trackerId := h.trackerId
  trackerTorrentId := h.trackerTorrentId
  torrentName := h.torrentName
  state := h.state
  reviewFromState := h.reviewFromState
  deadline := h.deadline
  resumeApproved := congrArg patch.resumeApproved.getD h.resumeApproved
  attempts := h.attempts
  nextAttemptAt := h.nextAttemptAt
  infoHash := by
    show (patch.infoHash <|> r.infoHash) = (patch.infoHash <|> r'.infoHash) ∨ _
    cases hp : patch.infoHash with
    | some x => exact .inl rfl
    | none =>
      refine h.infoHash.imp (fun he => by rw [he]) fun hs => ?_
      simpa [patchRow, hp] using hs
  unknown := h.unknown.imp_left (congrArg patch.consecutiveUnknownTrackerStatus.getD)
  torrentFile hm := orElse_congr (.inl (h.torrentFile hm))
  stagingDir hm := orElse_congr (.inl (h.stagingDir hm))
  materialization hm := orElse_congr (.inl (h.materialization hm))
  recheckingStartedAt hm := orElse_congr (.inl (h.recheckingStartedAt hm))

/-- Once the torrent was fetched its info-hash is the same. -/
theorem RowsAlike.infoHash_eq (h : RowsAlike Served Unknown r r')
    (hm : RepairState.torrentFetched.since r.state = true) : r.infoHash = r'.infoHash := by
  rcases h.infoHash with he | ⟨hnot, -⟩
  · exact he
  · rw [hnot] at hm
    cases hm

/-- A transition that writes what the state it leads to goes by keeps rows alike. -/
theorem RowsAlike.moved (h : RowsAlike Served Unknown r r') {t : Transition} {u : TransitionUpdate}
    (hleft : r.state = t.fromState) (hbrings : u.patch.Brings t.fromState t.toState)
    (now : Stamp) : RowsAlike Served Unknown
      (patchRow u.patch now (transitionRow t u.failureReason now r))
      (patchRow u.patch now (transitionRow t u.failureReason now r')) where
  id := h.id
  trackerId := h.trackerId
  trackerTorrentId := h.trackerTorrentId
  torrentName := h.torrentName
  state := rfl
  reviewFromState := rfl
  deadline := h.deadline
  resumeApproved := by
    show u.patch.resumeApproved.getD (if _ then false else r.resumeApproved) =
      u.patch.resumeApproved.getD (if _ then false else r'.resumeApproved)
    rw [h.resumeApproved]
  attempts := rfl
  nextAttemptAt := rfl
  infoHash := by
    show (u.patch.infoHash <|> r.infoHash) = (u.patch.infoHash <|> r'.infoHash) ∨
      RepairState.torrentFetched.since t.toState = false ∧ _
    cases hp : u.patch.infoHash with
    | some x => exact .inl rfl
    | none =>
      refine h.infoHash.imp (fun he => by rw [he]) fun hs => ⟨?_, ?_⟩
      · rw [hleft] at hs
        by_contra hm
        rcases hbrings.infoHash (by simpa using hm) with hsrc | hsome
        · rw [hs.1] at hsrc
          cases hsrc
        · rw [hp] at hsome
          cases hsome
      · simpa [patchRow, transitionRow, hp] using hs.2
  unknown := h.unknown.imp_left (congrArg u.patch.consecutiveUnknownTrackerStatus.getD)
  torrentFile hm := orElse_congr
    ((hbrings.torrentFile hm).imp_left fun hs => h.torrentFile (hleft ▸ hs))
  stagingDir hm := orElse_congr
    ((hbrings.stagingDir hm).imp_left fun hs => h.stagingDir (hleft ▸ hs))
  materialization hm := orElse_congr
    ((hbrings.materialization hm).imp_left fun hs => h.materialization (hleft ▸ hs))
  recheckingStartedAt hm := orElse_congr ((hbrings.recheckingStartedAt hm).imp
    (fun hs => h.recheckingStartedAt (hleft ▸ hs)) fun hs => by simpa using hs)

/-- Leases are no part of it. -/
theorem RowsAlike.leased (h : RowsAlike Served Unknown r r') {owner owner' : Option String}
    {expires expires' : Option Stamp} : RowsAlike Served Unknown
      { r with leaseOwner := owner, leaseExpiresAt := expires }
      { r' with leaseOwner := owner', leaseExpiresAt := expires' } := { h with }

end

/-! ## Steps on rows alike -/

section
variable {deps : RepairDeps} {job job' : RepairJob}

theorem matchMedia_congr (hid : job.id = job'.id) (hname : job.torrentName = job'.torrentName) :
    matchMedia deps job = matchMedia deps job' := by
  have hdefault : job.defaultStagingDir = job'.defaultStagingDir := by
    rw [RepairJob.defaultStagingDir_eq, RepairJob.defaultStagingDir_eq, hid]
  have hpieces : torrentPieces deps job = torrentPieces deps job' := by
    unfold torrentPieces
    rw [hid]
    refine congrArg (M.store _ >>= ·) (funext fun r => ?_)
    rcases r with e | _ | bytes <;> rfl
  have hverified : verifiedPlan deps job = verifiedPlan deps job' := by
    unfold verifiedPlan
    rw [hpieces]
  have houtcome : matchOutcome deps job = matchOutcome deps job' := by
    unfold matchOutcome
    rw [hdefault]
  unfold matchMedia
  rw [hid, hname, hverified, houtcome]
  refine congrArg (M.store _ >>= ·) (funext fun r => ?_)
  rcases r with e | _ | ⟨f, files⟩ <;> rfl

theorem stageFiles_congr (hid : job.id = job'.id) (hdir : job.stagingDir = job'.stagingDir) :
    stageFiles deps job = stageFiles deps job' := by
  have hdefault : job.defaultStagingDir = job'.defaultStagingDir := by
    rw [RepairJob.defaultStagingDir_eq, RepairJob.defaultStagingDir_eq, hid]
  unfold stageFiles
  rw [hid, hdir, hdefault]
  refine congrArg (M.store _ >>= ·) (funext fun r => ?_)
  cases r <;> rfl

theorem inject_congr (hid : job.id = job'.id) (hhash : job.infoHash = job'.infoHash)
    (hdir : job.stagingDir = job'.stagingDir) : inject deps job = inject deps job' := by
  unfold inject
  rw [hid, hhash, hdir]
  split
  · refine congrArg (M.store _ >>= ·) (funext fun r => ?_)
    rcases r with e | _ | file <;> rfl
  · rfl

theorem startRecheck_congr (hhash : job.infoHash = job'.infoHash) :
    startRecheck job = startRecheck job' := by
  cases job
  cases job'
  cases hhash
  rfl

/-- What the steps on a torrent in the client go by. -/
structure SameCheck (job job' : RepairJob) : Prop where
  infoHash : job.infoHash = job'.infoHash
  materialization : job.materialization = job'.materialization
  recheckingStartedAt : job.recheckingStartedAt = job'.recheckingStartedAt
  resumeApproved : job.resumeApproved = job'.resumeApproved

/-- From the recheck on, rows that are alike have it all. -/
theorem RowsAlike.check {Served : InfoHash → Prop} {Unknown : Prop} {r r' : JobRow}
    (h : RowsAlike Served Unknown r r') (hm : RepairState.rechecking.since r.state = true) :
    SameCheck (readJob r) (readJob r') where
  infoHash := h.infoHash_eq (RepairState.since_trans (k := .rechecking) rfl hm)
  materialization := h.materialization (RepairState.since_trans (k := .rechecking) rfl hm)
  recheckingStartedAt := congrArg (Option.map parseTime) (h.recheckingStartedAt hm)
  resumeApproved := h.resumeApproved

theorem verify_congr (h : SameCheck job job') : verify deps job = verify deps job' := by
  obtain ⟨hhash, hhow, hbegan, happroved⟩ := h
  cases job
  cases job'
  cases hhash
  cases hhow
  cases hbegan
  rfl

theorem resume_congr (h : SameCheck job job') : resume deps job = resume deps job' := by
  obtain ⟨hhash, hhow, hbegan, happroved⟩ := h
  cases job
  cases job'
  cases hhash
  cases hhow
  cases hbegan
  cases happroved
  rfl

theorem checkClient_congr (h : SameCheck job job') (hash : InfoHash) :
    checkClient deps job hash = checkClient deps job' hash := by
  obtain ⟨hhash, hhow, hbegan, happroved⟩ := h
  cases job
  cases job'
  cases hhow
  cases happroved
  rfl

end

/-- A call of a step: it reads what is stored of the job, once its torrent was fetched. -/
def Consults (id : JobId) (fetched : Prop) : Call → Prop
  | .store (.torrentFile k) | .store (.plannedFiles k) => k = id ∧ fetched
  | .store _ | .enterStep _ => False
  | _ => True

section
variable {deps : RepairDeps} {job : RepairJob} {fetched : Prop}

theorem stageFiles_consults (hf : fetched) :
    (stageFiles deps job).Only (Consults job.id fetched) := by
  refine M.only_store ⟨rfl, hf⟩ fun r => ?_
  split
  · trivial
  · split
    · trivial
    · simp only
      split_ifs
      · trivial
      · refine M.only_staging trivial fun r => ?_
        split <;> trivial

theorem inject_consults (hf : fetched) : (inject deps job).Only (Consults job.id fetched) := by
  unfold inject
  split
  · refine M.only_store ⟨rfl, hf⟩ fun r => ?_
    split
    · trivial
    · trivial
    · refine M.only_client trivial fun r => ?_
      split
      · trivial
      · exact (M.only_expect _ trivial).bind fun _ => trivial
  · trivial

end

/-! ## Settling a step on rows alike -/

section
variable {deps : RepairDeps} {config : WorkerConfig} {job job' : RepairJob} {summary : TickSummary}

/-- What settling a step goes by. -/
structure SameStanding (job job' : RepairJob) : Prop where
  id : job.id = job'.id
  tracker : job.tracker = job'.tracker
  torrentName : job.torrentName = job'.torrentName
  state : job.state = job'.state
  reviewFromState : job.reviewFromState = job'.reviewFromState
  attempts : job.attempts = job'.attempts

theorem SameStanding.planTransition (h : SameStanding job job') (dst : RepairState)
    (reason : TransitionReason) :
    job.planTransition dst reason = job'.planTransition dst reason := by
  unfold RepairJob.planTransition
  rw [h.state, h.reviewFromState]

theorem park_congr (h : SameStanding job job') (reason : ReviewReason) (detail : Option Json)
    (patch : JobPatch) : park job reason detail patch = park job' reason detail patch := by
  unfold park
  rw [h.planTransition, h.id, h.state, h.tracker, h.torrentName]
  split
  · rfl
  · refine congrArg (M.store _ >>= ·) (funext fun r => ?_)
    cases r <;> rfl

theorem stopForRetry_congr (h : SameStanding job job') (attempts : ℕ) :
    stopForRetry deps job attempts = stopForRetry deps job' attempts := by
  unfold stopForRetry retryDelayFor
  rw [h.id]

theorem settle_congr (h : SameStanding job job') (outcome : StepOutcome) :
    settle deps config job summary outcome = settle deps config job' summary outcome := by
  have hrecord : recordAdvance job = recordAdvance job' := by
    unfold recordAdvance
    rw [h.id, h.tracker, h.torrentName]
  have hadvance : job.advance = job'.advance := by
    unfold RepairJob.advance
    rw [h.planTransition, h.state]
  cases outcome with
  | advance detail patch =>
    show settleAdvance deps config job summary detail patch =
      settleAdvance deps config job' summary detail patch
    unfold settleAdvance
    rw [hadvance, hrecord, h.id, h.attempts]
    split
    · rfl
    · refine congrArg (M.store _ >>= ·) (funext fun r => ?_)
      simp only [stopForRetry_congr h]
      rcases r with e | outcome
      · cases e <;> rfl
      · cases outcome <;> rfl
  | rewind target note =>
    have hrewind : settleRewind job target note = settleRewind job' target note := by
      unfold settleRewind
      rw [h.planTransition, h.id, h.state]
      split
      · rfl
      · refine congrArg (M.store _ >>= ·) (funext fun r => ?_)
        cases r <;> rfl
    simp only [settle, hrewind]
  | review reason detail patch =>
    simp only [settle, park_congr h]
  | wait after note patch =>
    have hwait : settleWait job after patch = settleWait job' after patch := by
      unfold settleWait
      rw [h.id]
      simp only
      split_ifs
      · refine congrArg (M.store _ >>= ·) (funext fun r => ?_)
        cases r <;> rfl
      · rfl
    simp only [settle, hwait]
  | retry error =>
    show settleRetry deps job summary error = settleRetry deps job' summary error
    unfold settleRetry
    simp only [h.attempts, park_congr h, stopForRetry_congr h]

/-- Rows that are alike stand alike. -/
theorem RowsAlike.standing {Served : InfoHash → Prop} {Unknown : Prop} {r r' : JobRow}
    (h : RowsAlike Served Unknown r r') : SameStanding (readJob r) (readJob r') :=
  ⟨h.id, h.trackerId, h.torrentName, h.state, h.reviewFromState, congrArg asU32 h.attempts⟩

end

/-! ## What a step that succeeds has written -/

/-- A conclusion that, where it leads on, writes what the next state goes by. -/
def StepOutcome.Brings (src : RepairState) (outcome : StepOutcome) : Prop :=
  ∀ detail patch, outcome = .advance detail patch → ∀ dst, src.next = some dst →
    patch.Brings src dst

theorem StepOutcome.brings_hold {src : RepairState} {reason : ReviewReason} {detail : Json} :
    (StepOutcome.hold reason detail).Brings src := by
  intro _ _ h
  cases h

theorem StepOutcome.brings_retry {src : RepairState} {error : String} :
    (StepOutcome.retry error).Brings src := by
  intro _ _ h
  cases h

section
variable {deps : RepairDeps} {job : RepairJob}

theorem fetchTorrent_brings : (fetchTorrent deps job).Returns (StepOutcome.Brings .discovered) := by
  have hacquired : ∀ bytes, (acquired deps job bytes).Brings .discovered := by
    intro bytes
    unfold acquired
    split
    · exact StepOutcome.brings_hold
    · exact StepOutcome.brings_hold
    · exact StepOutcome.brings_hold
    · split_ifs
      · exact StepOutcome.brings_hold
      · intro detail patch h dst hdst
        cases h
        cases hdst
        exact ⟨fun _ => .inr rfl, fun _ => .inr rfl, fun hm => absurd hm (by decide),
          fun hm => absurd hm (by decide), fun hm => absurd hm (by decide), fun _ => .inr rfl,
          fun hm => absurd hm (by decide)⟩
  unfold fetchTorrent
  split_ifs
  · refine M.returns_tracker fun r => ?_
    split
    · exact hacquired _
    · exact StepOutcome.brings_hold
    · exact StepOutcome.brings_retry
  · exact StepOutcome.brings_hold

/-- An accepted plan is not empty. -/
theorem decideMatch_matched {plan : MatchPlan} {policy : SafetyPolicy}
    (h : decideMatch plan policy = .accept) : plan.matched ≠ [] := by
  intro hmatched
  unfold decideMatch at h
  split at h
  · cases h
  · cases h
  · rw [MatchPlan.lowestConfidence, hmatched] at h
    cases h

theorem matchMedia_brings :
    (matchMedia deps job).Returns (StepOutcome.Brings .torrentFetched) := by
  have houtcome : ∀ found plan report, (matchOutcome deps job found plan report).Returns
      (StepOutcome.Brings .torrentFetched) := by
    intro found plan report
    refine (Returns.all _).bind fun detail _ => ?_
    split
    · exact StepOutcome.brings_hold
    · rename_i haccept
      intro detail patch h dst hdst
      cases h
      cases hdst
      refine ⟨fun _ => .inl rfl, fun _ => .inl rfl, fun _ => .inr rfl,
        fun hm => absurd hm (by decide), fun hm => absurd hm (by decide), fun _ => .inl rfl,
        fun _ => .inr ⟨_, rfl, ?_⟩⟩
      simpa [matchedFiles] using decideMatch_matched haccept
  refine M.returns_store fun r => ?_
  split
  · exact StepOutcome.brings_retry
  · exact StepOutcome.brings_hold
  · refine (Returns.all _).bind fun found _ => ?_
    split_ifs
    · exact StepOutcome.brings_hold
    · exact StepOutcome.brings_retry
    · exact (Returns.all _).bind fun _ _ => houtcome _ _ _

/-- Staging gives every file of a plan that is not empty its strategy. -/
def Fills (id : JobId) : (c : Call) → Ans c → Prop
  | .store (.plannedFiles k), .ok planned => k = id → planned ≠ []
  | .staging (.materialize plan _), .ok layout => plan.items ≠ [] → layout.files ≠ []
  | _, _ => True

/-- The rules for readings of a job whose answers are such. -/
def filling (id : JobId) : Rules Call Ans Unit where
  may c _ := Consults id True c
  next c r _ _ := Fills id c r

theorem summaryStrategy_isSome {layout : StagedLayout} (h : layout.files ≠ []) :
    layout.summaryStrategy.isSome := by
  unfold StagedLayout.summaryStrategy
  split_ifs
  · rfl
  · rfl
  · cases hf : layout.files with
    | nil => exact absurd hf h
    | cons f files => rfl

theorem stageFiles_brings : (stageFiles deps job).Obeys (filling job.id) ()
    fun outcome _ => outcome.Brings .matched := by
  refine M.obeys_store ⟨rfl, trivial⟩ fun r l hplanned => ?_
  split
  · exact StepOutcome.brings_retry
  · rename_i planned
    have hne : planned ≠ [] := hplanned rfl
    split
    · exact StepOutcome.brings_hold
    · rename_i items hitems
      simp only
      split_ifs
      · exact StepOutcome.brings_hold
      · refine M.obeys_staging trivial fun r l hlayout => ?_
        split
        · rename_i e
          intro detail patch h
          cases e <;> cases h
        · rename_i layout
          have hfiles : layout.files ≠ [] := by
            refine hlayout fun hnil => hne ?_
            have hsame := stagingItems_ok hitems
            change items = [] at hnil
            rw [hnil] at hsame
            simpa using hsame.symm
          intro detail patch h dst hdst
          cases h
          cases hdst
          refine ⟨fun _ => .inl rfl, fun _ => .inl rfl, fun _ => .inl rfl,
            fun _ => .inr (summaryStrategy_isSome hfiles), fun hm => absurd hm (by decide),
            fun _ => .inl rfl, fun _ => .inr ⟨_, rfl, ?_⟩⟩
          simpa [stagedFiles] using hne

/-- A recheck that was started is dated. -/
theorem startRecheck_brings : (startRecheck job).Returns (StepOutcome.Brings .injected) := by
  unfold startRecheck
  split
  · exact StepOutcome.brings_hold
  · refine M.returns_client fun r => ?_
    split
    · intro detail patch h
      cases h
    · rename_i e
      intro detail patch h
      cases e <;> cases h
    · refine M.returns_client fun r => ?_
      split
      · rename_i e
        intro detail patch h
        cases e <;> cases h
      · refine M.returns_now fun _ => M.returns_now fun _ => ?_
        intro detail patch h dst hdst
        cases h
        cases hdst
        exact ⟨fun _ => .inl rfl, fun _ => .inl rfl, fun _ => .inl rfl, fun _ => .inl rfl,
          fun _ => .inr rfl, fun _ => .inl rfl, fun _ => .inl ⟨rfl, rfl⟩⟩

/-- The other steps write no plan, and lead to no state that goes by more. -/
theorem brings_of_planless {outcome : StepOutcome} {src : RepairState}
    (h : outcome.patch.Planless)
    (hlate : src ∈ [RepairState.staged, .rechecking, .verified, .seeding]) :
    outcome.Brings src := by
  intro detail patch ho dst hdst
  cases ho
  refine brings_of_since ?_ fun _ => h.files
  simp only [List.mem_cons, List.not_mem_nil, or_false] at hlate
  rcases hlate with rfl | rfl | rfl | rfl <;> cases hdst <;> decide

end

end SeedMedic
