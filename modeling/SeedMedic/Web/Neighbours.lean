/-
  What an operator's action on one job leaves of the torrents and the staged data of the others.
-/
import SeedMedic.Lib.Pool
import SeedMedic.Web.Calls
import SeedMedic.Web.Reclaim

namespace SeedMedic

open Lib Prog Circumstances

/-! ## The actions on a job -/

/-- What an operator can do to a job. -/
inductive ReviewAction where
  | retry
  | approveResume
  | chooseCandidate (submittedPath : String) (candidateIndex : ℕ)
  | abandon
  | abandonAndDiscard
  | restart
  | discardStaging

namespace ReviewAction

/-- An action on a job, whatever is made of its result. -/
def run (id : JobId) : ReviewAction → M Unit
  | retry => retryAction id >>= fun _ => pure ()
  | approveResume => approveResumeAction id >>= fun _ => pure ()
  | chooseCandidate path index => chooseCandidateAction id path index >>= fun _ => pure ()
  | abandon => abandonAction id >>= fun _ => pure ()
  | abandonAndDiscard => abandonAndDiscardAction id >>= fun _ => pure ()
  | restart => restartAction id >>= fun _ => pure ()
  | discardStaging => SeedMedic.discardStaging id >>= fun _ => pure ()

/-- Whether an action takes the torrent of the job it loaded out of the client, and deletes what
    is staged for it. -/
def Discards (job : RepairJob) : ReviewAction → Prop
  | abandonAndDiscard | restart => True
  | discardStaging => job.state = .completed ∧ job.stagingDir.isSome
  | _ => False

end ReviewAction

/-! ## The other jobs -/

/-- Where the files of a job are staged. -/
def RepairJob.stagedIn (job : RepairJob) : SafeRelativePath :=
  job.stagingDir.getD job.defaultStagingDir

/-- A job that is neither completed nor failed. -/
def RepairJob.Unfinished (job : RepairJob) : Prop := job.state.isTerminal = false

/-- The client holds a job's torrent, and everything staged for it lies there, as before. -/
structure Spared (w w' : Outside) (job : RepairJob) : Prop where
  torrent : Holds w' job ↔ Holds w job
  staged : ∀ path, isWithin job.stagedIn path = true → w'.staged path = w.staged path

theorem spared_refl (w : Outside) (job : RepairJob) : Spared w w job := ⟨.rfl, fun _ _ => rfl⟩

/-- At no call of the action is the torrent of another unfinished job, or its staged data, any
    different from before. -/
def LeavesOthers (e : Circumstances) (w : Outside) (id : JobId) (action : ReviewAction) : Prop :=
  ∀ n other, w.store.job other.id = some other → other.id ≠ id → other.Unfinished →
    Spared w (System.drive e.handle n (action.run id) w).2 other

/-- Two jobs are for the same torrent, and the client holds it and lets it go. -/
def SharesTorrent (e : Circumstances) (w : Outside) (job other : RepairJob) : Prop :=
  ∃ infoHash, job.infoHash = some infoHash ∧ other.infoHash = some infoHash ∧
    infoHash ∈ w.torrents ∧ e.removes = true

/-- Something staged for one job lies in the directory of another, and the discard deletes it. -/
def SharesStaged (e : Circumstances) (w : Outside) (job other : RepairJob) : Prop :=
  ∃ dir path, job.stagingDir = some dir ∧ isWithin dir path = true ∧
    isWithin other.stagedIn path = true ∧ e.deletes path = true ∧ w.staged path ≠ none

/-- No other unfinished job has anything in common with the one an action discards. -/
def Alone (e : Circumstances) (w : Outside) (id : JobId) (action : ReviewAction) : Prop :=
  ∀ job, e.loadError = none → w.store.job id = some job → action.Discards job →
    ∀ other, w.store.job other.id = some other → other.id ≠ id → other.Unfinished →
      ¬SharesTorrent e w job other ∧ ¬SharesStaged e w job other

variable {e : Circumstances} {w : Outside} {id : JobId} {job other : RepairJob}

/-! ## What a discard takes away -/

/-- A job keeps its torrent where another's is removed, unless the two share it. -/
theorem holds_after_iff :
    (Holds ⟨w.store, e.torrentsAfter w job, w.staged⟩ other ↔ Holds w other) ↔
      ¬SharesTorrent e w job other := by
  unfold Holds torrentsAfter SharesTorrent remove
  cases hj : job.infoHash with
  | none => simp
  | some h =>
    cases ho : other.infoHash with
    | none => simp
    | some h' =>
      by_cases hr : e.removes = true
      · by_cases heq : h' = h
        · subst heq
          simp [hr]
        · simp [hr, heq]
      · simp [hr]

/-- A job keeps what is staged for it where another's directory is discarded, unless something
    lies in both. -/
theorem staged_after_iff :
    (∀ path, isWithin other.stagedIn path = true → e.stagedAfter w job path = w.staged path) ↔
      ¬SharesStaged e w job other := by
  unfold stagedAfter SharesStaged Circumstances.discard
  cases hd : job.stagingDir with
  | none => simp
  | some dir =>
    constructor
    · rintro h ⟨dir', path, hdir, hin, hother, hdel, hstaged⟩
      obtain rfl := Option.some.inj hdir
      have hkept := h path hother
      simp only [hin, hdel, Bool.and_self, if_true] at hkept
      exact hstaged hkept.symm
    · intro h path hother
      by_cases hstaged : w.staged path = none
      · simp [hstaged]
      · have hnot : (isWithin dir path && e.deletes path) = false := by
          rw [Bool.and_eq_false_iff]
          by_contra hboth
          rw [not_or, Bool.not_eq_false, Bool.not_eq_false] at hboth
          exact h ⟨dir, path, rfl, hboth.1, hother, hboth.2, hstaged⟩
        simp [hnot]

/-! ## What the calls of an action reach -/

/-- A call that reaches neither the client nor the staging area. -/
def Bookkeeping : Call → Prop
  | .client _ | .staging _ => False
  | _ => True

theorem allowsReviews_bookkeeping : AllowsReviews Bookkeeping where
  job _ := trivial
  history _ := trivial
  plannedFiles _ := trivial
  recordProgress _ _ := trivial
  apply _ _ _ _ _ := trivial
  publish _ := trivial
  panic := trivial

/-- A call that reaches the client and the staging area only for what is a job's. -/
def ReachesOnly (job : RepairJob) : Call → Prop
  | .client (.remove infoHash _) => job.infoHash = some infoHash
  | .staging (.discard dir) => job.stagingDir = some dir
  | c => Bookkeeping c

theorem reachesOnly_of_bookkeeping {c : Call} (h : Bookkeeping c) : ReachesOnly job c := by
  cases c with
  | client c => cases h
  | staging c => cases h
  | _ => trivial

section
variable {w' : Outside} {c : Call} {r : Ans c × Outside}

theorem bookkeeping_leaves (h : Spared w w' other) (hc : Bookkeeping c)
    (hr : e.handle c w' = some r) : Spared w r.2 other := by
  cases c with
  | store c =>
    cases hr
    exact ⟨h.torrent, h.staged⟩
  | client c => cases hc
  | staging c => cases hc
  | publish event =>
    cases hr
    exact h
  | _ => cases hr

/-- A call for a job leaves another as it is, unless the two have something in common. -/
theorem Spared.handled (h : Spared w w' other) (htorrent : ¬SharesTorrent e w job other)
    (hstaged : ¬SharesStaged e w job other) (hc : ReachesOnly job c) (hr : e.handle c w' = some r) :
    Spared w r.2 other := by
  have hbook : Bookkeeping c → Spared w r.2 other := fun hb => bookkeeping_leaves h hb hr
  cases c with
  | client c =>
    cases c with
    | remove infoHash deleteFiles =>
      cases hr
      refine ⟨?_, h.staged⟩
      rw [← h.torrent]
      refine exists_congr fun k => and_congr_right fun hk => ?_
      simp only [remove]
      split_ifs with hremoves
      · rw [Finset.mem_erase, and_iff_right_iff_imp]
        rintro hheld rfl
        obtain ⟨k', hk', hw⟩ := h.torrent.1 ⟨k, hk, hheld⟩
        rw [hk] at hk'
        cases hk'
        exact htorrent ⟨k, hc, hk, hw, hremoves⟩
      · exact Iff.rfl
    | _ => cases hc
  | staging c =>
    cases c with
    | discard dir =>
      cases hr
      refine ⟨h.torrent, fun path hpath => ?_⟩
      rw [← h.staged path hpath]
      simp only [Circumstances.discard]
      split_ifs with hgone
      · rw [Bool.and_eq_true] at hgone
        by_contra hne
        refine hstaged ⟨dir, path, hc, hgone.1, hpath, hgone.2, ?_⟩
        rw [← h.staged path hpath]
        exact fun hnone => hne hnone.symm
      · rfl
    | _ => cases hc
  | _ => exact hbook trivial

/-- What is handed over when a job is loaded. -/
theorem loaded_leaves {k : Except StoreError (Option RepairJob) → M Unit}
    (hnone : ∀ r, (∀ job, r ≠ .ok (some job)) → (k r).Only Bookkeeping)
    (hsome : ∀ job, e.loadError = none → w.store.job id = some job →
      (k (.ok (some job))).Only Bookkeeping ∨ (k (.ok (some job))).Only (ReachesOnly job) ∧
        ¬SharesTorrent e w job other ∧ ¬SharesStaged e w job other) (n : ℕ) :
    Spared w (System.drive e.handle n (M.store (.job id) >>= k) w).2 other := by
  have hbook : ∀ {r} n, (k r).Only Bookkeeping →
      Spared w (System.drive e.handle n (k r) w).2 other := fun n h =>
    System.drive_keeps (I := fun w' => Spared w w' other)
      (fun _ _ _ hc hw hr => bookkeeping_leaves hw hc hr) n h (spared_refl w other)
  cases n with
  | zero => exact spared_refl w other
  | succ n =>
    have hstep : ∀ {r}, e.handle (.store (.job id)) w = some (r, w) →
        System.drive e.handle (n + 1) (M.store (.job id) >>= k) w = System.drive e.handle n (k r) w := by
      intro r hr
      rw [show (M.store (.job id) >>= k) = .call (.store (.job id)) k from rfl]
      simp only [System.drive, hr]
    cases he : e.loadError with
    | some error =>
      rw [hstep (r := .error error) (by simp [handle, answer, he])]
      exact hbook n (hnone _ fun _ h => by cases h)
    | none =>
      rw [hstep (r := .ok (w.store.job id)) (by simp [handle, answer, he])]
      cases hjob : w.store.job id with
      | none => exact hbook n (hnone _ fun _ h => by cases h)
      | some job =>
        rcases hsome job he hjob with hb | ⟨hreach, htorrent, hstaged⟩
        · exact hbook n hb
        · exact System.drive_keeps (I := fun w' => Spared w w' other)
            (fun _ _ _ hc hw hr => hw.handled htorrent hstaged hc hr) n hreach (spared_refl w other)

end

/-! ## What an action leaves of the others -/

theorem allowsRetries_bookkeeping : AllowsRetries Bookkeeping := fun _ _ _ _ _ => trivial

/-- Discarding a job and moving it leaves a job alone that has nothing in common with it. -/
theorem withJob_leaves {target : RepairState} {reason : TransitionReason} {u : JobId → TransitionUpdate}
    (hreason : reason = .operatorAbandon ∨ reason = .operatorRestart)
    (hu : ∀ job : RepairJob, (u job.id).patch.PlanOnly job.id)
    (halone : ∀ job, e.loadError = none → w.store.job id = some job →
      ¬SharesTorrent e w job other ∧ ¬SharesStaged e w job other) (n : ℕ) :
    Spared w (System.drive e.handle n
      (withJob id (fun job => discardThen job target reason (u job.id)) >>= fun _ => pure ()) w).2
        other := by
  unfold withJob
  rw [Prog.bind_assoc]
  refine loaded_leaves (fun r hr => ?_) (fun job hload hjob => .inr ⟨?_, halone job hload hjob⟩) n
  · split
    · trivial
    · trivial
    · exact absurd rfl (hr _)
  · exact (discardThen_own (AllowsReviews.mono allowsReviews_bookkeeping
      fun _ => reachesOnly_of_bookkeeping) (fun _ h => h) (fun _ h => h) hreason (hu job)).bind
        fun _ => trivial

/-- Reclaiming a completed job leaves a job alone that has nothing in common with it. -/
theorem discardStaging_leaves
    (halone : ∀ job, e.loadError = none → w.store.job id = some job → job.state = .completed →
      job.stagingDir.isSome → ¬SharesTorrent e w job other ∧ ¬SharesStaged e w job other) (n : ℕ) :
    Spared w (System.drive e.handle n (discardStaging id >>= fun _ => pure ()) w).2 other := by
  unfold discardStaging loadOrNotFound
  rw [Prog.bind_assoc, Prog.bind_assoc]
  refine loaded_leaves (fun r hr => ?_) (fun job hload hjob => ?_) n
  · split
    · trivial
    · trivial
    · exact absurd rfl (hr _)
  · simp only [Prog.ret_bind, Prog.pure_eq]
    split_ifs with hstate
    · exact .inl trivial
    cases hd : job.stagingDir with
    | none => exact .inl trivial
    | some dir =>
      refine .inr ⟨?_, halone job hload hjob (not_not.1 hstate) (by rw [hd]; rfl)⟩
      have hclear : (clearStaging id job dir).Only (ReachesOnly job) := by
        refine M.only_staging hd fun r => ?_
        split
        · trivial
        · refine ⟨trivial, fun _ => ?_⟩
          unfold actionOutcome loadOrNotFound
          rw [Prog.bind_assoc]
          refine M.only_store trivial fun r => ?_
          split
          · trivial
          · trivial
          · refine M.only_store trivial fun r => ?_
            split <;> trivial
      cases hh : job.infoHash with
      | none => exact hclear.bind fun _ => trivial
      | some infoHash => exact ⟨hh, fun _ => hclear.bind fun _ => trivial⟩

theorem leavesOthers_of_alone {action : ReviewAction} (h : Alone e w id action) :
    LeavesOthers e w id action := by
  intro n other hother hne hunfinished
  have hbook : ∀ {p : M Unit}, p.Only Bookkeeping →
      Spared w (System.drive e.handle n p w).2 other := fun hp =>
    System.drive_keeps (I := fun w' => Spared w w' other)
      (fun _ _ _ hc hw hr => bookkeeping_leaves hw hc hr) n hp (spared_refl w other)
  cases action with
  | retry =>
    exact hbook ((retryAction_only allowsReviews_bookkeeping
      allowsRetries_bookkeeping).bind fun _ => trivial)
  | approveResume =>
    exact hbook ((approveResumeAction_only allowsReviews_bookkeeping
      allowsRetries_bookkeeping).bind fun _ => trivial)
  | chooseCandidate path index =>
    exact hbook ((chooseCandidateAction_only allowsReviews_bookkeeping).bind fun _ => trivial)
  | abandon => exact hbook ((abandonAction_only allowsReviews_bookkeeping).bind fun _ => trivial)
  | abandonAndDiscard =>
    exact withJob_leaves (u := fun _ => _) (.inl rfl) (fun job => planOnly_default job.id)
      (fun job hload hjob => h job hload hjob trivial other hother hne hunfinished) n
  | restart =>
    exact withJob_leaves (u := fun _ => _) (.inr rfl) (fun job => planOnly_default job.id)
      (fun job hload hjob => h job hload hjob trivial other hother hne hunfinished) n
  | discardStaging =>
    exact discardStaging_leaves (fun job hload hjob hstate hdir =>
      h job hload hjob ⟨hstate, hdir⟩ other hother hne hunfinished) n

/-- An action that discards the job it loads takes its torrent and its directory away. -/
theorem discards_exec {action : ReviewAction} (hload : e.loadError = none)
    (hjob : w.store.job id = some job) (hd : action.Discards job) :
    ∃ r s, (action.run id).exec e.handle w =
      some (r, ⟨s, e.torrentsAfter w job, e.stagedAfter w job⟩) := by
  have hloads : ∀ {target reason} {u : TransitionUpdate}, u.patch.files = none →
      ∃ r s, (withJob id (fun job => discardThen job target reason u) >>= fun _ => pure ()).exec
        e.handle w = some (r, ⟨s, e.torrentsAfter w job, e.stagedAfter w job⟩) := by
    intro target reason u hu
    obtain ⟨r, s, hrun⟩ := discardThen_exec e w job target reason hu
    refine ⟨(), s, ?_⟩
    unfold withJob
    rw [Prog.bind_assoc, Circumstances.exec_store]
    simp only [Circumstances.answer, hload, hjob]
    rw [Prog.exec_bind, hrun]
    rfl
  cases action with
  | abandonAndDiscard => exact hloads rfl
  | restart => exact hloads rfl
  | discardStaging =>
    obtain ⟨dir, hdir⟩ := Option.isSome_iff_exists.1 hd.2
    obtain ⟨r, hrun⟩ := discardStaging_exec hload hjob hd.1 hdir
    refine ⟨(), w.store, ?_⟩
    rw [show ReviewAction.run id .discardStaging = discardStaging id >>= fun _ => pure () from rfl,
      Prog.exec_bind, hrun]
    rfl
  | _ => exact hd.elim

/-- An action leaves every other unfinished job's torrent and staged data as they are exactly when
    no such job shares its torrent with the one it discards, nor a place in the staging area. -/
theorem others_spared_iff {action : ReviewAction} :
    LeavesOthers e w id action ↔ Alone e w id action := by
  refine ⟨fun h job hload hjob hd other hother hne hunfinished => ?_, leavesOthers_of_alone⟩
  obtain ⟨r, s, hrun⟩ := discards_exec hload hjob hd
  obtain ⟨n, hn⟩ := System.exists_drive_of_exec hrun
  have hspared := h n other hother hne hunfinished
  rw [hn] at hspared
  exact ⟨holds_after_iff.1 hspared.torrent, staged_after_iff.1 hspared.staged⟩

/-! ## Jobs staged in their own directories -/

/-- What lies in the directories of two jobs lies in one. -/
theorem home_eq_of_isWithin {a b : JobId} {path : SafeRelativePath} (ha : isWithin a.home path = true)
    (hb : isWithin b.home path = true) : a = b := by
  have hparts : ∀ {i : JobId}, isWithin i.home path = true →
      (splitParts path.asStr).head? = some ("job-" ++ i.toText) := by
    intro i hi
    rw [isWithin, JobId.home, SafeRelativePath.splitParts_ofComponent, List.isPrefixOf_iff_prefix] at hi
    obtain ⟨rest, hrest⟩ := hi
    rw [← hrest]
    rfl
  have hsame := (hparts ha).symm.trans (hparts hb)
  exact JobId.toText_inj (by simpa using hsame)

/-- Jobs that are staged in their own directories can only have a torrent in common. -/
theorem not_sharesStaged (hjob : job.stagedIn = job.id.home) (hother : other.stagedIn = other.id.home)
    (hne : other.id ≠ job.id) : ¬SharesStaged e w job other := by
  rintro ⟨dir, path, hdir, hin, hin', -⟩
  have hhome : dir = job.id.home := by rw [← hjob, RepairJob.stagedIn, hdir, Option.getD_some]
  rw [hhome] at hin
  rw [hother] at hin'
  exact hne (home_eq_of_isWithin hin' hin)

/-- In a store whose jobs are all staged in their own directories, an action spares the others
    exactly when it takes no torrent of theirs. -/
theorem alone_iff_of_homed {action : ReviewAction}
    (hhome : ∀ job, w.store.job job.id = some job → job.stagedIn = job.id.home) :
    Alone e w id action ↔ ∀ job, e.loadError = none → w.store.job id = some job →
      action.Discards job → ∀ other, w.store.job other.id = some other → other.id ≠ id →
        other.Unfinished → ¬SharesTorrent e w job other := by
  refine forall_congr' fun job => forall_congr' fun _ => forall_congr' fun hjob =>
    forall_congr' fun _ => forall_congr' fun other => forall_congr' fun hother =>
      forall_congr' fun hne => forall_congr' fun _ => and_iff_left ?_
  have hid : job.id = id := by
    obtain ⟨row, hrow, rfl⟩ := Option.map_eq_some_iff.1 hjob
    exact (Table.get?_some hrow).2
  exact not_sharesStaged (hhome job (by rw [hid]; exact hjob)) (hhome other hother)
    (by rw [hid]; exact hne)

/-! ## One torrent, two trackers -/

/-- A torrent of which two trackers report a hit-and-run. -/
def sharedTorrent : InfoHash := ⟨Vector.replicate 20 7⟩

/-- The job of one tracker waits for an operator, that of the other seeds. -/
def sharedOutside : Outside where
  store :=
    { jobs := ⟨[{ discoveredRow ⟨1⟩ 0 ⟨⟨"alpha"⟩, ⟨"7"⟩, "show", none, 10, none⟩ with
          state := .awaitingReview, infoHash := some sharedTorrent, stagingDir := some (JobId.home ⟨1⟩) },
        { discoveredRow ⟨2⟩ 0 ⟨⟨"beta"⟩, ⟨"31"⟩, "show", none, 10, none⟩ with
          state := .seeding, infoHash := some sharedTorrent, stagingDir := some (JobId.home ⟨2⟩) }],
        by simp [discoveredRow]⟩
      files := .empty
      transitions := []
      jobSeq := 2 }
  torrents := {sharedTorrent}
  staged := fun _ => none

/-- A restart of one job takes the torrent of the other out of the client. -/
theorem restart_takes_shared_torrent : ¬LeavesOthers quiet sharedOutside ⟨1⟩ .restart := by
  intro h
  obtain ⟨job, hjob, hhash⟩ : ∃ job, sharedOutside.store.job ⟨1⟩ = some job ∧
      job.infoHash = some sharedTorrent := ⟨_, rfl, rfl⟩
  obtain ⟨other, hother, hid, hstate, hhash'⟩ : ∃ other, sharedOutside.store.job ⟨2⟩ = some other ∧
      other.id = ⟨2⟩ ∧ other.state = .seeding ∧ other.infoHash = some sharedTorrent :=
    ⟨_, rfl, rfl, rfl, rfl⟩
  have halone := others_spared_iff.1 h job rfl hjob trivial other (by rw [hid]; exact hother)
    (by rw [hid]; decide) (by rw [RepairJob.Unfinished, hstate]; rfl)
  exact halone.1 ⟨sharedTorrent, hhash, hhash', by simp [sharedOutside], rfl⟩

end SeedMedic
