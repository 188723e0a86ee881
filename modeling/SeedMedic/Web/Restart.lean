/-
  What a restart leaves behind: the worker's run on a job that was started over, beside its run on
  a job that was just discovered.
-/
import SeedMedic.Repair.MatchedPlan
import SeedMedic.Repair.Rerun
import SeedMedic.Web.Calls

namespace SeedMedic

open Lib Prog SqliteRepairStore

/-! ## The row of a job started over -/

/-- The row after a restart: what the transition resets is as it is when a job is discovered, and
    nothing else is touched. -/
def restartedRow (t : Transition) (now : Stamp) (r : JobRow) : JobRow :=
  patchRow .default now (transitionRow t none now r)

/-- A store with the job's row restarted. -/
def RestartedIn (id : JobId) (r : JobRow) (s : SqliteRepairStore) : Prop :=
  ∃ t now, t.toState = .discovered ∧ t.reason = .operatorRestart ∧
    s.jobs.get? id = some (restartedRow t now r)

/-- The rules of a store that nobody else writes to. -/
def undisturbed : Rules Call Ans SqliteRepairStore where
  may _ _ := True
  next c r s s' := ∃ now, s.Replies now c r s'

/-- Nothing is written while what is staged is discarded. -/
theorem discardStaged_undisturbed {job : RepairJob} {s : SqliteRepairStore} :
    (discardStaged job).Obeys undisturbed s fun _ s' => s' = s := by
  have hcalls : (discardStaged job).Only fun c => ∀ store, c ≠ .store store :=
    discardStaged_only (fun _ _ _ h => by cases h) fun _ _ _ h => by cases h
  refine hcalls.obeys (I := fun s' => s' = s) rfl fun c s₁ hc hs => ⟨trivial, fun r s₂ hn => ?_⟩
  obtain ⟨now, hreply⟩ := hn
  rcases hreply.wrote with ⟨store, rfl, -⟩ | rfl
  · exact absurd rfl (hc store)
  · exact hs

/-- A restart that succeeds leaves the job's row restarted. -/
theorem restartAction_restarts {id : JobId} {s : SqliteRepairStore} {r : JobRow}
    (hr : s.jobs.get? id = some r) : (restartAction id).Obeys undisturbed s
      fun result s' => result = .ok () → RestartedIn id r s' := by
  have hnot : ∀ {e : WebError} {P : Prop}, (Except.error e : Except WebError Unit) = .ok () → P :=
    fun h => by cases h
  refine M.obeys_store trivial fun a s₁ hn => ?_
  obtain ⟨now, hanswer⟩ := hn
  have hjob : s.job id = some (readJob r) := by rw [job, hr]; rfl
  rcases Answers.served_or_failed hanswer with ⟨rfl, rfl⟩ | ⟨detail, rfl, rfl⟩
  · simp only [answer, hjob]
    refine discardStaged_undisturbed.bind fun discarded s₂ hs₂ => ?_
    subst hs₂
    cases discarded with
    | error e => exact hnot
    | ok done =>
      simp only
      unfold applyAction
      split
      · exact hnot
      · rename_i t ht
        obtain ⟨hfrom, hto, hreason, hlegal⟩ := validateTransition_ok ht
        have hsrc : r.state ≠ .discovered := by
          intro hd
          rw [show (readJob r).state = r.state from rfl, hd] at hlegal
          cases hlegal
        refine M.obeys_store trivial fun a s₂ hn => ?_
        obtain ⟨now₂, hreply⟩ := hn
        split
        · exact hnot
        · refine M.obeys_publish trivial fun s₃ hn => ?_
          obtain ⟨now₃, rfl⟩ := hn
          intro _
          rcases Answers.served_or_failed hreply with ⟨hans, rfl⟩ | ⟨detail, hans, -⟩
          · have hid : (readJob r).id = id := (Table.get?_some hr).2
            simp only [answer, hid] at hans ⊢
            cases happly : s₂.apply now₂ id t (.withDetail
                (operatorJson "restart" [("staging_discarded", .bool true)])) with
            | error e =>
              rw [happly] at hans
              cases hans
            | ok a =>
              obtain ⟨a, s₃⟩ := a
              obtain ⟨r₁, hr₁, ⟨rfl, -⟩ | ⟨-, hstate, -⟩⟩ := apply_ok happly
              · refine ⟨t, timestamp now₂, hto, hreason, ?_⟩
                show s₃.jobs.get? id = _
                rw [apply_applied_get happly, hr, Option.map_some, movedRow,
                  if_pos (Table.get?_some hr).2]
                rfl
              · cases hr.symm.trans hr₁
                exact absurd (hstate.trans hto) hsrc
          · cases hans
  · exact hnot

/-! ## Beside a job just discovered -/

/-- The row a job is started over from is the tracker's hit-and-run: what names the job, and the
    deadline. -/
structure Names (h : HitAndRun) (r : JobRow) : Prop where
  tracker : r.trackerId = h.tracker
  torrentId : r.trackerTorrentId = h.torrentId
  torrentName : r.torrentName = h.torrentName
  deadline : r.deadline = h.deadline.map timestamp

/-- What a row has learned has nothing to say in such surroundings: its info-hash is the one that
    the tracker reports, or that of every torrent the tracker serves; its streak of unknown answers
    is over, or there will be no such answer; and no approval stands. -/
structure Unlearned (w : Environs) (deps : RepairDeps) (h : HitAndRun) (r : JobRow) : Prop where
  infoHash : r.infoHash = h.infoHash ∨ ∀ hash, w.Serves deps hash →
    r.infoHash.all (· = hash) = true ∧ h.infoHash.all (· = hash) = true
  unknown : r.consecutiveUnknownTrackerStatus = 0 ∨ ¬w.Wavers
  resumeApproved : r.resumeApproved = false

/-- A row restarted is like a row discovered. -/
theorem rowsAlike_restarted {w : Environs} {deps : RepairDeps} {h : HitAndRun} {r : JobRow}
    (hnames : Names h r) (hunlearned : Unlearned w deps h r) {t : Transition}
    (hto : t.toState = .discovered) (now now' : Stamp) :
    RowsAlike (w.Serves deps) w.Wavers (restartedRow t now r) (discoveredRow r.id now' h) := by
  have hstate : (restartedRow t now r).state = .discovered := hto
  refine ⟨rfl, hnames.tracker, hnames.torrentId, hnames.torrentName, hto, ?_, hnames.deadline, ?_,
    rfl, rfl, ?_, hunlearned.unknown, ?_, ?_, ?_, ?_⟩
  · show (if t.toState = .awaitingReview then some t.fromState else none) = none
    rw [hto]
    rfl
  · show (if t.toState = .awaitingReview then false else r.resumeApproved) = false
    rw [hto, hunlearned.resumeApproved]
    rfl
  · rw [hstate]
    exact hunlearned.infoHash.imp_right fun hserved => ⟨rfl, hserved⟩
  all_goals
    rw [hstate]
    intro hm
    cases hm

/-- After a restart the worker's run on a job is its run on a job just discovered: it asks the
    tracker, the library, the staging area and the client the same and is told the same, and writes
    the same transitions. -/
theorem restart_forgets {deps : RepairDeps} {config : WorkerConfig} {w w₀ : Environs} {id : JobId}
    {s₀ s₁ : Course} {r : JobRow} {s' : SqliteRepairStore} {now : Stamp} {h : HitAndRun}
    (hrow : s₀.store.jobs.get? id = some r)
    (hrestart : (restartAction id).carry w₀.handle s₀ = (some (.ok ()), s₁))
    (hfresh : s'.jobs.get? id = some (discoveredRow id now h)) (hnames : Names h r)
    (hstages : w.StagesAll) (hunlearned : Unlearned w deps h r) (n : ℕ) :
    (Course.run deps config w id n ⟨[], s₁.store⟩).heard =
        (Course.run deps config w id n ⟨[], s'⟩).heard ∧
      ∃ rows, (Course.run deps config w id n ⟨[], s₁.store⟩).store.transitions =
          s₁.store.transitions ++ rows ∧
        (Course.run deps config w id n ⟨[], s'⟩).store.transitions = s'.transitions ++ rows := by
  have hreplies : ∀ (c : Call) (s : Course) (l : SqliteRepairStore) (a : Ans c) (t : Course),
      s.store = l → undisturbed.may c l → w₀.handle c s = (some a, t) →
        ∃ l', undisturbed.next c a l l' ∧ t.store = l' := by
    rintro c s _ a t rfl - ha
    exact ⟨t.store, Environs.handle_replies ha, rfl⟩
  obtain ⟨s₂, hrestarted, hs₂⟩ := (restartAction_restarts hrow).carry
    (I := fun (s : Course) l => s.store = l) rfl hreplies (congrArg Prod.fst hrestart)
  rw [hrestart] at hs₂
  subst hs₂
  obtain ⟨t, now₁, hto, hreason, hget⟩ := hrestarted rfl
  have hid : r.id = id := (Table.get?_some hrow).2
  have hside : Alongside (w.Serves deps) w.Wavers s₁.store.transitions s'.transitions id
      ⟨[], s₁.store⟩ ⟨[], s'⟩ := by
    refine ⟨restartedRow t now₁ r, discoveredRow id now h, rfl, ⟨[], ?_, ?_⟩, hget, hfresh,
      hid ▸ rowsAlike_restarted hnames hunlearned hto now₁ now, ?_, ?_⟩
    · exact (List.append_nil _).symm
    · exact (List.append_nil _).symm
    all_goals
      rw [show (restartedRow t now₁ r).state = .discovered from hto]
      intro hm
      cases hm
  obtain ⟨r₁, r₁', hside⟩ : Alongside (w.Serves deps) w.Wavers s₁.store.transitions s'.transitions id
      (Course.run deps config w id n ⟨[], s₁.store⟩) (Course.run deps config w id n ⟨[], s'⟩) :=
    hside.run hstages n
  exact ⟨hside.heard, hside.wrote⟩

/-- Surroundings in which what was staged is discarded and the tracker serves the torrent. -/
def obliging : Environs where
  clock heard := heard.length
  killed _ := false
  failing _ := none
  answer
    | heard, .now => some heard.length
    | _, .shuttingDown => some false
    | _, .client (.remove ..) => some (.ok ())
    | _, .staging (.discard _) => some (.ok ())
    | _, .tracker (.fetchTorrentFile ..) => some (.ok [])
    | _, .publish _ | _, .notify _ | _, .recordTick _ => some ()
    | _, _ => none

theorem validateComponent_job : validateComponent "job-1" = .ok () := by
  decide

/-- A job parked after its torrent was fetched, and its info-hash with it. -/
def fetchedRow : JobRow :=
  { pilotRow with
    state := .awaitingReview
    reviewFromState := some .torrentFetched
    reviewReason := some .noCandidates
    infoHash := some pilotTorrent.infoHash
    torrentFile := some []
    stagingDir := some (.ofComponent "job-1" validateComponent_job) }

def fetchingDeps : RepairDeps :=
  { pilotDeps with trackers := [⟨"tracker"⟩], inspect := fun _ => .ok pilotTorrent }

/-- The store of that job, and one that has just discovered it. -/
def fetchedStore : SqliteRepairStore := ⟨⟨[fetchedRow], List.nodup_singleton _⟩, .empty, [], 1⟩

def foundStore : SqliteRepairStore :=
  ⟨⟨[discoveredRow ⟨1⟩ 0 ⟨⟨"tracker"⟩, ⟨"7"⟩, "pilot", none, 5, none⟩], List.nodup_singleton _⟩,
    .empty, [], 1⟩

/-- The restart of the job. -/
def restartRun : Option (Except WebError Unit) × Course :=
  (restartAction ⟨1⟩).carry obliging.handle ⟨[], fetchedStore⟩

theorem restartRun_ok : restartRun.1 = some (.ok ()) := by
  have hdone : restartRun.1.bind Except.toOption = some () := by decide +kernel
  obtain ⟨_ | result, hrun, hresult⟩ := Option.bind_eq_some_iff.1 hdone
  · cases hresult
  · exact hrun

def pilotRun (s : SqliteRepairStore) : Course :=
  Course.run fetchingDeps ⟨"a", .fromSecs 60, 4⟩ obliging ⟨1⟩ 3 ⟨[], s⟩

theorem restart_forgets_pilot :
    (pilotRun restartRun.2.store).heard = (pilotRun foundStore).heard ∧
      ∃ rows, (pilotRun restartRun.2.store).store.transitions =
          restartRun.2.store.transitions ++ rows ∧
        (pilotRun foundStore).store.transitions = foundStore.transitions ++ rows := by
  have hrow : (⟨[], fetchedStore⟩ : Course).store.jobs.get? ⟨1⟩ = some fetchedRow := by rfl
  have hfresh : foundStore.jobs.get? ⟨1⟩ = some (discoveredRow ⟨1⟩ 0
      ⟨⟨"tracker"⟩, ⟨"7"⟩, "pilot", none, 5, none⟩) := by rfl
  have hrestart : (restartAction ⟨1⟩).carry obliging.handle ⟨[], fetchedStore⟩ =
      (some (.ok ()), restartRun.2) := Prod.ext restartRun_ok rfl
  refine restart_forgets hrow hrestart hfresh ⟨rfl, rfl, rfl, rfl⟩ ?_ ⟨.inr ?_, .inl rfl, rfl⟩ 3
  · intro heard plan preference layout h
    cases h
  · rintro hash ⟨heard, tracker, torrent, bytes, m, -, hm, rfl⟩
    cases hm
    exact ⟨rfl, rfl⟩

end SeedMedic
