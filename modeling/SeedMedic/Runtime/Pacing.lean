/-
  A worker in time: every span that a tick adds to the clock is one of the policy's delays, and
  every lease it asks for is the configured one.
-/
import SeedMedic.Repair.Conclusions
import SeedMedic.Repair.Drive
import SeedMedic.Runtime.Durations
import SeedMedic.Runtime.Service

namespace SeedMedic

open Lib Prog

variable {c : Config} {deps : RepairDeps} {job : RepairJob} {readings : List Time}

/-- The deadline of a job is in the calendar. -/
def Dated (job : RepairJob) : Prop := ∀ d ∈ job.deadline, d ≤ calendarEnd

/-- What the answers are taken to be: a clock at which the spans of `c` fit, and jobs with dates. -/
def Answers (c : Config) : (call : Call) → Ans call → Prop
  | .now, t => c.Fits t
  | .store (.claim ..), .ok jobs => ∀ job ∈ jobs, Dated job
  | .store (.job _), .ok (some job) => Dated job
  | _, _ => True

/-- The readings of the clock so far. -/
def readingsAfter : (call : Call) → Ans call → List Time → List Time
  | .now, t, readings => t :: readings
  | _, _, readings => readings

/-- The rules of a worker in time: a lease ends after the instant it is taken at, and a job is put
    off to an instant that was computed from a reading of the clock and a delay of the policy. -/
def pacing (c : Config) : Rules Call Ans (List Time) where
  may
    | .store (.claim _ lease _), _ | .store (.renewLease _ _ lease), _ =>
      ∀ now, c.Fits now → ∃ t, leaseExpiry now lease = some t ∧ timestamp now < timestamp t
    | .store (.release _ (some t) _), readings =>
      ∃ now ∈ readings, ∃ after, Delay c.policy.toPolicy after ∧ dueAfter now after = some t
    | _, _ => True
  next call r readings readings' := Answers c call r ∧ readings' = readingsAfter call r readings

/-- A conclusion to wait is one for a delay of the policy. -/
def Paced (policy : SafetyPolicy) : StepOutcome → Prop
  | .wait after _ _ => Delay policy after
  | _ => True

/-- Any answer but a conclusion is as good. -/
def PacedError (policy : SafetyPolicy) {α : Type} : Except StepOutcome α → Prop
  | .error outcome => Paced policy outcome
  | .ok _ => True

/-! ## The steps -/

theorem Config.Fits.reads {now : Time} (h : c.Fits now) : now ≤ calendarEnd :=
  (Nat.le_add_right now _).trans h.lease

/-- Steps are not paced by what they call. -/
theorem paced_of_calls {α : Type} {p : M α} {Q : α → Prop} (h : p.Only StepCall) (hQ : p.Returns Q) :
    p.Obeys (pacing c) readings fun a _ => Q a := by
  refine ((h.obeys (R := pacing c) (I := fun _ => True) trivial fun call l hcall _ =>
    ⟨?_, fun _ _ _ => trivial⟩).and hQ).mono fun a _ ha => ha.2
  cases call with
  | store call => cases call <;> trivial
  | _ => trivial

theorem fetchTorrent_paced : (fetchTorrent deps job).Returns (Paced deps.policy) := by
  have hacquired : ∀ bytes, Paced deps.policy (acquired deps job bytes) := by
    intro bytes
    unfold acquired
    split
    · trivial
    · trivial
    · trivial
    · split_ifs <;> trivial
  unfold fetchTorrent
  split_ifs
  · refine M.returns_tracker fun r => ?_
    split
    · exact hacquired _
    · trivial
    · trivial
  · trivial

theorem matchMedia_paced : (matchMedia deps job).Returns (Paced deps.policy) := by
  refine M.returns_store fun r => ?_
  split
  · trivial
  · trivial
  · refine (Returns.all _).bind fun found _ => ?_
    split_ifs
    · trivial
    · trivial
    · refine (Returns.all _).bind fun plan _ => (Returns.all _).bind fun detail _ => ?_
      split <;> trivial

theorem stageFiles_paced : (stageFiles deps job).Returns (Paced deps.policy) := by
  refine M.returns_store fun r => ?_
  split
  · trivial
  · split
    · trivial
    · simp only
      split_ifs
      · trivial
      · refine M.returns_staging fun r => ?_
        split
        · rename_i e
          cases e <;> trivial
        · trivial

theorem clientRefused_paced (policy : SafetyPolicy) (e : ClientError) : Paced policy (clientRefused e) := by
  cases e <;> trivial

theorem inject_paced : (inject deps job).Returns (Paced deps.policy) := by
  unfold inject
  split
  · refine M.returns_store fun r => ?_
    split
    · trivial
    · trivial
    · refine M.returns_client fun r => ?_
      split
      · exact clientRefused_paced _ _
      · exact (Returns.all _).bind fun path _ => trivial
  · trivial

theorem startRecheck_paced : (startRecheck job).Returns (Paced deps.policy) := by
  unfold startRecheck
  split
  · trivial
  · refine M.returns_client fun r => ?_
    split
    · trivial
    · exact clientRefused_paced _ _
    · refine M.returns_client fun r => ?_
      split
      · exact clientRefused_paced _ _
      · exact M.returns_now fun _ => M.returns_now fun _ => trivial

/-- A running check is polled after as long as it has run, by a clock whose reading is in the
    calendar. -/
theorem stillChecking_paced {status : TorrentStatus} {now : Time} (h : now ≤ calendarEnd) :
    Paced deps.policy (stillChecking deps job status now) := by
  have helapsed : recheckElapsed job.recheckingStartedAt now ≤ calendarEnd := by
    unfold recheckElapsed
    split
    · exact Nat.zero_le _
    · exact (Nat.sub_le _ _).trans h
  unfold stillChecking
  simp only
  split_ifs with htimeout
  · trivial
  · exact .queued
  · exact .check helapsed (not_le.1 htimeout)

theorem currentStatus_paced : (currentStatus deps job).Obeys (pacing c) readings fun r _ =>
    PacedError deps.policy r := by
  unfold currentStatus
  split
  · trivial
  · refine M.obeys_client trivial fun r l hn => ?_
    split
    · exact clientRefused_paced _ _
    · trivial
    · split
      · refine M.obeys_now trivial fun now l hn => ?_
        exact stillChecking_paced hn.1.reads
      · trivial
      · trivial

theorem verify_paced : (verify deps job).Obeys (pacing c) readings fun outcome _ =>
    Paced deps.policy outcome := by
  refine currentStatus_paced.bind fun r l hr => ?_
  cases r with
  | error outcome => exact hr
  | ok status =>
    show Paced deps.policy (verdict job status)
    unfold verdict
    split <;> trivial

theorem resume_paced : (resume deps job).Obeys (pacing c) readings fun outcome _ =>
    Paced deps.policy outcome := by
  refine currentStatus_paced.bind fun r l hr => ?_
  cases r with
  | error outcome => exact hr
  | ok status =>
    simp only
    split
    · trivial
    · cases job.infoHash with
      | none => exact ⟨trivial, fun e => nomatch e⟩
      | some infoHash =>
        refine M.obeys_client trivial fun r l hn => ?_
        split
        · trivial
        · exact clientRefused_paced _ _

theorem checkClient_paced {infoHash : InfoHash} :
    (checkClient deps job infoHash).Returns (PacedError deps.policy) := by
  refine M.returns_client fun r => ?_
  split
  · exact clientRefused_paced _ _
  · trivial
  · split
    · trivial
    · trivial
    · split
      · trivial
      · refine M.returns_client fun r => ?_
        split
        · trivial
        · exact clientRefused_paced _ _
    · trivial
    · trivial

theorem trackerNote_paced (r : Except TrackerError HitAndRunStatus) :
    PacedError deps.policy (trackerNote deps job r) := by
  unfold trackerNote
  split
  · trivial
  · trivial
  · simp only
    split_ifs <;> trivial
  · trivial
  · trivial

/-- The tracker is polled before the deadline, however far off it is. -/
theorem confirmWithTracker_paced (hpolicy : deps.policy.trackerPollMinInterval ≤
    deps.policy.trackerPollInterval) (hjob : Dated job) :
    (confirmWithTracker deps job).Obeys (pacing c) readings fun outcome _ =>
      Paced deps.policy outcome := by
  unfold confirmWithTracker
  split_ifs
  · refine M.obeys_tracker trivial fun r l hn => ?_
    have hnote : PacedError deps.policy (trackerNote deps job r) := trackerNote_paced r
    split
    · rename_i he
      rw [he] at hnote
      exact hnote
    · split
      · trivial
      · refine (paced_of_calls (checkClient_only trivial fun _ _ => trivial) checkClient_paced).bind
          fun r l hr => ?_
        cases r with
        | error outcome => exact hr
        | ok status =>
          refine M.obeys_now trivial fun now l hn => ?_
          show Paced deps.policy (seedingPoll deps job _ _ status now)
          unfold seedingPoll
          split_ifs
          · trivial
          · exact .poll hn.1.reads hjob (clampedPollDelay_total hpolicy)
  · trivial

/-- Whatever a step waits for is a delay of the policy. -/
theorem step_paced (hpolicy : deps.policy.trackerPollMinInterval ≤ deps.policy.trackerPollInterval)
    (hjob : Dated job) : (step deps job).Obeys (pacing c) readings fun outcome _ =>
      Paced deps.policy outcome := by
  unfold step
  split
  · exact paced_of_calls (fetchTorrent_reads.mono fun _ => .of_reads) fetchTorrent_paced
  · exact paced_of_calls (matchMedia_reads.mono fun _ => .of_reads) matchMedia_paced
  · exact paced_of_calls (stageFiles_gathers.mono fun _ => .of_gathers) stageFiles_paced
  · exact paced_of_calls (inject_only (fun _ => .of_reads) fun _ _ _ _ _ => trivial) inject_paced
  · exact paced_of_calls (startRecheck_only trivial (fun _ _ => trivial) fun _ _ => trivial)
      startRecheck_paced
  · exact verify_paced
  · exact resume_paced
  · exact confirmWithTracker_paced hpolicy hjob
  · exact .idle
  · exact .idle
  · exact .idle

/-! ## The worker -/

/-- The jitter of a retry is one of 64 bits. -/
theorem jitterSeed_lt (now : Time) (id : JobId) (attempts : ℕ) : jitterSeed now id attempts < 2 ^ 64 := by
  unfold jitterSeed wadd
  exact Nat.mod_lt _ (Nat.two_pow_pos 64)

/-- A job may be left idle, or put off to an instant that was computed. -/
def Timely (c : Config) (readings : List Time) (stop : Stop) : Prop :=
  ∀ t ∈ stop.retryAt, ∃ now ∈ readings, ∃ after,
    Delay c.policy.toPolicy after ∧ dueAfter now after = some t

theorem timely_idle : Timely c readings .idle := by
  intro t ht
  cases ht

/-- A delay added to a reading is due in time. -/
theorem timely_of_due {now : Time} {after : Duration} {count : Bool} (hnow : now ∈ readings)
    (hfits : c.InRange now) (hafter : Delay c.policy.toPolicy after) :
    Timely c readings ⟨some (now + chronoDuration after), count⟩ := by
  obtain ⟨t, ht⟩ := hfits.due hafter
  obtain ⟨-, rfl⟩ := instantAfter_some.1 ht
  intro t' ht'
  cases ht'
  exact ⟨now, hnow, after, hafter, ht⟩

/-- Where a round may leave a drive. -/
def TimelyControl (c : Config) (control : Control) (readings : List Time) : Prop :=
  (∀ next, control = .next next → Dated next) ∧
    ∀ stop, control = .leave (some stop) → Timely c readings stop

theorem timely_leave {stop : Stop} (h : Timely c readings stop) :
    TimelyControl c (.leave (some stop)) readings := by
  refine ⟨fun next hn => ?_, fun stop' hs => ?_⟩
  · cases hn
  · cases hs
    exact h

theorem timely_lost : TimelyControl c (.leave none) readings := by
  refine ⟨fun next hn => ?_, fun stop hs => ?_⟩
  · cases hn
  · cases hs

theorem timely_next (h : Dated job) : TimelyControl c (.next job) readings := by
  refine ⟨fun next hn => ?_, fun stop hs => ?_⟩
  · cases hn
    exact h
  · cases hs

/-- What the rules take of a worker set up by a configuration in range wherever its spans fit. -/
structure Paces (c : Config) (deps : RepairDeps) (config : WorkerConfig) : Prop where
  policy : deps.policy = c.policy.toPolicy
  config : config = c.worker.toWorkerConfig
  poll : deps.policy.trackerPollMinInterval ≤ deps.policy.trackerPollInterval
  inRange : ∀ now, c.Fits now → c.InRange now

namespace Paces

variable {config : WorkerConfig} {summary : TickSummary}

theorem lease (h : Paces c deps config) (now : Time) (hfits : c.Fits now) :
    ∃ t, leaseExpiry now config.lease = some t ∧ timestamp now < timestamp t := by
  rw [h.config]
  exact (h.inRange now hfits).lease

theorem stopForRetry (h : Paces c deps config) {attempts : ℕ} :
    (SeedMedic.stopForRetry deps job attempts).Obeys (pacing c) readings fun stop l =>
      Timely c l stop := by
  refine M.obeys_now trivial fun now l hn => ?_
  obtain ⟨hfits, rfl⟩ := hn
  have hdelay : (retryDelayFor deps job attempts).Obeys (pacing c) (readingsAfter .now now readings)
      fun delay l => now ∈ l ∧ Delay deps.policy delay := by
    refine M.obeys_now trivial fun now' l hn => ?_
    obtain ⟨-, rfl⟩ := hn
    exact ⟨List.mem_cons_of_mem _ (List.mem_cons_self ..), .retry (jitterSeed_lt ..)⟩
  refine hdelay.bind fun delay l hd => ?_
  exact timely_of_due hd.1 (h.inRange now hfits) (h.policy ▸ hd.2)

theorem reload : (SeedMedic.reload job.id).Obeys (pacing c) readings fun r _ => ∀ next ∈ r, Dated next := by
  refine M.obeys_store trivial fun r l hn => ?_
  split
  · rename_i next
    intro next' hnext
    cases hnext
    exact hn.1
  · intro next hnext
    cases hnext

theorem proceed (h : Paces c deps config) :
    (SeedMedic.proceed config job.id).Obeys (pacing c) readings (TimelyControl c) := by
  have hrenew : (renewLease config job.id).Obeys (pacing c) readings fun _ _ => True := by
    refine M.obeys_store h.lease fun r l hn => ?_
    split <;> trivial
  refine hrenew.bind fun held l _ => ?_
  split_ifs
  · refine reload.bind fun next l hnext => ?_
    split
    · rename_i next
      split_ifs
      · exact timely_next (hnext next rfl)
      · exact timely_leave timely_idle
    · exact timely_leave timely_idle
  · exact timely_lost

theorem park {reason : ReviewReason} {detail : Option Json} {patch : JobPatch} :
    (SeedMedic.park job reason detail patch).Obeys (pacing c) readings fun _ _ => True := by
  unfold SeedMedic.park
  split
  · trivial
  · refine M.obeys_store trivial fun r l hn => ?_
    split
    · trivial
    · exact M.obeys_publish trivial fun l hn => ⟨trivial, fun _ _ _ => trivial⟩

theorem settleAdvance (h : Paces c deps config) {detail : Option Json} {patch : JobPatch} :
    (SeedMedic.settleAdvance deps config job summary detail patch).Obeys (pacing c) readings
      fun r l => TimelyControl c r.2 l := by
  unfold SeedMedic.settleAdvance
  split
  · exact timely_leave timely_idle
  · rename_i t _
    have hrecord : ∀ l, (recordAdvance job t).Obeys (pacing c) l fun _ _ => True := by
      intro l
      unfold recordAdvance
      split_ifs
      · exact ⟨trivial, fun _ _ _ => ⟨trivial, fun _ _ _ => trivial⟩⟩
      · exact ⟨trivial, fun _ _ _ => trivial⟩
    refine M.obeys_store trivial fun r l hn => ?_
    split
    · exact (hrecord l).bind fun _ l _ => h.proceed.bind fun control l hl => hl
    · exact h.proceed.bind fun control l hl => hl
    · exact timely_leave timely_idle
    · exact h.stopForRetry.bind fun stop l hl => timely_leave hl

theorem settleRewind {target : RepairState} {note : String} :
    (SeedMedic.settleRewind job target note).Obeys (pacing c) readings (TimelyControl c) := by
  unfold SeedMedic.settleRewind
  split
  · exact timely_leave timely_idle
  · refine M.obeys_store trivial fun r l hn => ?_
    split
    · exact timely_leave timely_idle
    · refine M.obeys_publish trivial fun l hn => ?_
      refine reload.bind fun next l hnext => ?_
      split
      · exact timely_next (hnext _ rfl)
      · exact timely_leave timely_idle

theorem settleWait (h : Paces c deps config) {after : Duration} {patch : JobPatch}
    (hafter : Delay deps.policy after) :
    (SeedMedic.settleWait job after patch).Obeys (pacing c) readings fun stop l => Timely c l stop := by
  have hdue : ∀ l, (do
      let now ← M.now
      pure ⟨some (now + chronoDuration after), false⟩ : M Stop).Obeys (pacing c) l fun stop l =>
        Timely c l stop := by
    refine fun l => M.obeys_now trivial fun now l hn => ?_
    obtain ⟨hfits, rfl⟩ := hn
    exact timely_of_due (List.mem_cons_self ..) (h.inRange now hfits) (h.policy ▸ hafter)
  unfold SeedMedic.settleWait
  split_ifs
  · refine M.obeys_store trivial fun r l hn => ?_
    split
    · exact hdue l
    · exact M.obeys_publish trivial fun l hn => hdue l
  · exact hdue readings

/-- A conclusion is settled in time. -/
theorem settle (h : Paces c deps config) {outcome : StepOutcome} (ho : Paced deps.policy outcome) :
    (SeedMedic.settle deps config job summary outcome).Obeys (pacing c) readings fun r l =>
      TimelyControl c r.2 l := by
  cases outcome with
  | advance detail patch => exact h.settleAdvance
  | rewind target note => exact settleRewind.bind fun control l hl => hl
  | review reason detail patch => exact park.bind fun _ l _ => timely_leave timely_idle
  | wait after note patch => exact (h.settleWait ho).bind fun stop l hl => timely_leave hl
  | retry error =>
    show (settleRetry deps job summary error).Obeys (pacing c) readings _
    unfold settleRetry
    simp only
    split_ifs
    · exact park.bind fun _ l _ => timely_leave timely_idle
    · exact h.stopForRetry.bind fun stop l hl => timely_leave hl

theorem rules (h : Paces c deps config) : DriveRules (pacing c) deps config (fun _ job => Dated job)
    (fun readings _ stop => Timely c readings stop) fun _ _ => True where
  idle call l hcall := by
    refine ⟨?_, fun _ _ _ _ hjob => hjob⟩
    cases call with
    | store call => cases hcall
    | _ => trivial
  claim l := ⟨h.lease, fun jobs l' hn =>
    ⟨List.pairwise_of_forall fun _ _ => trivial, hn.1⟩⟩
  untouched l job := timely_idle
  release l job stop hstop := by
    refine ⟨?_, fun _ _ _ _ _ hother => hother⟩
    obtain ⟨retryAt, count⟩ := stop
    cases retryAt with
    | none => trivial
    | some t => exact hstop t rfl
  round l job summary hjob := by
    refine M.obeys_enterStep trivial fun l hn => ?_
    refine (step_paced h.poll hjob).bind fun outcome l ho => ?_
    refine (h.settle ho).mono fun r l hr => ⟨fun _ _ hother => hother, fun next hnext => ?_, hr.2⟩
    exact ⟨hr.1 next hnext, fun _ _ => trivial, fun _ _ hstop => hstop⟩

/-- Every tick keeps time. -/
theorem tick (h : Paces c deps config) (readings : List Time) :
    (SeedMedic.tick deps config).Obeys (pacing c) readings fun _ _ => True := h.rules.tick readings

end Paces

/-! ## Every configuration without errors -/

namespace Config

theorem paces {host : ConfigHost} (h : ∀ p ∈ c.problems host, p.severity ≠ .error)
    (hpolicy : deps.policy = c.policy.toPolicy) : Paces c deps c.worker.toWorkerConfig where
  policy := hpolicy
  config := rfl
  poll := by
    rw [hpolicy]
    exact fromSecs_le (spans_of_valid h).2.2.2
  inRange now hfits := (inRange_iff_fits h now).2 hfits

/-- The first instant of the year 2025, in the calendar of the clock. -/
def newYear : Time := 8336337004800 * 1000000000

/-- The default spans fit. -/
theorem default_fits : default.Fits newYear where
  work := by decide
  discovery := by decide
  health := by decide
  lease := by decide
  queued := by decide
  checks := by decide
  doubled j _ _ _ := by
    have hmax : newYear + chronoDuration default.policy.toPolicy.recheckPollMaxInterval ≤
        calendarEnd := by decide
    exact due_mono (by decide) (min_le_right _ _) hmax
  polls := by decide
  approach := by decide
  retries := by decide
  idle := by decide

end Config

end SeedMedic
