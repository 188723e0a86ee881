/-
  Polling the trackers for new hit-and-runs, and when the live feed hears that a tracker
  became reachable or unreachable (`repair/application/discover.rs`, `diagnostics.rs`).
-/
import SeedMedic.Runtime.Domain

namespace SeedMedic

open Lib

/-! ## The code -/

inductive DiscoveryCall where
  | listHitAndRuns (tracker : TrackerId)
  | recordDiscovery (warning : HitAndRun)
  | now
  | trackerHealth (tracker : TrackerId)
  | recordTrackerSuccess (tracker : TrackerId) (time : Time)
  | recordTrackerError (tracker : TrackerId) (time : Time) (message : String)
  | markTrackerUnreachableNotified (tracker : TrackerId)
  /-- Tell the operator that a tracker is unreachable, and for how long. -/
  | notifyUnreachable (tracker : String) (unreachableFor : Duration)
  | publish (kind : BusKind)

@[reducible] def DiscoveryCall.Ans : DiscoveryCall → Type
  | listHitAndRuns _ => Except TrackerError (List HitAndRun)
  | recordDiscovery _ => Except StoreError Discovered
  | now => Time
  | trackerHealth _ => TrackerHealth
  | recordTrackerSuccess .. | recordTrackerError .. | markTrackerUnreachableNotified _
  | notifyUnreachable .. | publish _ => Unit

/-- Code that polls the trackers. -/
abbrev D := Prog DiscoveryCall DiscoveryCall.Ans

def D.ask (c : DiscoveryCall) : D c.Ans := Prog.ask c

@[simp] theorem D.ask_bind {α : Type} (c : DiscoveryCall) (f : c.Ans → D α) :
    (D.ask c >>= f) = .call c f := rfl

structure DiscoverySummary where
  warningsSeen : ℕ
  jobsCreated : ℕ
  trackersFailed : ℕ

/-- What a run has come to. -/
structure DiscoveryRun where
  summary : DiscoverySummary
  created : List JobId
  /-- Whether the dashboard has something new to show. -/
  healthChanged : Bool

def DiscoveryRun.start : DiscoveryRun := ⟨⟨0, 0, 0⟩, [], false⟩

/-- Notify the operator once for an outage that lasts; a tracker that never answered has none. -/
def notifyIfUnreachableTooLong (unreachableThreshold : Duration) (tracker : TrackerId) : D Unit := do
  let health ← D.ask (.trackerHealth tracker)
  if health.notifiedUnreachable then pure ()
  else
    match health.lastSuccess with
    | none => pure ()
    | some lastSuccess =>
      let now ← D.ask .now
      let unreachableFor : ℤ := (now : ℤ) - lastSuccess
      let threshold := (chronoFromStd unreachableThreshold).getD (.fromSecs 1800)
      if unreachableFor < threshold then pure ()
      else
        D.ask (.markTrackerUnreachableNotified tracker)
        D.ask (.notifyUnreachable tracker.str
          (if unreachableFor < 0 then unreachableThreshold else unreachableFor.toNat))

/-- Trackers keep showing a warning; only a new one makes a job. -/
def recordWarning (run : DiscoveryRun) (warning : HitAndRun) : D DiscoveryRun := do
  match ← D.ask (.recordDiscovery warning) with
  | .ok discovered =>
    if discovered.created then
      pure { run with
        summary := { run.summary with jobsCreated := run.summary.jobsCreated + 1 }
        created := run.created ++ [discovered.id] }
    else pure run
  | .error _ => pure run

/-- Poll one tracker; one that fails is skipped. -/
def pollTracker (unreachableThreshold : Duration) (run : DiscoveryRun) (tracker : TrackerId) :
    D DiscoveryRun := do
  match ← D.ask (.listHitAndRuns tracker) with
  | .error error =>
    let health ← D.ask (.trackerHealth tracker)
    let now ← D.ask .now
    D.ask (.recordTrackerError tracker now error.toText)
    notifyIfUnreachableTooLong unreachableThreshold tracker
    pure { run with
      summary := { run.summary with trackersFailed := run.summary.trackersFailed + 1 }
      healthChanged := run.healthChanged || health.lastError.isNone }
  | .ok warnings =>
    let health ← D.ask (.trackerHealth tracker)
    let now ← D.ask .now
    D.ask (.recordTrackerSuccess tracker now)
    warnings.foldlM recordWarning
      { run with
        summary := { run.summary with
          warningsSeen := run.summary.warningsSeen + warnings.length }
        healthChanged := run.healthChanged || health.lastError.isSome }

/-- Tell the feed what a whole run came to. -/
def publishDiscovery (run : DiscoveryRun) : D DiscoverySummary := do
  if !run.created.isEmpty then D.ask (.publish (.jobsChanged run.created))
  if run.healthChanged then D.ask (.publish .trackersChanged)
  let now ← D.ask .now
  D.ask (.publish (.work (.activity { Activity.default with
    kind := .discovery, time := some now, jobsCreated := run.summary.jobsCreated
    trackersFailed := run.summary.trackersFailed })))
  pure run.summary

/-- Poll every configured tracker once. -/
def discoverHitAndRuns (trackers : List TrackerId) (unreachableThreshold : Duration) :
    D DiscoverySummary := do
  let run ← trackers.foldlM (pollTracker unreachableThreshold) .start
  publishDiscovery run

/-! ## Runs -/

/-- A discovery run with all that it meets outside; a map holds a tracker once. -/
structure Polling where
  trackers : List TrackerId
  nodup : trackers.Nodup
  unreachableThreshold : Duration
  polled : TrackerId → Except TrackerError (List HitAndRun)
  /-- What a warning is recorded as, the clock's reading: by how many calls came before. -/
  recorded : ℕ → HitAndRun → Except StoreError Discovered
  now : ℕ → Time

/-- The health of the trackers and the feed while a run goes on. -/
structure TrackerWatch where
  diagnostics : Diagnostics
  published : List BusKind
  calls : ℕ

namespace TrackerWatch

def serve (p : Polling) : (c : DiscoveryCall) → TrackerWatch → c.Ans × TrackerWatch
  | .listHitAndRuns tracker, w => (p.polled tracker, { w with calls := w.calls + 1 })
  | .recordDiscovery warning, w => (p.recorded w.calls warning, { w with calls := w.calls + 1 })
  | .now, w => (p.now w.calls, { w with calls := w.calls + 1 })
  | .trackerHealth tracker, w => (w.diagnostics.trackerHealth tracker, w)
  | .recordTrackerSuccess tracker time, w =>
    ((), { w with diagnostics := w.diagnostics.recordTrackerSuccess tracker time })
  | .recordTrackerError tracker time message, w =>
    ((), { w with diagnostics := w.diagnostics.recordTrackerError tracker time message })
  | .markTrackerUnreachableNotified tracker, w =>
    ((), { w with diagnostics := w.diagnostics.markTrackerUnreachableNotified tracker })
  | .notifyUnreachable .., w => ((), w)
  | .publish kind, w => ((), { w with published := w.published ++ [kind] })

end TrackerWatch

/-- Whether an error of a tracker is on record. -/
def Diagnostics.failed (d : Diagnostics) (tracker : TrackerId) : Bool :=
  (d.trackerHealth tracker).lastError.isSome

namespace Polling

/-- Whether a tracker answers in a run. -/
def reaches (p : Polling) (tracker : TrackerId) : Bool := (p.polled tracker).isOk

/-- What a run leaves, and what it has published. -/
def run (p : Polling) (d : Diagnostics) : TrackerWatch :=
  ((discoverHitAndRuns p.trackers p.unreachableThreshold).run (TrackerWatch.serve p) ⟨d, [], 0⟩).2

/-- A run tells the feed that a tracker became reachable or unreachable. -/
def Announces (p : Polling) (d : Diagnostics) : Prop := .trackersChanged ∈ (p.run d).published

/-- What some runs leave. -/
def diagnosticsAfter (d : Diagnostics) (past : List Polling) : Diagnostics :=
  past.foldl (fun d p => (p.run d).diagnostics) d

/-- Whether a tracker's last poll reached it, where it was polled. -/
def previous (past : List Polling) (tracker : TrackerId) : Option Bool :=
  ((past.filter fun p => tracker ∈ p.trackers).getLast?).map fun p => p.reaches tracker

/-- Whether a poll of a tracker ever failed. -/
def everFailed (past : List Polling) (tracker : TrackerId) : Bool :=
  past.any fun p => decide (tracker ∈ p.trackers) && !p.reaches tracker

/-! ## What a run does to the health of the trackers -/

variable {p : Polling} {w w' : TrackerWatch}

/-- Nothing is published, and the same trackers have an error on record. -/
structure Quiet (w w' : TrackerWatch) : Prop where
  published : w'.published = w.published
  failed : ∀ tracker, w'.diagnostics.failed tracker = w.diagnostics.failed tracker

theorem Quiet.refl (w : TrackerWatch) : Quiet w w := ⟨rfl, fun _ => rfl⟩

theorem Quiet.trans {w'' : TrackerWatch} (h : Quiet w w') (h' : Quiet w' w'') : Quiet w w'' :=
  ⟨h'.published.trans h.published, fun t => (h'.failed t).trans (h.failed t)⟩

theorem failed_recordTrackerSuccess (d : Diagnostics) (t : TrackerId) (time : Time)
    (tracker : TrackerId) : (d.recordTrackerSuccess t time).failed tracker = d.failed tracker := by
  simp only [Diagnostics.failed, Diagnostics.recordTrackerSuccess,
    Diagnostics.trackerHealth_modifyEntry]
  split_ifs with h
  · rw [h]
  · rfl

theorem failed_markTrackerUnreachableNotified (d : Diagnostics) (t tracker : TrackerId) :
    (d.markTrackerUnreachableNotified t).failed tracker = d.failed tracker := by
  simp only [Diagnostics.failed, Diagnostics.markTrackerUnreachableNotified,
    Diagnostics.trackerHealth_modifyEntry]
  split_ifs with h
  · rw [h]
  · rfl

theorem failed_recordTrackerError (d : Diagnostics) (t : TrackerId) (time : Time)
    (message : String) (tracker : TrackerId) : (d.recordTrackerError t time message).failed tracker =
      (d.failed tracker || decide (tracker = t)) := by
  simp only [Diagnostics.failed, Diagnostics.recordTrackerError,
    Diagnostics.trackerHealth_modifyEntry]
  split_ifs with h
  · simp [h]
  · simp [h]

theorem notify_quiet (threshold : Duration) (tracker : TrackerId) :
    Quiet w ((notifyIfUnreachableTooLong threshold tracker).run (TrackerWatch.serve p) w).2 := by
  unfold notifyIfUnreachableTooLong
  rw [D.ask_bind, Prog.run_call]
  split
  · exact .refl w
  split
  · exact .refl w
  rw [D.ask_bind, Prog.run_call]
  dsimp only
  split
  · exact ⟨rfl, fun _ => rfl⟩
  · exact ⟨rfl, fun t => failed_markTrackerUnreachableNotified _ _ t⟩

theorem recordWarning_quiet (run : DiscoveryRun) (warning : HitAndRun) :
    Quiet w ((recordWarning run warning).run (TrackerWatch.serve p) w).2 ∧
      ((recordWarning run warning).run (TrackerWatch.serve p) w).1.healthChanged = run.healthChanged := by
  unfold recordWarning
  rw [D.ask_bind, Prog.run_call]
  split
  · split <;> exact ⟨⟨rfl, fun _ => rfl⟩, rfl⟩
  · exact ⟨⟨rfl, fun _ => rfl⟩, rfl⟩

theorem recordWarnings_quiet (warnings : List HitAndRun) (run : DiscoveryRun) :
    Quiet w ((warnings.foldlM recordWarning run).run (TrackerWatch.serve p) w).2 ∧
      ((warnings.foldlM recordWarning run).run (TrackerWatch.serve p) w).1.healthChanged =
        run.healthChanged := by
  induction warnings generalizing run w with
  | nil => exact ⟨.refl w, rfl⟩
  | cons warning warnings ih =>
    obtain ⟨hquiet, hsame⟩ := @recordWarning_quiet p w run warning
    rw [List.foldlM_cons, Prog.run_bind]
    obtain ⟨hquiet', hsame'⟩ := @ih ((recordWarning run warning).run (TrackerWatch.serve p) w).2
      ((recordWarning run warning).run (TrackerWatch.serve p) w).1
    exact ⟨hquiet.trans hquiet', hsame'.trans hsame⟩

/-- What polling a tracker adds to what a run has come to, and to what is on record. -/
structure Polled (p : Polling) (w : TrackerWatch) (run : DiscoveryRun) (trackers : List TrackerId)
    (w' : TrackerWatch) (run' : DiscoveryRun) : Prop where
  published : w'.published = w.published
  failed : ∀ tracker, w'.diagnostics.failed tracker =
    (w.diagnostics.failed tracker || (decide (tracker ∈ trackers) && !p.reaches tracker))
  healthChanged : run'.healthChanged =
    (run.healthChanged || trackers.any fun t => w.diagnostics.failed t == p.reaches t)

theorem pollTracker_polled (threshold : Duration) (run : DiscoveryRun) (tracker : TrackerId) :
    Polled p w run [tracker] ((pollTracker threshold run tracker).run (TrackerWatch.serve p) w).2
      ((pollTracker threshold run tracker).run (TrackerWatch.serve p) w).1 := by
  have hreaches : p.reaches tracker = (p.polled tracker).isOk := rfl
  unfold pollTracker
  rw [D.ask_bind, Prog.run_call]
  cases hpolled : p.polled tracker with
  | error e =>
    have hanswer : (TrackerWatch.serve p (.listHitAndRuns tracker) w).1 = .error e := hpolled
    rw [hanswer]
    rw [hpolled] at hreaches
    simp only [Prog.run_bind]
    have hquiet := @notify_quiet p
      { w with
        calls := w.calls + 1 + 1
        diagnostics := w.diagnostics.recordTrackerError tracker (p.now (w.calls + 1)) e.toText }
      threshold tracker
    refine ⟨hquiet.published, fun t => (hquiet.failed t).trans ?_, ?_⟩
    · rw [failed_recordTrackerError]
      by_cases ht : t = tracker
      · subst ht
        simp [hreaches, Except.isOk, Except.toBool]
      · simp [ht]
    · simp only [List.any_cons, List.any_nil, Bool.or_false, hreaches]
      change (run.healthChanged || (w.diagnostics.trackerHealth tracker).lastError.isNone) = _
      rw [Diagnostics.failed]
      cases (w.diagnostics.trackerHealth tracker).lastError <;> rfl
  | ok warnings =>
    have hanswer : (TrackerWatch.serve p (.listHitAndRuns tracker) w).1 = .ok warnings := hpolled
    rw [hanswer]
    rw [hpolled] at hreaches
    obtain ⟨hquiet, hsame⟩ := @recordWarnings_quiet p
      { w with
        calls := w.calls + 1 + 1
        diagnostics := w.diagnostics.recordTrackerSuccess tracker (p.now (w.calls + 1)) } warnings
      { run with
        summary := { run.summary with
          warningsSeen := run.summary.warningsSeen + warnings.length }
        healthChanged := run.healthChanged ||
          (w.diagnostics.trackerHealth tracker).lastError.isSome }
    refine ⟨hquiet.published, fun t => (hquiet.failed t).trans ?_, hsame.trans ?_⟩
    · rw [failed_recordTrackerSuccess]
      by_cases ht : t = tracker
      · subst ht
        simp [hreaches, Except.isOk, Except.toBool]
      · simp [ht]
    · simp only [List.any_cons, List.any_nil, Bool.or_false, hreaches]
      rw [Diagnostics.failed]
      cases (w.diagnostics.trackerHealth tracker).lastError <;> rfl

/-- A tracker that is polled once is judged by what was on record before the run. -/
theorem pollTrackers_polled (threshold : Duration) {trackers : List TrackerId}
    (hnodup : trackers.Nodup) (run : DiscoveryRun) :
    Polled p w run trackers
      ((trackers.foldlM (pollTracker threshold) run).run (TrackerWatch.serve p) w).2
      ((trackers.foldlM (pollTracker threshold) run).run (TrackerWatch.serve p) w).1 := by
  induction trackers generalizing run w with
  | nil => exact ⟨rfl, fun t => by simp [List.foldlM_nil], by simp [List.foldlM_nil]⟩
  | cons tracker trackers ih =>
    obtain ⟨hnew, hnodup⟩ := List.nodup_cons.1 hnodup
    have hfirst := @pollTracker_polled p w threshold run tracker
    rw [List.foldlM_cons, Prog.run_bind]
    generalize (pollTracker threshold run tracker).run (TrackerWatch.serve p) w = r at hfirst ⊢
    have hrest := @ih r.2 hnodup r.1
    refine ⟨hrest.published.trans hfirst.published, fun t => ?_, ?_⟩
    · rw [hrest.failed, hfirst.failed]
      by_cases ht : t = tracker
      · simp [ht, hnew]
      · simp [ht]
    · rw [hrest.healthChanged, hfirst.healthChanged, List.any_cons, List.any_cons, List.any_nil,
        Bool.or_false, Bool.or_assoc]
      -- the trackers behind are others, so nothing on record about them has changed
      have hsame : ∀ t ∈ trackers, r.2.diagnostics.failed t = w.diagnostics.failed t := by
        intro t ht
        have hne : t ≠ tracker := fun h => hnew (h ▸ ht)
        rw [hfirst.failed]
        simp [hne]
      congr 2
      rw [Bool.eq_iff_iff, List.any_eq_true, List.any_eq_true]
      exact exists_congr fun t => and_congr_right fun ht => by rw [hsame t ht]

/-- Before it publishes, a run has judged its trackers by what was on record. -/
theorem run_polled (p : Polling) (d : Diagnostics) : ∃ run w,
    Polled p ⟨d, [], 0⟩ .start p.trackers w run ∧
      p.run d = ((publishDiscovery run).run (TrackerWatch.serve p) w).2 := by
  refine ⟨_, _, pollTrackers_polled p.unreachableThreshold p.nodup .start, ?_⟩
  rw [run, discoverHitAndRuns, Prog.run_bind]

theorem publishDiscovery_diagnostics (run : DiscoveryRun) :
    ((publishDiscovery run).run (TrackerWatch.serve p) w).2.diagnostics = w.diagnostics := by
  unfold publishDiscovery
  cases run.created.isEmpty <;> cases run.healthChanged <;> rfl

theorem publishDiscovery_published (run : DiscoveryRun) (hnone : w.published = []) :
    .trackersChanged ∈ ((publishDiscovery run).run (TrackerWatch.serve p) w).2.published ↔
      run.healthChanged = true := by
  unfold publishDiscovery
  cases run.created.isEmpty <;> cases run.healthChanged <;>
    simp [TrackerWatch.serve, hnone, D.ask, Prog.ask]

/-- A run tells of a change exactly where a tracker is reached of which an error is on record, or
    not reached while none is. -/
theorem announces_iff (d : Diagnostics) :
    p.Announces d ↔ ∃ t ∈ p.trackers, d.failed t = p.reaches t := by
  obtain ⟨run, w, hpolled, hrun⟩ := p.run_polled d
  have hchanged : run.healthChanged = p.trackers.any fun t => d.failed t == p.reaches t :=
    hpolled.healthChanged.trans (Bool.false_or _)
  rw [Announces, hrun, publishDiscovery_published run hpolled.published, hchanged,
    List.any_eq_true]
  exact exists_congr fun t => and_congr_right fun _ => beq_iff_eq

theorem failed_run (d : Diagnostics) (t : TrackerId) : (p.run d).diagnostics.failed t =
    (d.failed t || (decide (t ∈ p.trackers) && !p.reaches t)) := by
  obtain ⟨run, w, hpolled, hrun⟩ := p.run_polled d
  rw [hrun, publishDiscovery_diagnostics]
  exact hpolled.failed t

/-- An error once on record stays there. -/
theorem failed_diagnosticsAfter (d : Diagnostics) (past : List Polling) (t : TrackerId) :
    (diagnosticsAfter d past).failed t = (d.failed t || everFailed past t) := by
  induction past generalizing d with
  | nil => exact (Bool.or_false _).symm
  | cons p past ih =>
    have hcons : diagnosticsAfter d (p :: past) = diagnosticsAfter (p.run d).diagnostics past := rfl
    have hever : everFailed (p :: past) t =
        ((decide (t ∈ p.trackers) && !p.reaches t) || everFailed past t) := rfl
    rw [hcons, ih, failed_run, hever, Bool.or_assoc]

theorem failed_reseed (configured : List (TrackerId × Bool)) (t : TrackerId) :
    (Diagnostics.empty.reseed configured).failed t = false := by
  simp only [Diagnostics.failed, Diagnostics.trackerHealth, Diagnostics.reseed, Diagnostics.empty]
  cases Diagnostics.configuredStub configured t <;> rfl

/-! ## What changed since the previous poll -/

variable {past : List Polling} {t : TrackerId}

theorem everFailed_of_previous (h : previous past t = some false) : everFailed past t = true := by
  obtain ⟨q, hlast, hreaches⟩ := Option.map_eq_some_iff.1 h
  obtain ⟨hq, ht⟩ := List.mem_filter.1 (List.mem_of_getLast? hlast)
  exact List.any_eq_true.2 ⟨q, hq, by rw [ht, hreaches]; rfl⟩

theorem not_everFailed_of_previous (h : previous past t = none) : everFailed past t = false := by
  have hnil := List.getLast?_eq_none_iff.1 (Option.map_eq_none_iff.1 h)
  rw [everFailed, List.any_eq_false]
  intro q hq
  have ht := List.filter_eq_nil_iff.1 hnil q hq
  rw [Bool.not_eq_true] at ht
  rw [ht]
  exact Bool.false_ne_true

/-- Some tracker is reached that was not at its previous poll, or the other way round. -/
def Changed (p : Polling) (past : List Polling) : Prop :=
  ∃ t ∈ p.trackers, ∃ before, previous past t = some before ∧ before ≠ p.reaches t

/-- A tracker is reached again, or fails for the first time after it was reached. -/
def Noticed (p : Polling) (past : List Polling) (t : TrackerId) : Prop :=
  if p.reaches t then previous past t = some false
  else previous past t = some true ∧ everFailed past t = false

/-- A tracker that has recovered before fails again. -/
def Overlooked (p : Polling) (past : List Polling) (t : TrackerId) : Prop :=
  p.reaches t = false ∧ previous past t = some true ∧ everFailed past t = true

/-- A tracker that failed once is reached as it was at its previous poll, or a tracker fails that
    was not polled before. -/
def Imagined (p : Polling) (past : List Polling) (t : TrackerId) : Prop :=
  if p.reaches t then previous past t = some true ∧ everFailed past t = true
  else previous past t = none

theorem changed_iff : p.Changed past ↔
    (∃ t ∈ p.trackers, p.Noticed past t) ∨ ∃ t ∈ p.trackers, p.Overlooked past t := by
  rw [← exists_or]
  refine exists_congr fun t => ?_
  rw [← and_or_left]
  refine and_congr_right fun _ => ?_
  cases hreaches : p.reaches t <;> cases hprevious : previous past t with
  | none => simp [Noticed, Overlooked, hreaches, hprevious]
  | some before =>
    cases before <;> cases hfailed : everFailed past t <;>
      simp [Noticed, Overlooked, hreaches, hprevious, hfailed]

theorem judged_iff : everFailed past t = p.reaches t ↔ p.Noticed past t ∨ p.Imagined past t := by
  cases hprevious : previous past t with
  | none =>
    have hfailed := not_everFailed_of_previous hprevious
    cases hreaches : p.reaches t <;> simp [Noticed, Imagined, hreaches, hprevious, hfailed]
  | some before =>
    cases before with
    | false =>
      have hfailed := everFailed_of_previous hprevious
      cases hreaches : p.reaches t <;> simp [Noticed, Imagined, hreaches, hprevious, hfailed]
    | true =>
      cases hreaches : p.reaches t <;> cases hfailed : everFailed past t <;>
        simp [Noticed, Imagined, hreaches, hprevious, hfailed]

/-- A run tells of a change exactly where there is one, if a tracker changed in a way the code
    notices, or if it overlooks a change and imagines another, or neither. -/
theorem announces_changes (configured : List (TrackerId × Bool)) (past : List Polling) (p : Polling) :
    (p.Announces (diagnosticsAfter (Diagnostics.empty.reseed configured) past) ↔ p.Changed past) ↔
      (∃ t ∈ p.trackers, p.Noticed past t) ∨
        ((∃ t ∈ p.trackers, p.Overlooked past t) ↔ ∃ t ∈ p.trackers, p.Imagined past t) := by
  have hannounces : p.Announces (diagnosticsAfter (Diagnostics.empty.reseed configured) past) ↔
      (∃ t ∈ p.trackers, p.Noticed past t) ∨ ∃ t ∈ p.trackers, p.Imagined past t := by
    rw [announces_iff, ← exists_or]
    refine exists_congr fun t => ?_
    rw [failed_diagnosticsAfter, failed_reseed, Bool.false_or, judged_iff, and_or_left]
  rw [hannounces, changed_iff]
  by_cases hnoticed : ∃ t ∈ p.trackers, p.Noticed past t
  · simp only [hnoticed, true_or]
  · simp only [hnoticed, false_or]
    exact iff_comm

/-- A run that polls one tracker. -/
def ofOne (answer : Except TrackerError (List HitAndRun)) : Polling where
  trackers := [⟨"tracker"⟩]
  nodup := List.nodup_singleton _
  unreachableThreshold := .fromSecs 1800
  polled _ := answer
  recorded _ _ := .ok ⟨⟨1⟩, false⟩
  now n := n

/-- A second outage is not announced. -/
theorem second_outage_unannounced : ¬∀ (configured : List (TrackerId × Bool)) (past : List Polling)
    (p : Polling), p.Announces (diagnosticsAfter (Diagnostics.empty.reseed configured) past) ↔
      p.Changed past := by
  intro h
  have hlaw := h [] [ofOne (.error .unauthorized), ofOne (.ok [])] (ofOne (.error .unauthorized))
  have hchanged : (ofOne (.error .unauthorized)).Changed
      [ofOne (.error .unauthorized), ofOne (.ok [])] :=
    ⟨⟨"tracker"⟩, List.mem_singleton.2 rfl, true, by decide, by decide⟩
  obtain ⟨t, ht, hjudged⟩ := (announces_iff _).1 (hlaw.2 hchanged)
  rw [failed_diagnosticsAfter, failed_reseed, List.mem_singleton.1 ht] at hjudged
  exact absurd hjudged (by decide)

end Polling

end SeedMedic
