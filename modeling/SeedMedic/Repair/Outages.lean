/-
  When the operator is notified that a tracker is unreachable: once for each outage that lasts
  (`repair/application/discover.rs`, `diagnostics.rs`).
-/
import SeedMedic.Repair.Discover

namespace SeedMedic

open Lib

/-! ## What is heard of a tracker -/

inductive Heard where
  | reached (time : Time)
  /-- The operator is notified that it is unreachable. -/
  | told (unreachableFor : Duration)
  /-- It is configured no longer. -/
  | dropped

/-- What is on record about a tracker, by what was heard of it last. -/
def TrackerHealth.Recalls (health : TrackerHealth) : List Heard → Prop
  | .reached time :: _ => health.lastSuccess = some time ∧ health.notifiedUnreachable = false
  | .told _ :: _ => health.notifiedUnreachable = true
  | .dropped :: _ | [] => health.lastSuccess = none

/-- The health of the trackers, and what was heard of each, newest first. -/
structure OutageWatch where
  diagnostics : Diagnostics
  calls : ℕ
  heard : TrackerId → List Heard

namespace OutageWatch

def hear (w : OutageWatch) (tracker : TrackerId) (e : Heard) : OutageWatch :=
  { w with heard := Function.update w.heard tracker (e :: w.heard tracker) }

def serve (p : Polling) : (c : DiscoveryCall) → OutageWatch → c.Ans × OutageWatch
  | .listHitAndRuns tracker, w => (p.polled tracker, { w with calls := w.calls + 1 })
  | .recordDiscovery warning, w => (p.recorded w.calls warning, { w with calls := w.calls + 1 })
  | .now, w => (p.now w.calls, { w with calls := w.calls + 1 })
  | .trackerHealth tracker, w => (w.diagnostics.trackerHealth tracker, w)
  | .recordTrackerSuccess tracker time, w =>
    ((), { w.hear tracker (.reached time) with
      diagnostics := w.diagnostics.recordTrackerSuccess tracker time })
  | .recordTrackerError tracker time message, w =>
    ((), { w with diagnostics := w.diagnostics.recordTrackerError tracker time message })
  | .markTrackerUnreachableNotified tracker, w =>
    ((), { w with diagnostics := w.diagnostics.markTrackerUnreachableNotified tracker })
  | .notifyUnreachable name unreachableFor, w => ((), w.hear ⟨name⟩ (.told unreachableFor))
  | .publish _, w => ((), w)

/-- What is on record is what was heard last, of each tracker. -/
def Faithful (w : OutageWatch) : Prop :=
  ∀ t, (w.diagnostics.trackerHealth t).Recalls (w.heard t)

end OutageWatch

/-! ## A poll of one tracker -/

namespace Polling

/-- How long a tracker may stay unreachable. -/
def patience (p : Polling) : Duration := (chronoFromStd p.unreachableThreshold).getD (.fromSecs 1800)

/-- A tracker that fails, at some time, by what was heard of it: only one that was reached last is
    told of, after a while. -/
def missed (p : Polling) (now : Time) : List Heard → List Heard
  | .reached time :: log =>
    if (p.patience : ℤ) ≤ (now : ℤ) - time then
      .told ((now : ℤ) - time).toNat :: .reached time :: log
    else .reached time :: log
  | log => log

/-- What is heard of a tracker after a run. -/
def hears (p : Polling) (t : TrackerId) (now : Time) (log : List Heard) : List Heard :=
  if t ∈ p.trackers then
    if p.reaches t then .reached now :: log else p.missed now log
  else log

end Polling

section
variable {p : Polling} {w w' : OutageWatch} {t : TrackerId}

/-- What part of a run changes: something is heard of the trackers it polls, nothing of others. -/
structure HearsOf (p : Polling) (w : OutageWatch) (trackers : List TrackerId) (w' : OutageWatch) :
    Prop where
  faithful : w'.Faithful
  others : ∀ t ∉ trackers, w'.heard t = w.heard t
  polled : ∀ t ∈ trackers, ∃ n, w'.heard t =
    if p.reaches t then .reached (p.now n) :: w.heard t else p.missed (p.now n) (w.heard t)

theorem Polling.missed_of_not_reached {log : List Heard} (now : Time)
    (h : ∀ time rest, log ≠ .reached time :: rest) : p.missed now log = log := by
  cases log with
  | nil => rfl
  | cons e rest =>
    cases e with
    | reached time => exact absurd rfl (h time rest)
    | _ => rfl

/-- The rest of what is on record does not matter. -/
theorem TrackerHealth.Recalls.congr {health health' : TrackerHealth} {log : List Heard}
    (h : health.Recalls log) (hlast : health'.lastSuccess = health.lastSuccess)
    (hnotified : health'.notifiedUnreachable = health.notifiedUnreachable) : health'.Recalls log := by
  cases log with
  | nil => exact hlast.trans h
  | cons e log =>
    cases e with
    | reached time => exact ⟨hlast.trans h.1, hnotified.trans h.2⟩
    | told unreachableFor => exact hnotified.trans h
    | dropped => exact hlast.trans h

/-- A change to what is on record about a tracker, and to what was heard of it. -/
theorem OutageWatch.Faithful.modify (hw : w.Faithful) (t : TrackerId)
    (f : TrackerHealth → TrackerHealth) {l : List Heard}
    (hf : (f (w.diagnostics.trackerHealth t)).Recalls l)
    (hdiagnostics : w'.diagnostics = w.diagnostics.modifyEntry t f)
    (hheard : w'.heard = Function.update w.heard t l) : w'.Faithful := by
  intro t'
  rw [hdiagnostics, hheard, Diagnostics.trackerHealth_modifyEntry]
  by_cases ht : t' = t
  · subst ht
    rw [if_pos rfl, Function.update_self]
    exact hf
  · rw [if_neg ht, Function.update_of_ne ht]
    exact hw t'

/-- What is heard of a tracker that failed. -/
def Judges (p : Polling) (w : OutageWatch) (t : TrackerId) (w' : OutageWatch) : Prop :=
  ∃ n, w'.Faithful ∧ w'.heard = Function.update w.heard t (p.missed (p.now n) (w.heard t))

theorem OutageWatch.Faithful.judges (hw : w.Faithful)
    (h : ∀ time rest, w.heard t ≠ .reached time :: rest) : Judges p w t w := by
  refine ⟨0, hw, ?_⟩
  rw [Polling.missed_of_not_reached _ h, Function.update_eq_self]

/-- A tracker that failed is told of where it was reached last, long ago. -/
theorem notify_judges (hw : w.Faithful) (tracker : TrackerId) : Judges p w tracker
    ((notifyIfUnreachableTooLong p.unreachableThreshold tracker).run (OutageWatch.serve p) w).2 := by
  have hrecalls := hw tracker
  unfold notifyIfUnreachableTooLong
  rw [D.ask_bind, Prog.run_call]
  split
  · rename_i hnotified
    refine hw.judges fun time rest h => ?_
    rw [h] at hrecalls
    cases hrecalls.2.symm.trans hnotified
  rename_i hnotified
  split
  · rename_i hnone
    refine hw.judges fun time rest h => ?_
    rw [h] at hrecalls
    cases hrecalls.1.symm.trans hnone
  · rename_i lastSuccess hlast
    obtain ⟨rest, hheard⟩ : ∃ rest, w.heard tracker = .reached lastSuccess :: rest := by
      cases hlog : w.heard tracker with
      | nil =>
        rw [hlog] at hrecalls
        cases hlast.symm.trans hrecalls
      | cons e rest =>
        rw [hlog] at hrecalls
        cases e with
        | reached time =>
          cases hlast.symm.trans hrecalls.1
          exact ⟨rest, rfl⟩
        | told unreachableFor => exact absurd hrecalls hnotified
        | dropped => cases hlast.symm.trans hrecalls
    rw [D.ask_bind, Prog.run_call]
    dsimp only
    split
    · rename_i hsoon
      change (p.now w.calls : ℤ) - lastSuccess < p.patience at hsoon
      have hmissed : p.missed (p.now w.calls) (w.heard tracker) = w.heard tracker := by
        rw [hheard, Polling.missed, if_neg (not_le.2 hsoon)]
      refine ⟨w.calls, hw, ?_⟩
      rw [hmissed, Function.update_eq_self]
      rfl
    · rename_i hsoon
      have hlong : (p.patience : ℤ) ≤ (p.now w.calls : ℤ) - lastSuccess := not_lt.1 hsoon
      have hmissed : p.missed (p.now w.calls) (w.heard tracker) =
          .told ((p.now w.calls : ℤ) - lastSuccess).toNat :: w.heard tracker := by
        rw [hheard, Polling.missed, if_pos hlong]
      have hafter : ¬(p.now w.calls : ℤ) - lastSuccess < 0 :=
        not_lt.2 ((Int.natCast_nonneg _).trans hlong)
      refine ⟨w.calls, ?_⟩
      rw [hmissed]
      have hheard' : (Prog.run (OutageWatch.serve p) (do
          D.ask (.markTrackerUnreachableNotified tracker)
          D.ask (.notifyUnreachable tracker.str (if (p.now w.calls : ℤ) - lastSuccess < 0 then
            p.unreachableThreshold else ((p.now w.calls : ℤ) - lastSuccess).toNat)))
          { w with calls := w.calls + 1 }).2.heard = Function.update w.heard tracker
            (.told ((p.now w.calls : ℤ) - lastSuccess).toNat :: w.heard tracker) := by
        rw [if_neg hafter]
        rfl
      exact ⟨hw.modify tracker (fun h => { h with notifiedUnreachable := true })
        (l := .told ((p.now w.calls : ℤ) - lastSuccess).toNat :: w.heard tracker) rfl rfl hheard',
        hheard'⟩

theorem HearsOf.one {l : List Heard} {n : ℕ} (hw' : w'.Faithful)
    (hheard : w'.heard = Function.update w.heard t l)
    (hlog : l = if p.reaches t then .reached (p.now n) :: w.heard t else
      p.missed (p.now n) (w.heard t)) : HearsOf p w [t] w' where
  faithful := hw'
  others t' ht' := by rw [hheard, Function.update_of_ne (mt List.mem_singleton.2 ht')]
  polled t' ht' := by
    obtain rfl := List.mem_singleton.1 ht'
    exact ⟨n, by rw [hheard, Function.update_self, hlog]⟩

theorem recordWarnings_heard (warnings : List HitAndRun) (run : DiscoveryRun) :
    ∃ n, ((warnings.foldlM recordWarning run).run (OutageWatch.serve p) w).2 =
      { w with calls := n } := by
  induction warnings generalizing run w with
  | nil => exact ⟨w.calls, rfl⟩
  | cons warning warnings ih =>
    have hfirst : ((recordWarning run warning).run (OutageWatch.serve p) w).2 =
        { w with calls := w.calls + 1 } := by
      unfold recordWarning
      rw [D.ask_bind, Prog.run_call]
      split
      · split <;> rfl
      · rfl
    rw [List.foldlM_cons, Prog.run_bind, hfirst]
    exact ih (w := { w with calls := w.calls + 1 }) _

/-- Polling a tracker is heard of as its answer says. -/
theorem pollTracker_hears (hw : w.Faithful) (run : DiscoveryRun) (tracker : TrackerId) :
    HearsOf p w [tracker]
      ((pollTracker p.unreachableThreshold run tracker).run (OutageWatch.serve p) w).2 := by
  have hreaches : p.reaches tracker = (p.polled tracker).isOk := rfl
  unfold pollTracker
  rw [D.ask_bind, Prog.run_call]
  cases hpolled : p.polled tracker with
  | error e =>
    have hanswer : (OutageWatch.serve p (.listHitAndRuns tracker) w).1 = .error e := hpolled
    rw [hanswer]
    rw [hpolled] at hreaches
    simp only [Prog.run_bind]
    have herror : OutageWatch.Faithful { w with
        calls := w.calls + 1 + 1
        diagnostics := w.diagnostics.recordTrackerError tracker (p.now (w.calls + 1)) e.toText } :=
      hw.modify tracker
        (fun h => { h with lastError := some (p.now (w.calls + 1), e.toText) })
        ((hw tracker).congr rfl rfl) rfl (Function.update_eq_self ..).symm
    obtain ⟨n, hfaithful, hheard⟩ := notify_judges (p := p) herror tracker
    refine .one (n := n) hfaithful hheard ?_
    rw [hreaches]
    rfl
  | ok warnings =>
    have hanswer : (OutageWatch.serve p (.listHitAndRuns tracker) w).1 = .ok warnings := hpolled
    rw [hanswer]
    rw [hpolled] at hreaches
    have hsuccess : OutageWatch.Faithful { w.hear tracker (.reached (p.now (w.calls + 1))) with
        calls := w.calls + 1 + 1
        diagnostics := w.diagnostics.recordTrackerSuccess tracker (p.now (w.calls + 1)) } :=
      hw.modify tracker (fun h => { h with
        lastSuccess := some (p.now (w.calls + 1)), notifiedUnreachable := false })
        (l := .reached (p.now (w.calls + 1)) :: w.heard tracker) ⟨rfl, rfl⟩ rfl rfl
    obtain ⟨n, hrest⟩ := recordWarnings_heard (p := p)
      (w := { w.hear tracker (.reached (p.now (w.calls + 1))) with
        calls := w.calls + 1 + 1
        diagnostics := w.diagnostics.recordTrackerSuccess tracker (p.now (w.calls + 1)) }) warnings
      { run with
        summary := { run.summary with
          warningsSeen := run.summary.warningsSeen + warnings.length }
        healthChanged := run.healthChanged ||
          (w.diagnostics.trackerHealth tracker).lastError.isSome }
    refine .one (n := w.calls + 1) (l := .reached (p.now (w.calls + 1)) :: w.heard tracker) ?_ ?_ ?_
    · exact hrest ▸ hsuccess
    · exact (congrArg OutageWatch.heard hrest).trans rfl
    · rw [hreaches]
      rfl

/-- A run polls each of its trackers once. -/
theorem pollTrackers_hears {trackers : List TrackerId} (hnodup : trackers.Nodup)
    (hw : w.Faithful) (run : DiscoveryRun) : HearsOf p w trackers
      ((trackers.foldlM (pollTracker p.unreachableThreshold) run).run (OutageWatch.serve p) w).2 := by
  induction trackers generalizing run w with
  | nil => exact ⟨hw, fun _ _ => rfl, fun t ht => absurd ht List.not_mem_nil⟩
  | cons tracker trackers ih =>
    obtain ⟨hnew, hnodup⟩ := List.nodup_cons.1 hnodup
    have hfirst := pollTracker_hears (p := p) hw run tracker
    rw [List.foldlM_cons, Prog.run_bind]
    generalize (pollTracker p.unreachableThreshold run tracker).run (OutageWatch.serve p) w = r
      at hfirst ⊢
    have hrest := ih hnodup hfirst.faithful r.1
    refine ⟨hrest.faithful, fun t ht => ?_, fun t ht => ?_⟩
    · rw [List.mem_cons, not_or] at ht
      rw [hrest.others t ht.2, hfirst.others t (mt List.mem_singleton.1 ht.1)]
    · rcases List.mem_cons.1 ht with rfl | ht
      · rw [hrest.others t hnew]
        exact hfirst.polled t (List.mem_singleton_self t)
      · have hne : t ≠ tracker := fun h => hnew (h ▸ ht)
        rw [← hfirst.others t (mt List.mem_singleton.1 hne)]
        exact hrest.polled t ht

theorem publishDiscovery_heard (run : DiscoveryRun) :
    ∃ n, ((publishDiscovery run).run (OutageWatch.serve p) w).2 = { w with calls := n } := by
  unfold publishDiscovery
  cases run.created.isEmpty <;> cases run.healthChanged <;> exact ⟨w.calls + 1, rfl⟩

end

/-! ## Runs and reloads -/

/-- What happens to the health of the trackers. -/
inductive Happening where
  | polls (p : Polling)
  /-- The configuration is loaded again, with these trackers. -/
  | reloads (configured : List (TrackerId × Bool))

namespace OutageWatch

def after (w : OutageWatch) : Happening → OutageWatch
  | .polls p => ((discoverHitAndRuns p.trackers p.unreachableThreshold).run (serve p)
      { w with calls := 0 }).2
  | .reloads configured => { w with
      diagnostics := w.diagnostics.reseed configured
      heard := fun t => match Diagnostics.configuredStub configured t with
        | some _ => w.heard t
        | none => .dropped :: w.heard t }

/-- The service starts with some trackers. -/
def opening (configured : List (TrackerId × Bool)) : OutageWatch :=
  ⟨Diagnostics.empty.reseed configured, 0, fun _ => []⟩

variable {w : OutageWatch}

theorem faithful_opening (configured : List (TrackerId × Bool)) : (opening configured).Faithful := by
  intro t
  simp only [opening, Diagnostics.trackerHealth, Diagnostics.reseed, Diagnostics.empty]
  cases Diagnostics.configuredStub configured t <;> rfl

theorem after_polls (hw : w.Faithful) (p : Polling) : (w.after (.polls p)).Faithful ∧
    ∀ t, ∃ n, (w.after (.polls p)).heard t = p.hears t (p.now n) (w.heard t) := by
  have hpolled := pollTrackers_hears (p := p) (w := { w with calls := 0 }) p.nodup hw .start
  obtain ⟨n, hpublished⟩ := publishDiscovery_heard (p := p)
    (w := ((p.trackers.foldlM (pollTracker p.unreachableThreshold) .start).run (serve p)
      { w with calls := 0 }).2)
    ((p.trackers.foldlM (pollTracker p.unreachableThreshold) .start).run (serve p)
      { w with calls := 0 }).1
  have hafter : w.after (.polls p) = { ((p.trackers.foldlM (pollTracker p.unreachableThreshold)
      .start).run (serve p) { w with calls := 0 }).2 with calls := n } := by
    rw [← hpublished, after, discoverHitAndRuns, Prog.run_bind]
  rw [hafter]
  refine ⟨hpolled.faithful, fun t => ?_⟩
  by_cases ht : t ∈ p.trackers
  · obtain ⟨n, hn⟩ := hpolled.polled t ht
    refine ⟨n, hn.trans ?_⟩
    rw [Polling.hears, if_pos ht]
  · refine ⟨0, (hpolled.others t ht).trans ?_⟩
    rw [Polling.hears, if_neg ht]

theorem Faithful.after (hw : w.Faithful) (e : Happening) : (w.after e).Faithful := by
  cases e with
  | polls p => exact (after_polls hw p).1
  | reloads configured =>
    intro t
    have ht := hw t
    simp only [OutageWatch.after, Diagnostics.trackerHealth, Diagnostics.reseed]
    cases Diagnostics.configuredStub configured t with
    | none => rfl
    | some stub => exact ht.congr rfl rfl

/-- What some runs and reloads leave. -/
def afterAll (w : OutageWatch) (past : List Happening) : OutageWatch := past.foldl after w

theorem Faithful.afterAll (hw : w.Faithful) (past : List Happening) : (w.afterAll past).Faithful := by
  induction past generalizing w with
  | nil => exact hw
  | cons e past ih => exact ih (hw.after e)

/-- Each notice about a tracker follows right on its being reached, and was sent by a run that
    failed to reach it, no sooner than the run's patience after. -/
def Warranted (past : List Happening) (t : TrackerId) (log : List Heard) : Prop :=
  ∀ newer d older, log = newer ++ .told d :: older →
    ∃ p time n rest, .polls p ∈ past ∧ t ∈ p.trackers ∧ p.reaches t = false ∧
      older = .reached time :: rest ∧ p.now n = time + d ∧ p.patience ≤ d

theorem Warranted.cons {past : List Happening} {t : TrackerId} {log : List Heard} {e : Heard}
    (h : Warranted past t log) (he : ∀ d, e ≠ .told d) : Warranted past t (e :: log) := by
  intro newer d older hlog
  cases newer with
  | nil => exact absurd (List.cons.inj hlog).1 (he d)
  | cons e' newer => exact h newer d older (List.cons.inj hlog).2

theorem Warranted.hears {past : List Happening} {t : TrackerId} {log : List Heard} {p : Polling}
    {n : ℕ} (h : Warranted past t log) (hp : .polls p ∈ past) :
    Warranted past t (p.hears t (p.now n) log) := by
  unfold Polling.hears
  split_ifs with ht hreaches
  · exact h.cons fun d hd => by cases hd
  · cases log with
    | nil => exact h
    | cons e log =>
      cases e with
      | reached time =>
        rw [Polling.missed]
        split_ifs with hlong
        · rintro newer d older hlog
          cases newer with
          | nil =>
            obtain ⟨hd, rfl⟩ := List.cons.inj hlog
            cases hd
            have hspan : ∀ a b c : ℕ, (c : ℤ) ≤ (a : ℤ) - b →
                a = b + ((a : ℤ) - b).toNat ∧ c ≤ ((a : ℤ) - b).toNat := by
              intro a b c h
              omega
            exact ⟨p, time, n, log, hp, ht, Bool.eq_false_iff.2 hreaches, rfl, hspan _ _ _ hlong⟩
          | cons e' newer => exact h newer d older (List.cons.inj hlog).2
        · exact h
      | told unreachableFor => exact h
      | dropped => exact h
  · exact h

theorem Warranted.mono {past past' : List Happening} {t : TrackerId} {log : List Heard}
    (h : Warranted past t log) (hpast : past ⊆ past') : Warranted past' t log := by
  intro newer d older hlog
  obtain ⟨p, time, n, rest, hp, htold⟩ := h newer d older hlog
  exact ⟨p, time, n, rest, hpast hp, htold⟩

/-- In every history of runs and reloads, the operator is notified of a tracker's outage once, and
    by the first run that fails to reach it that long after. -/
theorem outage_told (configured : List (TrackerId × Bool)) (past : List Happening) (t : TrackerId) :
    Warranted past t (((opening configured).afterAll past).heard t) ∧
      ∀ p : Polling, ∃ n, (((opening configured).afterAll past).after (.polls p)).heard t =
        p.hears t (p.now n) (((opening configured).afterAll past).heard t) := by
  refine ⟨?_, fun p => (after_polls ((faithful_opening configured).afterAll past) p).2 t⟩
  induction past using List.reverseRecOn with
  | nil => exact fun newer d older hlog => by cases newer <;> cases hlog
  | append_singleton past e ih =>
    have hmono := ih.mono (List.subset_append_left past [e])
    rw [afterAll, List.foldl_append]
    cases e with
    | polls p =>
      obtain ⟨n, hn⟩ := (after_polls ((faithful_opening configured).afterAll past) p).2 t
      rw [show List.foldl after _ [Happening.polls p] = _ from rfl]
      exact hn ▸ hmono.hears (List.mem_append_right _ (List.mem_singleton_self _))
    | reloads configured' =>
      change Warranted _ t (match Diagnostics.configuredStub configured' t with
        | some _ => ((opening configured).afterAll past).heard t
        | none => .dropped :: ((opening configured).afterAll past).heard t)
      split
      · exact hmono
      · exact hmono.cons fun d hd => by cases hd

end OutageWatch

end SeedMedic
