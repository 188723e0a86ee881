/-
  The spans of time of a configuration in the arithmetic of a generation and its worker: what
  overflows, what a timer refuses, and when a lease ends.
-/
import SeedMedic.Repair.Conclusions
import SeedMedic.Repair.StoreSpec
import SeedMedic.Runtime.Build

namespace SeedMedic

open Lib

/-! ## Arithmetic that panics -/

namespace Duration

/-- A multiple of a duration, unless it is longer than any. -/
def times (d : Duration) (n : ℕ) : Option Duration := if d * n ≤ durationMax then some (d * n) else none

/-- The sum of two durations, unless it is longer than any. -/
def plus (d e : Duration) : Option Duration := if d + e ≤ durationMax then some (d + e) else none

/-- A duration held between two bounds, which must be in order. -/
def clampTo (d low high : Duration) : Option Duration :=
  if low ≤ high then some (max low (min d high)) else none

end Duration

/-- A timer, which takes no ticks of no length. -/
def interval (period : Duration) : Option Duration := if period = 0 then none else some period

/-- The last instant of the calendar; the clock is read from the first on. -/
def calendarEnd : Time := 16544868191999999999999

/-- The instant a span after another, unless it is beyond the calendar. -/
def instantAfter (now : Time) (d : Duration) : Option Time :=
  if now + d ≤ calendarEnd then some (now + d) else none

/-- What a generation calls a late tick (`bootstrap.rs`). -/
def healthThreshold (pollInterval : Duration) : Option Duration := do
  let three ← pollInterval.times 3
  three.plus (.fromSecs 30)

/-- When a lease taken or renewed now ends (`repair/adapters/sqlite.rs`). -/
def leaseExpiry (now : Time) (lease : Duration) : Option Time :=
  instantAfter now ((chronoFromStd lease).getD 0)

/-- When a job that waits is due again (`repair/worker.rs`). -/
def dueAfter (now : Time) (after : Duration) : Option Time := instantAfter now (chronoDuration after)

/-- How long to wait before polling the tracker again (`repair/policy.rs`). -/
def clampedPollDelay (now : Time) (deadline : Option Time) (policy : SafetyPolicy) : Option Duration :=
  match deadline with
  | none => some policy.trackerPollInterval
  | some d =>
    if d < now then some policy.trackerPollInterval
    else Duration.clampTo ((d - now) / 10) policy.trackerPollMinInterval policy.trackerPollInterval

/-! ## What it computes where it does not panic -/

variable {now t : Time} {d e lease : Duration} {policy : SafetyPolicy}

theorem instantAfter_some : instantAfter now d = some t ↔ now + d ≤ calendarEnd ∧ t = now + d := by
  unfold instantAfter
  split_ifs with h
  · simp [h, eq_comm]
  · simp [h]

theorem exists_instantAfter : (∃ t, instantAfter now d = some t) ↔ now + d ≤ calendarEnd := by
  simp [instantAfter_some]

theorem healthThreshold_some {config : Config} {env : BuildEnv} {adapters : BuildEnv.Adapters}
    (h : healthThreshold (.fromSecs config.worker.pollIntervalSeconds) = some d) :
    (env.runtimeOf config adapters).healthThreshold = d := by
  obtain ⟨three, hthree, h⟩ := Option.bind_eq_some_iff.1 h
  unfold Duration.times at hthree
  unfold Duration.plus at h
  split_ifs at hthree h
  cases hthree
  cases h
  rfl

/-- The end of a lease is the one that the store records. -/
theorem leaseEnd_of_expiry (h : leaseExpiry now lease = some t) : SqliteRepairStore.leaseEnd now lease = timestamp t := by
  obtain ⟨-, rfl⟩ := instantAfter_some.1 h
  rfl

/-- Between bounds in order, a delay is always found. -/
theorem clampedPollDelay_total {deadline : Option Time}
    (h : policy.trackerPollMinInterval ≤ policy.trackerPollInterval) :
    clampedPollDelay now deadline policy = some (trackerPollDelay now deadline policy) := by
  cases deadline with
  | none => rfl
  | some deadline =>
    unfold clampedPollDelay trackerPollDelay Duration.clampTo
    simp only
    split_ifs
    · rfl
    · rfl

theorem chronoDuration_of_le (h : d ≤ i64Max * 1000000) : chronoDuration d = d := by
  rw [chronoDuration, chronoFromStd, if_pos h]
  rfl

/-- No span beyond the calendar is added, except that one the clock cannot hold counts as a minute. -/
theorem due_mono (hd : d ≤ i64Max * 1000000) (hed : e ≤ d)
    (h : now + chronoDuration d ≤ calendarEnd) : now + chronoDuration e ≤ calendarEnd := by
  rw [chronoDuration_of_le hd] at h
  rw [chronoDuration_of_le (hed.trans hd)]
  exact (Nat.add_le_add_left hed now).trans h

theorem calendarEnd_le : calendarEnd ≤ i64Max * 1000000 := by decide

/-! ## The doublings of a recheck -/

theorem saturatingMul_two (h : d ≤ calendarEnd) : saturatingMul d 2 = d * 2 := by
  have hmax : calendarEnd * 2 ≤ durationMax := by decide
  exact min_eq_left ((Nat.mul_le_mul_right 2 h).trans hmax)

theorem mul_two_pow (d j : ℕ) : d * 2 * 2 ^ j = d * 2 ^ (j + 1) := by rw [pow_succ', mul_assoc]

/-- A delay is doubled as long as it has passed and is below the cap. -/
theorem doubleDelay_cases {elapsed cap : Duration} (helapsed : elapsed ≤ calendarEnd) (fuel : ℕ)
    (d : Duration) : doubleDelay elapsed cap fuel d = d ∨ ∃ j, d * 2 ^ j ≤ elapsed ∧
      d * 2 ^ j < cap ∧ doubleDelay elapsed cap fuel d = d * 2 ^ (j + 1) := by
  induction fuel generalizing d with
  | zero => exact .inl rfl
  | succ fuel ih =>
    rw [doubleDelay]
    split_ifs with hdouble
    · rw [saturatingMul_two (hdouble.1.trans helapsed)]
      rcases ih (d * 2) with h | ⟨j, hj, hcap, h⟩
      · exact .inr ⟨0, by simpa using hdouble.1, by simpa using hdouble.2, by simpa using h⟩
      · rw [mul_two_pow] at hj hcap h
        exact .inr ⟨j + 1, hj, hcap, h⟩
    · exact .inl rfl

/-- A delay that has passed after some doublings is doubled once more. -/
theorem doubleDelay_reaches {d cap j fuel : ℕ} (hd : 0 < d) (hj : j < fuel)
    (helapsed : d * 2 ^ j ≤ calendarEnd) (hcap : d * 2 ^ j < cap) :
    doubleDelay (d * 2 ^ j) cap fuel d = d * 2 ^ (j + 1) := by
  obtain ⟨fuel, rfl⟩ := Nat.exists_eq_succ_of_ne_zero (Nat.ne_of_gt (Nat.zero_lt_of_lt hj))
  have hle : d ≤ d * 2 ^ j := Nat.le_mul_of_pos_right d (Nat.two_pow_pos j)
  rw [doubleDelay, if_pos ⟨hle, hle.trans_lt hcap⟩, saturatingMul_two (hle.trans helapsed)]
  induction j generalizing d fuel with
  | zero =>
    have hnot : ¬d * 2 ≤ d := by omega
    cases fuel with
    | zero => simp [doubleDelay]
    | succ fuel => simp [doubleDelay, hnot]
  | succ j ih =>
    obtain ⟨fuel, rfl⟩ := Nat.exists_eq_succ_of_ne_zero (n := fuel) (by omega)
    rw [← mul_two_pow] at helapsed hcap ⊢
    have hle : d * 2 ≤ d * 2 * 2 ^ j := Nat.le_mul_of_pos_right _ (Nat.two_pow_pos j)
    rw [doubleDelay, if_pos ⟨hle, hle.trans_lt hcap⟩, saturatingMul_two (hle.trans helapsed),
      ih (by omega) helapsed hcap fuel (by omega) hle, mul_two_pow]

/-- No delay fits into the calendar after more doublings than are tried. -/
theorem lt_of_doubled_le {d j : ℕ} (hd : 0 < d) (h : d * 2 ^ j ≤ calendarEnd) : j < 128 := by
  by_contra hj
  have hpow : 2 ^ 128 ≤ d * 2 ^ j :=
    (Nat.pow_le_pow_right (by decide) (not_lt.1 hj)).trans (Nat.le_mul_of_pos_left _ hd)
  have hend : calendarEnd < 2 ^ 128 := by decide
  exact absurd (hpow.trans h) (not_le.2 hend)

/-! ## A configuration in range -/

namespace Config

variable (c : Config) (now : Time)

/-- Nothing that building a generation and running its worker computes from the configured spans
    panics when the clock reads `now`, whatever it read before, and a lease ends later. -/
structure InRange : Prop where
  health : ∃ d, SeedMedic.healthThreshold (.fromSecs c.worker.pollIntervalSeconds) = some d
  work : ∃ d, interval (.fromSecs c.worker.pollIntervalSeconds) = some d
  discovery : ∃ d, interval (.fromSecs c.worker.discoveryIntervalSeconds) = some d
  lease : ∃ t, leaseExpiry now c.worker.toWorkerConfig.lease = some t ∧ timestamp now < timestamp t
  queued : ∃ t, dueAfter now (queuedRecheckPollDelay c.policy.toPolicy) = some t
  checks : ∀ elapsed ≤ calendarEnd, elapsed < c.policy.toPolicy.recheckTimeout →
    ∃ t, dueAfter now (recheckPollDelay elapsed c.policy.toPolicy) = some t
  polls : ∀ seen ≤ calendarEnd, ∀ deadline : Option Time, (∀ d ∈ deadline, d ≤ calendarEnd) →
    ∃ delay, clampedPollDelay seen deadline c.policy.toPolicy = some delay ∧
      ∃ t, dueAfter now delay = some t
  retries : ∀ attempts jitter, jitter < 2 ^ 64 →
    ∃ t, dueAfter now (retryDelayWithJitter attempts c.policy.toPolicy jitter) = some t
  idle : ∃ t, dueAfter now (.fromSecs 3600) = some t

/-- The timers tick, the threshold is a duration, and neither the lease nor a delay of the policy
    leads beyond the calendar. -/
structure Fits : Prop where
  work : 0 < c.worker.pollIntervalSeconds
  discovery : 0 < c.worker.discoveryIntervalSeconds
  health : c.worker.pollIntervalSeconds * 3 + 30 < 2 ^ 64
  lease : now + c.worker.toWorkerConfig.lease ≤ calendarEnd
  queued : now + chronoDuration c.policy.toPolicy.recheckPollMaxInterval ≤ calendarEnd
  checks : now + chronoDuration c.policy.toPolicy.recheckPollInterval ≤ calendarEnd
  /-- The recheck delay, doubled as often as it can have passed. -/
  doubled : ∀ j, c.policy.toPolicy.recheckPollInterval * 2 ^ j ≤ calendarEnd →
    c.policy.toPolicy.recheckPollInterval * 2 ^ j < c.policy.toPolicy.recheckTimeout →
    c.policy.toPolicy.recheckPollInterval * 2 ^ j < c.policy.toPolicy.recheckPollMaxInterval →
    now + chronoDuration (min (c.policy.toPolicy.recheckPollInterval * 2 ^ (j + 1))
      c.policy.toPolicy.recheckPollMaxInterval) ≤ calendarEnd
  polls : now + chronoDuration c.policy.toPolicy.trackerPollInterval ≤ calendarEnd
  /-- The tracker delay with the deadline as far off as it can be. -/
  approach : now + chronoDuration (max c.policy.toPolicy.trackerPollMinInterval
    (min (calendarEnd / 10) c.policy.toPolicy.trackerPollInterval)) ≤ calendarEnd
  /-- The longest backoff, as far as it is counted. -/
  retries : now + min (max (min (c.policy.toPolicy.retryBaseDelay * 2 ^ 16)
    c.policy.toPolicy.retryMaxDelay) 1) (2 ^ 64 - 1) ≤ calendarEnd
  idle : now + chronoDuration (.fromSecs 3600) ≤ calendarEnd

end Config

/-- A span the worker puts a job off for. -/
inductive Delay (policy : SafetyPolicy) : Duration → Prop
  | queued : Delay policy (queuedRecheckPollDelay policy)
  | check {elapsed : Duration} (hend : elapsed ≤ calendarEnd) (h : elapsed < policy.recheckTimeout) :
    Delay policy (recheckPollDelay elapsed policy)
  | poll {seen : Time} {deadline : Option Time} {after : Duration} (hend : seen ≤ calendarEnd)
      (hdeadline : ∀ d ∈ deadline, d ≤ calendarEnd)
      (h : clampedPollDelay seen deadline policy = some after) : Delay policy after
  | retry {attempts jitter : ℕ} (h : jitter < 2 ^ 64) :
    Delay policy (retryDelayWithJitter attempts policy jitter)
  | idle : Delay policy (.fromSecs 3600)

/-- In range, the instant a job is put off to is one of the calendar. -/
theorem Config.InRange.due {c : Config} (h : c.InRange now) (hd : Delay c.policy.toPolicy d) :
    ∃ t, dueAfter now d = some t := by
  cases hd with
  | queued => exact h.queued
  | check hend htimeout => exact h.checks _ hend htimeout
  | poll hend hdeadline hclamped =>
    obtain ⟨delay, hdelay, hdue⟩ := h.polls _ hend _ hdeadline
    cases hclamped.symm.trans hdelay
    exact hdue
  | retry hjitter => exact h.retries _ _ hjitter
  | idle => exact h.idle

theorem healthThreshold_iff {n : ℕ} :
    (∃ d, healthThreshold (Duration.fromSecs n) = some d) ↔ n * 3 + 30 < 2 ^ 64 := by
  have hthree : Duration.fromSecs n * 3 ≤ durationMax ↔ n * 3 < 2 ^ 64 := by
    show n * 1000000000 * 3 ≤ (2 ^ 64 - 1) * 1000000000 + 999999999 ↔ _
    omega
  have hsum : Duration.fromSecs n * 3 + Duration.fromSecs 30 ≤ durationMax ↔ n * 3 + 30 < 2 ^ 64 := by
    show n * 1000000000 * 3 + 30 * 1000000000 ≤ (2 ^ 64 - 1) * 1000000000 + 999999999 ↔ _
    omega
  unfold healthThreshold Duration.times
  split_ifs with h
  · rw [Option.bind_eq_bind, Option.bind_some, Duration.plus]
    split_ifs with h'
    · exact iff_of_true ⟨_, rfl⟩ (hsum.1 h')
    · exact iff_of_false (fun ⟨_, h⟩ => by cases h) (mt hsum.2 h')
  · refine iff_of_false (fun ⟨_, h⟩ => by cases h) fun hn => h (hthree.2 ?_)
    omega

theorem interval_iff {n : ℕ} : (∃ d, interval (Duration.fromSecs n) = some d) ↔ 0 < n := by
  have hzero : Duration.fromSecs n = 0 ↔ n = 0 := by
    show n * 1000000000 = 0 ↔ n = 0
    omega
  unfold interval
  split_ifs with h
  · exact iff_of_false (fun ⟨_, h⟩ => by cases h) (by rw [hzero.1 h]; exact lt_irrefl 0)
  · exact iff_of_true ⟨_, rfl⟩ (Nat.pos_of_ne_zero (mt hzero.2 h))

/-- A lease of at least a second ends later than now exactly when its end is in the calendar: a
    longer one that the clock cannot hold ends at once. -/
theorem lease_iff {n : ℕ} (hn : 0 < n) : (∃ t, leaseExpiry now (Duration.fromSecs n) = some t ∧
    timestamp now < timestamp t) ↔ now + Duration.fromSecs n ≤ calendarEnd := by
  unfold leaseExpiry chronoFromStd
  by_cases hfits : Duration.fromSecs n ≤ i64Max * 1000000
  · rw [if_pos hfits, Option.getD_some]
    constructor
    · rintro ⟨t, ht, -⟩
      exact (instantAfter_some.1 ht).1
    · intro h
      refine ⟨_, instantAfter_some.2 ⟨h, rfl⟩, ?_⟩
      have hmicros : (now + n * 1000000 * 1000) / 1000 = now / 1000 + n * 1000000 :=
        Nat.add_mul_div_right _ _ (by decide)
      have hnanos : n * 1000000000 = n * 1000000 * 1000 := by omega
      show now / 1000 < (now + n * 1000000000) / 1000
      rw [hnanos, hmicros]
      exact Nat.lt_add_of_pos_right (Nat.mul_pos hn (by decide))
  · rw [if_neg hfits, Option.getD_none]
    refine iff_of_false ?_ ?_
    · rintro ⟨t, ht, hlater⟩
      obtain ⟨-, rfl⟩ := instantAfter_some.1 ht
      exact absurd hlater (lt_irrefl _)
    · intro h
      exact hfits ((Nat.le_add_left _ now).trans (h.trans calendarEnd_le))

/-- The delays of a running check. -/
theorem checks_iff (hbase : policy.recheckPollInterval ≤ policy.recheckPollMaxInterval)
    (htimeout : 0 < policy.recheckTimeout)
    (hmax : now + chronoDuration policy.recheckPollMaxInterval ≤ calendarEnd) :
    (∀ elapsed ≤ calendarEnd, elapsed < policy.recheckTimeout →
        ∃ t, dueAfter now (recheckPollDelay elapsed policy) = some t) ↔
      now + chronoDuration policy.recheckPollInterval ≤ calendarEnd ∧
        ∀ j, policy.recheckPollInterval * 2 ^ j ≤ calendarEnd →
          policy.recheckPollInterval * 2 ^ j < policy.recheckTimeout →
          policy.recheckPollInterval * 2 ^ j < policy.recheckPollMaxInterval →
          now + chronoDuration (min (policy.recheckPollInterval * 2 ^ (j + 1))
            policy.recheckPollMaxInterval) ≤ calendarEnd := by
  simp only [dueAfter, exists_instantAfter]
  by_cases hzero : policy.recheckPollInterval = 0
  · have hnow : now + chronoDuration 0 ≤ calendarEnd :=
      (Nat.add_le_add_left (Nat.zero_le _) now).trans hmax
    refine iff_of_true (fun elapsed _ _ => ?_) ⟨hzero ▸ hnow, fun j _ _ _ => ?_⟩
    · rw [recheckPollDelay]
      simp only [hzero, if_true]
      exact hmax
    · rw [hzero, zero_mul, Nat.zero_min]
      exact hnow
  have hdelay : ∀ elapsed, recheckPollDelay elapsed policy =
      min (doubleDelay elapsed policy.recheckPollMaxInterval 128 policy.recheckPollInterval)
        policy.recheckPollMaxInterval := fun elapsed => by
    rw [recheckPollDelay]
    simp only [hzero, if_false]
  have hpos : 0 < policy.recheckPollInterval := Nat.pos_of_ne_zero hzero
  simp only [hdelay]
  constructor
  · intro h
    refine ⟨?_, fun j hend hpassed hcap => ?_⟩
    · have hfirst : doubleDelay 0 policy.recheckPollMaxInterval 128 policy.recheckPollInterval =
          policy.recheckPollInterval := by
        rw [doubleDelay, if_neg fun h => hzero (Nat.le_zero.1 h.1)]
      have := h 0 (Nat.zero_le _) htimeout
      rwa [hfirst, min_eq_left hbase] at this
    · have := h _ hend hpassed
      rwa [doubleDelay_reaches hpos (lt_of_doubled_le hpos hend) hend hcap] at this
  · rintro ⟨hfirst, hdoubled⟩ elapsed helapsed hpassed
    rcases doubleDelay_cases helapsed 128 policy.recheckPollInterval with h | ⟨j, hj, hcap, h⟩
    · rw [h, min_eq_left hbase]
      exact hfirst
    · rw [h]
      exact hdoubled j (hj.trans helapsed) (hj.trans_lt hpassed) hcap

/-- The delays of a tracker poll, for any deadline. -/
theorem polls_iff (hmin : policy.trackerPollMinInterval ≤ policy.trackerPollInterval) :
    (∀ seen ≤ calendarEnd, ∀ deadline : Option Time, (∀ d ∈ deadline, d ≤ calendarEnd) →
        ∃ delay, clampedPollDelay seen deadline policy = some delay ∧
          ∃ t, dueAfter now delay = some t) ↔
      now + chronoDuration policy.trackerPollInterval ≤ calendarEnd ∧
        now + chronoDuration (max policy.trackerPollMinInterval
          (min (calendarEnd / 10) policy.trackerPollInterval)) ≤ calendarEnd := by
  simp only [dueAfter, exists_instantAfter]
  constructor
  · intro h
    obtain ⟨delay, hdelay, hplain⟩ := h 0 (Nat.zero_le _) none nofun
    obtain ⟨delay', hdelay', hfar⟩ := h 0 (Nat.zero_le _) (some calendarEnd) fun d hd => by
      cases hd
      exact le_rfl
    cases hdelay
    rw [clampedPollDelay, if_neg (Nat.not_lt_zero _), Nat.sub_zero, Duration.clampTo, if_pos hmin]
      at hdelay'
    cases hdelay'
    exact ⟨hplain, hfar⟩
  · rintro ⟨hplain, hfar⟩ seen hseen deadline hdeadline
    cases deadline with
    | none => exact ⟨_, rfl, hplain⟩
    | some d =>
      rw [clampedPollDelay]
      split_ifs with hpast
      · exact ⟨_, rfl, hplain⟩
      · rw [Duration.clampTo, if_pos hmin]
        refine ⟨_, rfl, ?_⟩
        have htenth : (d - seen) / 10 ≤ calendarEnd / 10 :=
          Nat.div_le_div_right ((Nat.sub_le _ _).trans (hdeadline d rfl))
        by_cases hlow : calendarEnd / 10 ≤ policy.trackerPollMinInterval
        · -- the delay is the shortest one, however far off the deadline is
          have hleast : ∀ x ≤ calendarEnd / 10, max policy.trackerPollMinInterval
              (min x policy.trackerPollInterval) = policy.trackerPollMinInterval := fun x hx =>
            max_eq_left ((min_le_left _ _).trans (hx.trans hlow))
          rw [hleast _ le_rfl] at hfar
          rw [hleast _ htenth]
          exact hfar
        · have hend : max policy.trackerPollMinInterval
              (min (calendarEnd / 10) policy.trackerPollInterval) ≤ i64Max * 1000000 := by
            refine max_le ((not_le.1 hlow).le.trans ?_) ((min_le_left _ _).trans ?_)
            · decide
            · decide
          exact due_mono hend (max_le_max le_rfl (min_le_min htenth le_rfl)) hfar

/-- The longest backoff comes after seventeen attempts. -/
theorem retryDelay_le (attempts : ℕ) (policy : SafetyPolicy) :
    retryDelay attempts policy ≤ retryDelay 17 policy := by
  have hpow : 2 ^ min (attempts - 1) 16 ≤ 2 ^ 16 :=
    Nat.pow_le_pow_right (by decide) (Nat.min_le_right _ _)
  exact min_le_min (min_le_min (Nat.mul_le_mul_left _ hpow) le_rfl) le_rfl

/-- A jittered delay is as long as the backoff, counted in 64 bits, for some jitter, and no longer
    for any. -/
theorem retryDelayWithJitter_le (attempts jitter : ℕ) (policy : SafetyPolicy) :
    retryDelayWithJitter attempts policy jitter ≤
      min (max (retryDelay attempts policy) 1) (2 ^ 64 - 1) := by
  have hmod : retryDelayWithJitter attempts policy jitter < 2 ^ 64 := Nat.mod_lt _ (by decide)
  refine le_min ((Nat.mod_le _ _).trans (min_le_right _ _)) ?_
  exact Nat.le_sub_one_of_lt hmod

theorem exists_jitter (attempts : ℕ) (policy : SafetyPolicy) : ∃ jitter < 2 ^ 64,
    retryDelayWithJitter attempts policy jitter =
      min (max (retryDelay attempts policy) 1) (2 ^ 64 - 1) := by
  have hlongest : ∀ b : ℕ, 1 ≤ b →
      min ((min b (2 ^ 64 - 1) - 1) % b + 1) b % 2 ^ 64 = min b (2 ^ 64 - 1) := by
    intro b hb
    have hlt : min b (2 ^ 64 - 1) - 1 < b := by omega
    rw [Nat.mod_eq_of_lt hlt, Nat.mod_eq_of_lt (by omega)]
    omega
  refine ⟨min (max (retryDelay attempts policy) 1) (2 ^ 64 - 1) - 1, ?_,
    hlongest _ (le_max_right _ _)⟩
  exact (Nat.sub_le _ _).trans_lt ((min_le_right _ _).trans_lt (by decide))

/-- The delays of a retry, for any jitter. -/
theorem retries_iff : (∀ attempts jitter, jitter < 2 ^ 64 →
        ∃ t, dueAfter now (retryDelayWithJitter attempts policy jitter) = some t) ↔
      now + min (max (min (policy.retryBaseDelay * 2 ^ 16) policy.retryMaxDelay) 1) (2 ^ 64 - 1) ≤
        calendarEnd := by
  have hunbounded : min (max (retryDelay 17 policy) 1) (2 ^ 64 - 1) =
      min (max (min (policy.retryBaseDelay * 2 ^ 16) policy.retryMaxDelay) 1) (2 ^ 64 - 1) := by
    have hcounted : ∀ x m : ℕ, min (max (min (min x durationMax) m) 1) (2 ^ 64 - 1) =
        min (max (min x m) 1) (2 ^ 64 - 1) := by
      unfold durationMax
      omega
    exact hcounted _ _
  have hholds : min (max (retryDelay 17 policy) 1) (2 ^ 64 - 1) ≤ i64Max * 1000000 :=
    (min_le_right _ _).trans (by decide)
  simp only [dueAfter, exists_instantAfter, ← hunbounded]
  constructor
  · intro h
    obtain ⟨jitter, hjitter, he⟩ := exists_jitter 17 policy
    have := h 17 jitter hjitter
    rwa [he, chronoDuration_of_le hholds] at this
  · intro h attempts jitter _
    refine due_mono hholds ((retryDelayWithJitter_le attempts jitter policy).trans ?_)
      (by rwa [chronoDuration_of_le hholds])
    exact min_le_min (max_le_max (retryDelay_le attempts policy) le_rfl) le_rfl

/-! ## The configurations without errors -/

/-- A check that finds no error has not failed. -/
theorem not_of_errorless {q : Prop} [Decidable q] {p : Problem} {rest : List Problem}
    (h : ∀ x ∈ if q then [p] else rest, x.severity ≠ .error) (hp : p.severity = .error) : ¬q := by
  intro hq
  rw [if_pos hq] at h
  exact h p (List.mem_singleton_self p) hp

/-- What the problems of a configuration exclude of its spans. -/
theorem spans_of_valid {c : Config} {host : ConfigHost}
    (h : ∀ p ∈ c.problems host, p.severity ≠ .error) :
    0 < c.worker.leaseSeconds ∧ 0 < c.policy.recheckTimeoutSeconds ∧
      c.policy.recheckPollSeconds ≤ c.policy.recheckPollMaxSeconds ∧
      c.policy.trackerPollMinSeconds ≤ c.policy.trackerPollSeconds := by
  unfold Config.problems Config.policyProblems Config.workerProblems at h
  simp only [List.forall_mem_append] at h
  obtain ⟨⟨⟨⟨⟨-, hpolicy⟩, ⟨-, hlease⟩, -⟩, -⟩, -⟩, -⟩ := h
  obtain ⟨⟨⟨⟨⟨⟨⟨-, hrecheck⟩, htimeout⟩, -⟩, -⟩, -⟩, htracker⟩, -⟩ := hpolicy
  exact ⟨Nat.pos_of_ne_zero (not_of_errorless hlease rfl),
    Nat.pos_of_ne_zero (not_of_errorless htimeout rfl), not_lt.1 (not_of_errorless hrecheck rfl),
    not_lt.1 (not_of_errorless htracker rfl)⟩

theorem fromSecs_le {m n : ℕ} (h : m ≤ n) : Duration.fromSecs m ≤ Duration.fromSecs n :=
  Nat.mul_le_mul_right _ h

theorem fromSecs_pos {n : ℕ} (h : 0 < n) : 0 < Duration.fromSecs n := Nat.mul_pos h (by decide)

namespace Config

/-- A configuration without errors is in range exactly when its spans fit. -/
theorem inRange_iff_fits {c : Config} {host : ConfigHost}
    (h : ∀ p ∈ c.problems host, p.severity ≠ .error) (now : Time) :
    c.InRange now ↔ c.Fits now := by
  obtain ⟨hlease, htimeout, hrecheck, htracker⟩ := spans_of_valid h
  have hbase : c.policy.toPolicy.recheckPollInterval ≤ c.policy.toPolicy.recheckPollMaxInterval :=
    fromSecs_le hrecheck
  have hmin : c.policy.toPolicy.trackerPollMinInterval ≤ c.policy.toPolicy.trackerPollInterval :=
    fromSecs_le htracker
  have hrechecks := @checks_iff now c.policy.toPolicy hbase (fromSecs_pos htimeout)
  constructor
  · intro hc
    have hqueued := exists_instantAfter.1 hc.queued
    obtain ⟨hchecks, hdoubled⟩ := (hrechecks hqueued).1 hc.checks
    obtain ⟨hpolls, happroach⟩ := (polls_iff hmin).1 hc.polls
    exact
      { work := interval_iff.1 hc.work
        discovery := interval_iff.1 hc.discovery
        health := healthThreshold_iff.1 hc.health
        lease := (lease_iff hlease).1 hc.lease
        queued := hqueued
        checks := hchecks
        doubled := hdoubled
        polls := hpolls
        approach := happroach
        retries := retries_iff.1 hc.retries
        idle := exists_instantAfter.1 hc.idle }
  · intro hc
    exact
      { health := healthThreshold_iff.2 hc.health
        work := interval_iff.2 hc.work
        discovery := interval_iff.2 hc.discovery
        lease := (lease_iff hlease).2 hc.lease
        queued := exists_instantAfter.2 hc.queued
        checks := (hrechecks hc.queued).2 ⟨hc.checks, hc.doubled⟩
        polls := (polls_iff hmin).2 ⟨hc.polls, hc.approach⟩
        retries := retries_iff.2 hc.retries
        idle := exists_instantAfter.2 hc.idle }

end Config

end SeedMedic
