/-
  The delays of the policy in closed form: how long a check, a tracker poll and a retry are put off.
-/
import Mathlib.Order.Bounds.Basic
import SeedMedic.Runtime.Durations
import SeedMedic.Runtime.Service

namespace SeedMedic

open Lib

variable {elapsed cap d : Duration} {policy : SafetyPolicy} {now : Time}

/-! ## The doublings of a check -/

theorem saturatingMul_le : d ≤ durationMax → d ≤ saturatingMul d 2 := by
  intro h
  exact le_min (Nat.le_mul_of_pos_right d Nat.two_pos) h

/-- Doubling never shortens a delay. -/
theorem le_doubleDelay (fuel : ℕ) (h : d ≤ durationMax) : d ≤ doubleDelay elapsed cap fuel d := by
  induction fuel generalizing d with
  | zero => exact le_rfl
  | succ fuel ih =>
    rw [doubleDelay]
    split_ifs
    · exact (saturatingMul_le h).trans (ih (min_le_right _ _))
    · exact le_rfl

/-- The loop has come to its end: the delay has not passed yet, or is as long as the cap. -/
def Doubled (elapsed cap d : Duration) : Prop := ¬(d ≤ elapsed ∧ d < cap)

/-- A loop that has come to its end is not continued. -/
theorem doubleDelay_of_doubled (h : Doubled elapsed cap d) (fuel : ℕ) :
    doubleDelay elapsed cap fuel d = d := by
  cases fuel with
  | zero => rfl
  | succ fuel => rw [doubleDelay, if_neg h]

/-- The loop comes to its end within the doublings that lead a delay up to the cap. -/
theorem doubleDelay_ends (hcap : cap ≤ durationMax) {fuel : ℕ} (hfuel : cap ≤ d * 2 ^ fuel) :
    Doubled elapsed cap (doubleDelay elapsed cap fuel d) := by
  induction fuel generalizing d with
  | zero =>
    rintro ⟨-, hlt⟩
    rw [pow_zero, mul_one] at hfuel
    exact absurd (hlt.trans_le hfuel) (lt_irrefl _)
  | succ fuel ih =>
    rw [doubleDelay]
    split_ifs with hdouble
    · refine ih ?_
      rcases le_total (d * 2) durationMax with hle | hle
      · rw [saturatingMul, min_eq_left hle, mul_two_pow]
        exact hfuel
      · rw [saturatingMul, min_eq_right hle]
        exact hcap.trans (Nat.le_mul_of_pos_right _ (Nat.two_pow_pos fuel))
    · exact hdouble

/-- Further doublings change nothing once the loop has come to its end. -/
theorem doubleDelay_add {fuel : ℕ} (h : Doubled elapsed cap (doubleDelay elapsed cap fuel d)) (n : ℕ) :
    doubleDelay elapsed cap (fuel + n) d = doubleDelay elapsed cap fuel d := by
  induction fuel generalizing d with
  | zero =>
    rw [Nat.zero_add]
    exact doubleDelay_of_doubled h n
  | succ fuel ih =>
    rw [Nat.add_right_comm, doubleDelay, doubleDelay]
    rw [doubleDelay] at h
    split_ifs at h ⊢
    · exact ih h
    · rfl

/-- The doublings of a delay that have not all passed. -/
def Outlasts (elapsed d : Duration) : Set ℕ := {k | elapsed < d * 2 ^ k}

theorem exists_outlasts (hd : 0 < d) (elapsed : Duration) : ∃ k, IsLeast (Outlasts elapsed d) k := by
  have hex : ∃ k, elapsed < d * 2 ^ k :=
    ⟨elapsed, Nat.lt_two_pow_self.trans_le (Nat.le_mul_of_pos_left _ hd)⟩
  exact ⟨Nat.find hex, Nat.find_spec hex, fun k hk => Nat.find_le hk⟩

/-- One doubling less is missing from the double. -/
theorem outlasts_double {k : ℕ} (h : IsLeast (Outlasts elapsed d) (k + 1)) :
    IsLeast (Outlasts elapsed (d * 2)) k := by
  constructor
  · show elapsed < d * 2 * 2 ^ k
    rw [mul_two_pow]
    exact h.1
  · intro j hj
    have : elapsed < d * 2 ^ (j + 1) := by
      rw [← mul_two_pow]
      exact hj
    exact Nat.le_of_succ_le_succ (h.2 this)

/-- Up to the cap, the loop ends with the least doubling that has not passed. -/
theorem min_doubleDelay (hcap : cap ≤ durationMax) {fuel k : ℕ} (hfuel : cap ≤ d * 2 ^ fuel)
    (hk : IsLeast (Outlasts elapsed d) k) :
    min (doubleDelay elapsed cap fuel d) cap = min (d * 2 ^ k) cap := by
  have hgrows : d ≤ d * 2 ^ k := Nat.le_mul_of_pos_right _ (Nat.two_pow_pos k)
  induction fuel generalizing d k with
  | zero =>
    rw [pow_zero, mul_one] at hfuel
    rw [doubleDelay, min_eq_right hfuel, min_eq_right (hfuel.trans hgrows)]
  | succ fuel ih =>
    rw [doubleDelay]
    split_ifs with hdouble
    · cases k with
      | zero =>
        have hlast : elapsed < d * 2 ^ 0 := hk.1
        rw [pow_zero, mul_one] at hlast
        exact absurd (hlast.trans_le hdouble.1) (lt_irrefl _)
      | succ k =>
        rw [← mul_two_pow] at hfuel ⊢
        rcases le_total (d * 2) durationMax with hle | hle
        · rw [saturatingMul, min_eq_left hle]
          exact ih hfuel (outlasts_double hk) (Nat.le_mul_of_pos_right _ (Nat.two_pow_pos k))
        · -- both are beyond the cap
          have hend : cap ≤ doubleDelay elapsed cap fuel (saturatingMul d 2) := by
            rw [saturatingMul, min_eq_right hle]
            exact hcap.trans (le_doubleDelay fuel le_rfl)
          rw [min_eq_right hend, min_eq_right]
          exact (hcap.trans hle).trans (Nat.le_mul_of_pos_right _ (Nat.two_pow_pos k))
    · rcases not_and_or.1 hdouble with hlast | hlong
      · have hzero : k = 0 := by
          refine Nat.le_zero.1 (hk.2 ?_)
          show elapsed < d * 2 ^ 0
          rw [pow_zero, mul_one]
          exact not_le.1 hlast
        rw [hzero, pow_zero, mul_one]
      · rw [min_eq_right (not_lt.1 hlong), min_eq_right ((not_lt.1 hlong).trans hgrows)]

/-- No cap is further off than the doublings that are tried. -/
theorem le_doubled (hd : 0 < d) (hcap : cap ≤ durationMax) : cap ≤ d * 2 ^ 128 := by
  have hmax : durationMax ≤ 2 ^ 128 := by decide
  exact (hcap.trans hmax).trans (Nat.le_mul_of_pos_left _ hd)

/-- The delay of a check is its base delay, doubled as often as it has passed, up to the cap. -/
theorem recheckPollDelay_eq (hbase : 0 < policy.recheckPollInterval)
    (hcap : policy.recheckPollMaxInterval ≤ durationMax) {k : ℕ}
    (hk : IsLeast (Outlasts elapsed policy.recheckPollInterval) k) :
    recheckPollDelay elapsed policy =
      min policy.recheckPollMaxInterval (policy.recheckPollInterval * 2 ^ k) := by
  rw [recheckPollDelay]
  simp only [Nat.ne_of_gt hbase, if_false]
  rw [min_doubleDelay hcap (le_doubled hbase hcap) hk, min_comm]

/-- A check that has run for longer has passed no fewer doublings. -/
theorem outlasts_mono {later : Duration} {j k : ℕ} (h : elapsed ≤ later)
    (hj : IsLeast (Outlasts elapsed d) j) (hk : IsLeast (Outlasts later d) k) : j ≤ k :=
  hj.2 (lt_of_le_of_lt h hk.1)

theorem recheckPollDelay_mono (hbase : 0 < policy.recheckPollInterval)
    (hcap : policy.recheckPollMaxInterval ≤ durationMax) {later : Duration} (h : elapsed ≤ later) :
    recheckPollDelay elapsed policy ≤ recheckPollDelay later policy := by
  obtain ⟨j, hj⟩ := exists_outlasts hbase elapsed
  obtain ⟨k, hk⟩ := exists_outlasts hbase later
  rw [recheckPollDelay_eq hbase hcap hj, recheckPollDelay_eq hbase hcap hk]
  exact min_le_min le_rfl (Nat.mul_le_mul_left _
    (Nat.pow_le_pow_right Nat.two_pos (outlasts_mono h hj hk)))

/-! ## The approach of a deadline -/

/-- Between the bounds of a policy in order, and the longer the further off the deadline is. -/
theorem trackerPollDelay_bounds (h : policy.trackerPollMinInterval ≤ policy.trackerPollInterval)
    {deadline : Time} (hdeadline : now < deadline) :
    policy.trackerPollMinInterval ≤ trackerPollDelay now (some deadline) policy ∧
      trackerPollDelay now (some deadline) policy ≤ policy.trackerPollInterval := by
  rw [trackerPollDelay]
  simp only [Nat.not_lt_of_gt hdeadline, if_false]
  exact ⟨le_max_left _ _, max_le h (min_le_right _ _)⟩

theorem trackerPollDelay_mono {deadline later : Time} (hdeadline : now < deadline)
    (hlater : deadline ≤ later) :
    trackerPollDelay now (some deadline) policy ≤ trackerPollDelay now (some later) policy := by
  rw [trackerPollDelay, trackerPollDelay]
  simp only [Nat.not_lt_of_gt hdeadline, Nat.not_lt_of_gt (hdeadline.trans_le hlater), if_false]
  exact max_le_max le_rfl (min_le_min (Nat.div_le_div_right (Nat.sub_le_sub_right hlater now)) le_rfl)

/-! ## Both delays -/

/-- How a running check is put off under a policy: the doubling loop ends, the delay it ends with is
    the least doubling of the base that has not passed, up to the cap, and it grows with the check. -/
structure ChecksBackOff (policy : SafetyPolicy) (elapsed : Duration) : Prop where
  ends : ∀ fuel ≥ 128, Doubled elapsed policy.recheckPollMaxInterval
    (doubleDelay elapsed policy.recheckPollMaxInterval fuel policy.recheckPollInterval) ∧
    doubleDelay elapsed policy.recheckPollMaxInterval fuel policy.recheckPollInterval =
      doubleDelay elapsed policy.recheckPollMaxInterval 128 policy.recheckPollInterval
  least : ∃ k, IsLeast (Outlasts elapsed policy.recheckPollInterval) k ∧
    recheckPollDelay elapsed policy =
      min policy.recheckPollMaxInterval (policy.recheckPollInterval * 2 ^ k)
  bounds : policy.recheckPollInterval ≤ recheckPollDelay elapsed policy ∧
    recheckPollDelay elapsed policy ≤ policy.recheckPollMaxInterval
  grows : ∀ later, elapsed ≤ later → recheckPollDelay elapsed policy ≤ recheckPollDelay later policy

/-- How the tracker is polled before a deadline: the clamp has its bounds in order, and the delay
    lies between them and does not get shorter for a later deadline. -/
structure PollsApproach (policy : SafetyPolicy) (now deadline : Time) : Prop where
  clamps : clampedPollDelay now (some deadline) policy =
    some (trackerPollDelay now (some deadline) policy)
  bounds : policy.trackerPollMinInterval ≤ trackerPollDelay now (some deadline) policy ∧
    trackerPollDelay now (some deadline) policy ≤ policy.trackerPollInterval
  grows : ∀ later, deadline ≤ later →
    trackerPollDelay now (some deadline) policy ≤ trackerPollDelay now (some later) policy

theorem checksBackOff (hbase : 0 < policy.recheckPollInterval)
    (hcap : policy.recheckPollInterval ≤ policy.recheckPollMaxInterval)
    (hmax : policy.recheckPollMaxInterval ≤ durationMax) (elapsed : Duration) :
    ChecksBackOff policy elapsed := by
  obtain ⟨k, hk⟩ := exists_outlasts hbase elapsed
  have heq := recheckPollDelay_eq hbase hmax hk
  have hends : Doubled elapsed policy.recheckPollMaxInterval
      (doubleDelay elapsed policy.recheckPollMaxInterval 128 policy.recheckPollInterval) :=
    doubleDelay_ends hmax (le_doubled hbase hmax)
  refine ⟨fun fuel hfuel => ?_, ⟨k, hk, heq⟩, ⟨?_, ?_⟩, fun later => recheckPollDelay_mono hbase hmax⟩
  · obtain ⟨n, rfl⟩ := Nat.exists_eq_add_of_le hfuel
    rw [doubleDelay_add hends]
    exact ⟨hends, rfl⟩
  · rw [heq]
    exact le_min hcap (Nat.le_mul_of_pos_right _ (Nat.two_pow_pos k))
  · rw [heq]
    exact min_le_left _ _

theorem pollsApproach (h : policy.trackerPollMinInterval ≤ policy.trackerPollInterval)
    {deadline : Time} (hdeadline : now < deadline) : PollsApproach policy now deadline where
  clamps := clampedPollDelay_total h
  bounds := trackerPollDelay_bounds h hdeadline
  grows _ hlater := trackerPollDelay_mono hdeadline hlater

/-- Checks back off under every policy whose bounds are in order, and the tracker is polled on the
    approach of a deadline under every policy a configuration without errors has. -/
theorem delays_closed :
    (∀ (policy : SafetyPolicy) (elapsed : Duration), 0 < policy.recheckPollInterval →
      policy.recheckPollInterval ≤ policy.recheckPollMaxInterval →
      policy.recheckPollMaxInterval ≤ durationMax → ChecksBackOff policy elapsed) ∧
    ∀ (c : Config) (host : ConfigHost) (now deadline : Time),
      (∀ p ∈ c.problems host, p.severity ≠ .error) → now < deadline →
        PollsApproach c.policy.toPolicy now deadline := by
  refine ⟨fun policy elapsed hbase hcap hmax => checksBackOff hbase hcap hmax elapsed,
    fun c host now deadline h hdeadline => ?_⟩
  exact pollsApproach (fromSecs_le (spans_of_valid h).2.2.2) hdeadline

theorem default_delays_closed :
    ChecksBackOff .default (.fromSecs 40) ∧ PollsApproach Config.default.policy.toPolicy 5 7 := by
  have h : ∀ p ∈ Config.default.problems .plain, p.severity ≠ .error := by decide +kernel
  exact ⟨delays_closed.1 .default (.fromSecs 40) (by decide) (by decide) (by decide),
    delays_closed.2 .default .plain 5 7 h (by decide)⟩

/-! ## The backoff of a retry -/

theorem retryDelay_mono {attempts later : ℕ} (h : attempts ≤ later) (policy : SafetyPolicy) :
    retryDelay attempts policy ≤ retryDelay later policy := by
  have hpow : 2 ^ min (attempts - 1) 16 ≤ 2 ^ min (later - 1) 16 :=
    Nat.pow_le_pow_right Nat.two_pos (min_le_min (Nat.sub_le_sub_right h 1) le_rfl)
  exact min_le_min (min_le_min (Nat.mul_le_mul_left _ hpow) le_rfl) le_rfl

/-- The delay is lost where it is counted as a whole word. -/
theorem retryDelayWithJitter_eq_zero {attempts : ℕ} (jitter : UInt64) :
    retryDelayWithJitter attempts policy jitter.toNat = 0 ↔
      2 ^ 64 ≤ retryDelay attempts policy ∧ jitter.toNat = 2 ^ 64 - 1 := by
  have hword : ∀ b j : ℕ, 0 < b → j < 2 ^ 64 →
      (min (j % b + 1) b % 2 ^ 64 = 0 ↔ 2 ^ 64 ≤ b ∧ j = 2 ^ 64 - 1) := by
    intro b j hb hj
    have hmod : j % b < b := Nat.mod_lt j hb
    have hle : j % b ≤ j := Nat.mod_le j b
    rw [min_eq_left (by omega)]
    constructor
    · intro h
      obtain ⟨n, hn⟩ := Nat.dvd_of_mod_eq_zero h
      have hwhole : j % b + 1 = 2 ^ 64 := by
        cases n with
        | zero => omega
        | succ n => omega
      exact ⟨by omega, by omega⟩
    · rintro ⟨hlong, rfl⟩
      have hrest : (2 ^ 64 - 1) % b = 2 ^ 64 - 1 := Nat.mod_eq_of_lt (by omega)
      rw [hrest, Nat.sub_add_cancel Nat.one_le_two_pow, Nat.mod_self]
  rw [retryDelayWithJitter, hword _ _ (Nat.lt_of_lt_of_le Nat.one_pos (le_max_right _ _)) jitter.toNat_lt]
  have hmax : ∀ r : ℕ, 2 ^ 64 ≤ max r 1 ↔ 2 ^ 64 ≤ r := by
    intro r
    omega
  rw [hmax]

/-- What is expected of the backoff of a retry. -/
structure BacksOff (policy : SafetyPolicy) (attempts : ℕ) (jitter : UInt64) : Prop where
  grows : ∀ later, attempts ≤ later → retryDelay attempts policy ≤ retryDelay later policy
  capped : retryDelay attempts policy ≤ policy.retryMaxDelay
  positive : 0 < retryDelay attempts policy → 0 < retryDelayWithJitter attempts policy jitter.toNat
  jittered : 0 < retryDelay attempts policy →
    retryDelayWithJitter attempts policy jitter.toNat ≤ retryDelay attempts policy

/-- A retry backs off unless its backoff is longer than a word of nanoseconds and its jitter is the
    last of them. -/
theorem backsOff_iff (policy : SafetyPolicy) (attempts : ℕ) (jitter : UInt64) :
    BacksOff policy attempts jitter ↔
      policy.retryBaseDelay * 2 ^ min (attempts - 1) 16 < 2 ^ 64 ∨ policy.retryMaxDelay < 2 ^ 64 ∨
        jitter.toNat ≠ 2 ^ 64 - 1 := by
  have hlong : 2 ^ 64 ≤ retryDelay attempts policy ↔
      2 ^ 64 ≤ policy.retryBaseDelay * 2 ^ min (attempts - 1) 16 ∧ 2 ^ 64 ≤ policy.retryMaxDelay := by
    have hmax : 2 ^ 64 ≤ durationMax := by decide
    rw [retryDelay, saturatingMul, le_min_iff, le_min_iff]
    exact ⟨fun h => ⟨h.1.1, h.2⟩, fun h => ⟨⟨h.1, hmax⟩, h.2⟩⟩
  have hzero : retryDelayWithJitter attempts policy jitter.toNat = 0 ↔
      2 ^ 64 ≤ retryDelay attempts policy ∧ jitter.toNat = 2 ^ 64 - 1 :=
    retryDelayWithJitter_eq_zero jitter
  rw [hlong] at hzero
  constructor
  · intro h
    by_contra hnot
    push Not at hnot
    obtain ⟨hbase, hcap, hlast⟩ := hnot
    have hpos : 0 < retryDelay attempts policy :=
      (Nat.two_pow_pos 64).trans_le (hlong.2 ⟨hbase, hcap⟩)
    exact absurd (hzero.2 ⟨⟨hbase, hcap⟩, hlast⟩) (Nat.ne_of_gt (h.positive hpos))
  · intro h
    refine ⟨fun later hlater => retryDelay_mono hlater policy, min_le_right _ _, fun _ => ?_, fun hpos => ?_⟩
    · refine Nat.pos_of_ne_zero fun he => ?_
      obtain ⟨⟨hbase, hcap⟩, hlast⟩ := hzero.1 he
      rcases h with h | h | h
      · exact absurd h (not_lt.2 hbase)
      · exact absurd h (not_lt.2 hcap)
      · exact h hlast
    · have hle := retryDelayWithJitter_le attempts jitter.toNat policy
      rw [max_eq_left (Nat.succ_le_of_lt hpos)] at hle
      exact hle.trans (min_le_left _ _)

/-- A backoff of six hundred years is not waited for at all. -/
theorem hot_retry :
    ¬∀ (policy : SafetyPolicy) (attempts : ℕ) (jitter : UInt64), BacksOff policy attempts jitter := by
  intro h
  have hc := h { SafetyPolicy.default with
    retryBaseDelay := .fromSecs 18921600000, retryMaxDelay := .fromSecs 18921600000 } 1 (.ofNat (2 ^ 64 - 1))
  have hpos := hc.positive (by decide)
  revert hpos
  decide

end SeedMedic
