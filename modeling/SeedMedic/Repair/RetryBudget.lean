/-
  What the retry budget of a job stands for: the retries the log shows, and the attempts the
  store has.
-/
import SeedMedic.Repair.Logbook

namespace SeedMedic

open Lib Prog SqliteRepairStore

namespace Logbook

variable {ι κ : Type} {deps : ι → RepairDeps} {w : Logbook ι} {i : ι} {c : Call} {r : Ans c}
  {s : SqliteRepairStore}

/-! ## A job is parked after retries in a row -/

/-- The condition on a call: a step that has to be retried, where the last step of its job was none
    that had to be retried in this state, is one of a job no attempts of which are counted. -/
def RetriesInRow (deps : ι → RepairDeps) : ι ⊕ κ → (c : Call) → Ans c → Logbook ι → Prop
  | .inl i, c, r, w => w.Sole κ (.inl i) c ∧ ∀ job error,
      (w.bench i).concludes (deps i) c r = some (job, .retry error) →
        w.retries job.id job.state = 0 → job.attempts = 0
  | .inr _, _, _, _ => True

/-- Attempts are counted for no more than retries in a row, as long as the row lasts. -/
structure Budgeted (w : Logbook ι) : Prop where
  handed : w.Handed
  rows : ∀ id r, w.store.jobs.get? id = some r → Tallies r.attempts (w.retries id r.state)
  copies : ∀ i, ∀ job ∈ (w.bench i).copies, w.holder job.id = some i →
    Tallies job.attempts (w.retries job.id job.state)
  concluded : ∀ i job outcome, (w.bench i).concluded = some (job, outcome) →
    w.holder job.id = some i →
      (∀ error, outcome = .retry error → job.attempts + 1 ≤ w.retries job.id job.state) ∧
        ∀ r, w.store.jobs.get? job.id = some r → Tallies (r.attempts + 1) (w.retries job.id r.state)

theorem Budgeted.opening {s : SqliteRepairStore} {now : Time}
    (h : ∀ id r, s.jobs.get? id = some r → r.attempts = 0) : (opening s now : Logbook ι).Budgeted where
  handed := .opening s now
  rows id r hr := h id r hr ▸ .zero _
  copies _ _ hjob := by cases hjob
  concluded _ _ _ hout := by cases hout

/-- One attempt is counted for any row of retries there is. -/
theorem tallies_one (k : ℕ) : Tallies 1 k := by
  unfold Tallies
  omega

/-- The steps of a job after one of them concluded. -/
theorem enterStep_self {d : RepairDeps} {job : RepairJob} {outcome : StepOutcome}
    (h : (w.bench i).concludes d c r = some (job, outcome)) :
    w.enterStep d i c r job.id = ⟨job.state, outcome⟩ :: w.steps job.id := by
  unfold enterStep
  rw [h]
  exact Function.update_self ..

/-- Only a retry in the state goes on with its row. -/
theorem retries_cases (state : RepairState) (e : Executed) :
    (e.retries state = true ∧ e.state = state ∧ ∃ error, e.outcome = .retry error) ∨
      e.retries state = false := by
  obtain ⟨s, outcome⟩ := e
  cases outcome with
  | retry error =>
    by_cases hs : s = state
    · exact .inl ⟨by simp [Executed.retries, hs], hs, error, rfl⟩
    · exact .inr (by simp [Executed.retries, hs])
  | _ => exact .inr rfl

/-- Where a job was not retried last, a step that has to be retried finds no attempts counted. -/
theorem Budgeted.fresh (h : w.Budgeted) {d : RepairDeps} (hn : Noted d w i c r s)
    (hsole : w.Sole κ (.inl i) c) {job : RepairJob} {outcome : StepOutcome}
    (hc : (w.bench i).concludes d c r = some (job, outcome))
    (hok : ∀ error, outcome = .retry error → w.retries job.id job.state = 0 → job.attempts = 0)
    {r₀ : JobRow} (hr₀ : w.store.jobs.get? job.id = some r₀)
    (hnone : streak (Executed.retries r₀.state) (w.steps job.id) = 0)
    (hretried : Executed.retries r₀.state ⟨job.state, outcome⟩ = true) : r₀.attempts = 0 := by
  rcases retries_cases r₀.state ⟨job.state, outcome⟩ with ⟨-, hstate, error, hout⟩ | hno
  · obtain ⟨hmem, hholder, -⟩ := h.handed.stepped hn hsole (Bench.stepped_of_concludes hc)
    have hzero := hok error hout (by rw [retries, show job.state = r₀.state from hstate]; exact hnone)
    have hle := (h.handed.copies i job hmem hholder r₀ hr₀).1
    rw [hzero] at hle
    unfold asU32 at hle
    omega
  · rw [hretried] at hno
    cases hno

variable [DecidableEq ι]

theorem Spares.retries {d : RepairDeps} {id : JobId} (h : w.Spares d i c r id) (state : RepairState) :
    (w.note d i c r).retries id state = w.retries id state :=
  congrArg (streak _) h.steps

/-- A concluded step of a job enters its row of retries, or ends it. -/
theorem retries_note {d : RepairDeps} {job : RepairJob} {outcome : StepOutcome}
    (h : (w.bench i).concludes d c r = some (job, outcome)) (state : RepairState) :
    (w.note d i c r).retries job.id state =
      streak (Executed.retries state) (⟨job.state, outcome⟩ :: w.steps job.id) :=
  congrArg (streak _) (enterStep_self h)

theorem Budgeted.rows_note (h : w.Budgeted) {d : RepairDeps} (hn : Noted d w i c r s)
    (hsole : w.Sole κ (.inl i) c)
    (hfresh : ∀ job error, (w.bench i).concludes d c r = some (job, .retry error) →
      w.retries job.id job.state = 0 → job.attempts = 0) {id : JobId} {r' : JobRow}
    (hr' : s.jobs.get? id = some r') : Tallies r'.attempts ((w.note d i c r).retries id r'.state) := by
  obtain ⟨r₀, hr₀, hrow⟩ := hn.rowAfter hr'
  have hold := h.rows id r₀ hr₀
  have hid : r₀.id = id := (Table.get?_some hr₀).2
  by_cases hc : ∃ job outcome, (w.bench i).concludes d c r = some (job, outcome) ∧ job.id = id
  · -- a step of the job concludes
    obtain ⟨job, outcome, hc, rfl⟩ := hc
    obtain ⟨-, -, -, hcall⟩ := h.handed.stepped hn hsole (Bench.stepped_of_concludes hc)
    obtain ⟨hstate, hattempts, -⟩ := hrow.of_step hcall
    rw [retries_note hc, hstate, hattempts]
    refine hold.cons fun hnone hretried => ?_
    have hzero := h.fresh hn hsole hc (fun error he => hfresh job error (he ▸ hc)) hr₀ hnone hretried
    omega
  · have hsteps : (w.note d i c r).retries id r'.state = w.retries id r'.state := by
      refine congrArg (streak _) (enterStep_other fun job outcome hcon he => hc ⟨job, outcome, hcon, he⟩)
    rw [hsteps]
    cases hrow with
    | kept hstate hattempts =>
      rw [hstate, hattempts]
      exact hold
    | moved _ _ hattempts =>
      rw [hattempts]
      exact .zero _
    | progressed _ _ hstate hattempts =>
      rw [hstate, hattempts]
      exact hold
    | counted call hstate hattempts =>
      -- counted for the step that concluded last
      have hholder := hsole.holder (.inr (.inr ⟨_, _, call⟩))
      subst call
      obtain ⟨job, outcome, hconcluded, hjob, -⟩ := hn.may rfl
      rw [← hjob] at hholder
      rw [hstate, hattempts, ← hid, ← hjob]
      exact (h.concluded i job outcome hconcluded hholder).2 r₀ (by rw [hjob, hid]; exact hr₀)

theorem budgeted_invariant : LogInvariant deps
    (RetriesInRow deps : ι ⊕ κ → (c : Call) → Ans c → Logbook ι → Prop) fun w => w.Budgeted := by
  have hhanded : LogInvariant deps (fun (i : ι ⊕ κ) c _ w => w.Sole κ i c)
      fun w : Logbook ι => w.Handed := handed_invariant
  refine
    { worker := ?_
      bystander := ?_
      pass := fun w now h => ⟨hhanded.pass w now h.handed, h.rows, h.copies, h.concluded⟩
      discovery := ?_ }
  · rintro i c r w s h hn ⟨hsole, hfresh⟩
    have hrows : ∀ id r', s.jobs.get? id = some r' →
        Tallies r'.attempts ((w.note (deps i) i c r).retries id r'.state) :=
      fun id r' => h.rows_note hn hsole hfresh
    refine ⟨hhanded.worker i c r w s h.handed hn hsole, hrows,
      fun j job hjob hholder => ?_, fun j job outcome hout hholder => ?_⟩
    · show Tallies job.attempts ((w.note (deps i) i c r).retries job.id job.state)
      rcases h.handed.copies_note hn hsole hjob hholder with ⟨hd, -⟩ | ⟨hmem, hold, hspared, -⟩
      · obtain ⟨row, hrow, rfl⟩ := hn.replies.delivers hd
        exact (hrows _ row hrow).mono (asU32_le _)
      · rw [hspared.retries]
        exact h.copies j job hmem hold
    · show (∀ error, outcome = .retry error →
          job.attempts + 1 ≤ (w.note (deps i) i c r).retries job.id job.state) ∧
        ∀ r', s.jobs.get? job.id = some r' →
          Tallies (r'.attempts + 1) ((w.note (deps i) i c r).retries job.id r'.state)
      rcases h.handed.concluded_note hn hsole hout hholder with ⟨rfl, hc⟩ | ⟨hold, hholder', hspared⟩
      · obtain ⟨hmem, hholder', -, hcall⟩ := h.handed.stepped hn hsole (Bench.stepped_of_concludes hc)
        refine ⟨fun error he => ?_, fun r' hr' => ?_⟩
        · subst he
          have hcopy := h.copies j job hmem hholder'
          rw [retries_note hc, streak_hit (by simp [Executed.retries])]
          by_cases hnone : w.retries job.id job.state = 0
          · have hzero := hfresh job error hc hnone
            omega
          · exact Nat.succ_le_succ (hcopy.running (Nat.pos_of_ne_zero hnone))
        · obtain ⟨r₀, hr₀, hrow⟩ := hn.rowAfter hr'
          obtain ⟨hstate, hattempts, -⟩ := hrow.of_step hcall
          rw [retries_note hc, hstate, hattempts]
          rcases retries_cases r₀.state ⟨job.state, outcome⟩ with ⟨hretried, -⟩ | hno
          · rw [streak_hit hretried]
            by_cases hnone : streak (Executed.retries r₀.state) (w.steps job.id) = 0
            · have hzero := h.fresh hn hsole hc (fun error he => hfresh job error (he ▸ hc)) hr₀ hnone
                hretried
              exact .inl (by omega)
            · exact .inl (Nat.succ_le_succ ((h.rows _ r₀ hr₀).running (Nat.pos_of_ne_zero hnone)))
          · exact .inr (streak_miss hno)
      · obtain ⟨hretry, hrows'⟩ := h.concluded j job outcome hold hholder'
        rw [hspared.retries]
        refine ⟨hretry, fun r' hr' => ?_⟩
        rw [hspared.retries]
        obtain ⟨r₀, hr₀, hrow⟩ := hn.rowAfter hr'
        rcases hspared.rows r₀ r' (Table.get?_some hr₀).2 hrow with ⟨hattempts, hstate⟩ | hattempts
        · rw [hattempts, hstate]
          exact hrows' r₀ hr₀
        · rw [hattempts]
          exact tallies_one _
  · intro c r w s h hc hs
    refine ⟨hhanded.bystander c r w s h.handed hc hs, fun id r' hr' => ?_, h.copies,
      fun j job outcome hout hholder => ?_⟩
    · obtain ⟨r₀, hr₀, ⟨hattempts, hstate⟩ | hattempts, -⟩ := hc.rowAfter hs hr'
      · rw [hattempts, hstate]
        exact h.rows id r₀ hr₀
      · rw [hattempts]
        exact .zero _
    · obtain ⟨hretry, hrows⟩ := h.concluded j job outcome hout hholder
      refine ⟨hretry, fun r' hr' => ?_⟩
      obtain ⟨r₀, hr₀, ⟨hattempts, hstate⟩ | hattempts, -⟩ := hc.rowAfter hs hr'
      · rw [hattempts, hstate]
        exact hrows r₀ hr₀
      · rw [hattempts]
        exact tallies_one _
  · intro w s now hr d h hok
    refine ⟨hhanded.discovery w s now hr d h.handed hok, fun id r' hr' => ?_, h.copies,
      fun j job outcome hout hholder => ?_⟩
    · rcases discovered_row hok hr' with hr' | ⟨ha, -⟩
      · exact h.rows id r' hr'
      · exact ha ▸ .zero _
    · obtain ⟨hretry, hrows⟩ := h.concluded j job outcome hout hholder
      refine ⟨hretry, fun r' hr' => ?_⟩
      rcases discovered_row hok hr' with hr' | ⟨ha, -⟩
      · exact hrows r' hr'
      · rw [ha]
        exact tallies_one _

end Logbook

/-! ## No attempts beyond the budget -/

namespace Logbook

variable {ι κ : Type} {deps : ι → RepairDeps} {w : Logbook ι} {i : ι} {c : Call} {r : Ans c}
  {s : SqliteRepairStore}

/-- The condition on a call: an attempt is counted for a step that was none to retry only while the
    budget has room for one more. -/
def CountsInBudget (max : ℕ) : ι ⊕ κ → (c : Call) → Ans c → Logbook ι → Prop
  | .inl i, c, _, w => w.Sole κ (.inl i) c ∧ ∀ id retryAt, c = .store (.release id retryAt true) →
      ∀ job outcome, (w.bench i).concluded = some (job, outcome) →
        (∀ error, outcome ≠ .retry error) → job.attempts + 1 < max
  | .inr _, _, _, _ => True

/-- No job that is acted on has spent a budget, nor has a copy of it. -/
structure Affordable (max : ℕ) (w : Logbook ι) : Prop where
  handed : w.Handed
  rows : ∀ id r, w.store.jobs.get? id = some r → r.state.isActionable = true → r.attempts < max
  copies : ∀ i, ∀ job ∈ (w.bench i).copies, w.holder job.id = some i →
    job.state.isActionable = true → job.attempts < max
  concluded : ∀ i job outcome, (w.bench i).concluded = some (job, outcome) →
    w.holder job.id = some i → job.state.isActionable = true → job.attempts < max

theorem Affordable.opening {max : ℕ} {s : SqliteRepairStore} {now : Time}
    (h : ∀ id r, s.jobs.get? id = some r → r.state.isActionable = true → r.attempts < max) :
    (opening s now : Logbook ι).Affordable max where
  handed := .opening s now
  rows := h
  copies _ _ hjob := by cases hjob
  concluded _ _ _ hout := by cases hout

/-- A counted attempt leaves room for the next one. -/
theorem Affordable.counted {max : ℕ} (h : w.Affordable max) (hmax : max < 2 ^ 32)
    {d : RepairDeps} (hd : d.policy.maxAttempts ≤ max) {id : JobId} {retryAt : Option Time}
    (hc : c = .store (.release id retryAt true)) (hn : Noted d w i c r s)
    (hsole : w.Sole κ (.inl i) c) (hroom : ∀ job outcome, (w.bench i).concluded = some (job, outcome) →
      (∀ error, outcome ≠ .retry error) → job.attempts + 1 < max)
    {r₀ : JobRow} (hr₀ : w.store.jobs.get? id = some r₀) (hactionable : r₀.state.isActionable = true) :
    r₀.attempts + 1 < max := by
  have hholder := hsole.holder (.inr (.inr ⟨_, _, hc⟩))
  subst hc
  obtain ⟨job, outcome, hconcluded, rfl, hretry⟩ := hn.may rfl
  have hrow := h.rows _ r₀ hr₀ hactionable
  have hle := h.handed.concluded i job outcome hconcluded hholder r₀ hr₀
  have hexact : asU32 r₀.attempts = r₀.attempts := min_eq_left (by omega)
  rw [hexact] at hle
  by_cases ho : ∃ error, outcome = .retry error
  · obtain ⟨error, rfl⟩ := ho
    obtain ⟨hjob, hbudget⟩ := hretry error rfl
    have hcopy := h.concluded i job _ hconcluded hholder hjob
    have hsucc : succAttempts job.attempts = job.attempts + 1 := Nat.mod_eq_of_lt (by omega)
    omega
  · have := hroom job outcome hconcluded fun error he => ho ⟨error, he⟩
    omega

variable [DecidableEq ι]

theorem affordable_invariant {max : ℕ} (hone : 1 ≤ max) (hmax : max < 2 ^ 32)
    (hdeps : ∀ i, (deps i).policy.maxAttempts ≤ max) : LogInvariant deps
      (CountsInBudget max : ι ⊕ κ → (c : Call) → Ans c → Logbook ι → Prop)
      fun w => w.Affordable max := by
  have hhanded : LogInvariant deps (fun (i : ι ⊕ κ) c _ w => w.Sole κ i c)
      fun w : Logbook ι => w.Handed := handed_invariant
  refine
    { worker := ?_
      bystander := ?_
      pass := fun w now h => ⟨hhanded.pass w now h.handed, h.rows, h.copies, h.concluded⟩
      discovery := ?_ }
  · rintro i c r w s h hn ⟨hsole, hroom⟩
    have hrows : ∀ id r', s.jobs.get? id = some r' → r'.state.isActionable = true →
        r'.attempts < max := by
      intro id r' hr' hactionable
      obtain ⟨r₀, hr₀, hrow⟩ := hn.rowAfter hr'
      have hid : r₀.id = id := (Table.get?_some hr₀).2
      cases hrow with
      | kept hstate hattempts =>
        rw [hattempts]
        exact h.rows id r₀ hr₀ (hstate ▸ hactionable)
      | moved _ _ hattempts => omega
      | progressed _ _ hstate hattempts =>
        rw [hattempts]
        exact h.rows id r₀ hr₀ (hstate ▸ hactionable)
      | counted call hstate hattempts =>
        rw [hattempts]
        exact h.counted hmax (hdeps i) call hn hsole (hroom _ _ call) (hid ▸ hr₀)
          (hstate ▸ hactionable)
    refine ⟨hhanded.worker i c r w s h.handed hn hsole, hrows,
      fun j job hjob hholder => ?_, fun j job outcome hout hholder => ?_⟩
    · rcases h.handed.copies_note hn hsole hjob hholder with ⟨hd, -⟩ | ⟨hmem, hold, -, -⟩
      · obtain ⟨row, hrow, rfl⟩ := hn.replies.delivers hd
        exact fun hactionable => (asU32_le _).trans_lt (hrows _ row hrow hactionable)
      · exact h.copies j job hmem hold
    · rcases h.handed.concluded_note hn hsole hout hholder with ⟨rfl, hc⟩ | ⟨hold, hholder', -⟩
      · obtain ⟨hmem, hholder', -⟩ := h.handed.stepped hn hsole (Bench.stepped_of_concludes hc)
        exact h.copies j job hmem hholder'
      · exact h.concluded j job outcome hold hholder'
  · intro c r w s h hc hs
    refine ⟨hhanded.bystander c r w s h.handed hc hs, fun id r' hr' hactionable => ?_, h.copies,
      h.concluded⟩
    obtain ⟨r₀, hr₀, ⟨hattempts, hstate⟩ | hattempts, -⟩ := hc.rowAfter hs hr'
    · rw [hattempts]
      exact h.rows id r₀ hr₀ (hstate ▸ hactionable)
    · omega
  · intro w s now hr d h hok
    refine ⟨hhanded.discovery w s now hr d h.handed hok, fun id r' hr' hactionable => ?_, h.copies,
      h.concluded⟩
    rcases discovered_row hok hr' with hr' | ⟨ha, -⟩
    · exact h.rows id r' hr' hactionable
    · omega

end Logbook

section
variable {ι κ : Type} [DecidableEq ι] [DecidableEq κ] {deps : ι → RepairDeps}
  {s₀ : SqliteRepairStore} {now : Time} {s : Lib.Config (ι ⊕ κ) Call Ans (Logbook ι)}

/-- In every run in which a job is retried first with no attempts counted, a worker is about to park
    a job it was last handed, its retry budget spent, only when that many of the job's last steps
    all had to be retried in the state it is parked from. -/
theorem parked_after_retries (hopening : ∀ id r, s₀.jobs.get? id = some r → r.attempts = 0)
    {i : ι} {id : JobId} {t : Transition} {u : TransitionUpdate}
    {k : Ans (.store (.apply id t u)) → M Unit}
    (hreach : ((logged ι κ deps).within (Logbook.RetriesInRow deps)).Reach (.opening s₀ now) s)
    (hpark : s.threads (.inl i) = some (.call (.store (.apply id t u)) k))
    (hreason : t.reason = .review .retryBudgetExhausted) (hholder : s.world.holder id = some i) :
    (deps i).policy.maxAttempts ≤ (s.world.steps id).length ∧
      ∀ e ∈ (s.world.steps id).take (deps i).policy.maxAttempts, e.retries t.fromState = true := by
  obtain ⟨hinv, hmay⟩ := Logbook.budgeted_invariant.permitted (.opening hopening) hreach hpark
  obtain ⟨job, error, hconcluded, rfl, hstate, hmax⟩ := Bench.MayApply.budget hmay hreason
  have hretries := (hinv.concluded i job _ hconcluded hholder).1 error rfl
  rw [← hstate]
  exact le_streak_iff.1 (hmax.trans ((Nat.mod_le _ _).trans hretries))

/-- In every run in which no attempt is counted for an unrecorded result once the budget has no room
    for one more, no job that is acted on comes to have spent its budget. -/
theorem attempts_within_budget {max : ℕ} (hone : 1 ≤ max) (hmax : max < 2 ^ 32)
    (hdeps : ∀ i, (deps i).policy.maxAttempts ≤ max)
    (hopening : ∀ id r, s₀.jobs.get? id = some r → r.state.isActionable = true → r.attempts < max)
    (hreach : ((logged ι κ deps).within (Logbook.CountsInBudget max)).Reach (.opening s₀ now) s) :
    ∀ id r, s.world.store.jobs.get? id = some r → r.state.isActionable = true → r.attempts < max :=
  ((Logbook.affordable_invariant hone hmax hdeps).reach (.opening hopening) hreach).rows

end

/-! ## Attempts that are no retries in a row -/

/-- A client that cannot be reached. -/
def clientDown (time : Time) : Circumstance :=
  ⟨time, .error (.transport "connection refused"), .active, false⟩

/-- A client that is checking the torrent. -/
def checking (time : Time) : Circumstance :=
  ⟨time, .ok (some { completeTorrent with state := .checking }), .active, false⟩

/-- A client that holds the complete torrent, and a store that refuses to write it. -/
def unrecorded (time : Time) : Circumstance := ⟨time, .ok (some completeTorrent), .active, true⟩

/-- What a program is about to park, why, and from where. -/
def parksFrom (p : M Unit) : Option (JobId × TransitionReason × RepairState) :=
  (writes? p).map fun x => (x.1, x.2.1.reason, x.2.1.fromState)

theorem parksFrom_some {p : M Unit} {id : JobId} {reason : TransitionReason} {state : RepairState}
    (h : parksFrom p = some (id, reason, state)) : ∃ t u k,
      p = .call (.store (.apply id t u)) k ∧ t.reason = reason ∧ t.fromState = state := by
  obtain ⟨id', t, u, k, hp, he⟩ := writes?_map h
  cases he
  exact ⟨t, u, k, hp, rfl, rfl⟩

/-- A job is about to be parked, its budget of two spent, with a healthy poll between its two
    retries. -/
theorem parked_after_wait : (∀ id r, (storeAt .rechecking).jobs.get? id = some r → r.attempts = 0) ∧
    ∃ s t u k, (logged Unit Unit fun _ => twoTries).Reach (.opening (storeAt .rechecking) 0) s ∧
      s.threads (.inl ()) = some (.call (.store (.apply ⟨1⟩ t u)) k) ∧
        t.reason = .review .retryBudgetExhausted ∧ s.world.holder ⟨1⟩ = some () ∧
          ¬(twoTries.policy.maxAttempts ≤ (s.world.steps ⟨1⟩).length ∧
            ∀ e ∈ (s.world.steps ⟨1⟩).take twoTries.policy.maxAttempts, e.retries t.fromState = true) := by
  obtain ⟨s, hs, hthread, hworld⟩ := Logbook.reach_unchecked twoTries .rechecking
    [clientDown (hour 1), checking (hour 2)] (clientDown (hour 3)) 8
  obtain ⟨t, u, k, hk, hreason, hstate⟩ := parksFrom_some (by decide +kernel :
    parksFrom (Logbook.turns twoTries Logbook.unchecked .rechecking
      [clientDown (hour 1), checking (hour 2)] (clientDown (hour 3)) 8).1 =
        some (⟨1⟩, .review .retryBudgetExhausted, .rechecking))
  refine ⟨storeAt_attempts, s, t, u, k, hs, hthread.trans (congrArg some hk), hreason, ?_, ?_⟩
  · rw [hworld]
    decide +kernel
  · rw [hworld, hstate]
    decide +kernel

/-- Whether a call of the only worker retries its job first with no attempts counted. -/
def retriesInRow? (deps : RepairDeps) (c : Call) (r : Ans c) (w : Logbook Unit) : Bool :=
  Logbook.soleCheck c w && match (w.bench ()).concludes deps c r with
    | some (job, .retry _) => w.retries job.id job.state != 0 || job.attempts = 0
    | _ => true

theorem retriesInRow_of_check {deps : RepairDeps} {c : Call} {r : Ans c} {w : Logbook Unit}
    (h : retriesInRow? deps c r w = true) :
    Logbook.RetriesInRow (fun _ => deps) (.inl () : Unit ⊕ Unit) c r w := by
  unfold retriesInRow? at h
  rw [Bool.and_eq_true] at h
  refine ⟨Logbook.sole_of_check h.1, fun job error hc hnone => ?_⟩
  have h := h.2
  rw [hc] at h
  simpa [hnone] using h

/-- A job that had to be retried twice in a row is about to be parked. -/
theorem parked_after_two_retries : ∃ s t u k, ((logged Unit Unit fun _ => twoTries).within
      (Logbook.RetriesInRow fun _ => twoTries)).Reach (.opening (storeAt .rechecking) 0) s ∧
    s.threads (.inl ()) = some (.call (.store (.apply ⟨1⟩ t u)) k) ∧
      twoTries.policy.maxAttempts ≤ (s.world.steps ⟨1⟩).length ∧
        ∀ e ∈ (s.world.steps ⟨1⟩).take twoTries.policy.maxAttempts, e.retries t.fromState = true := by
  obtain ⟨s, hs, hthread, hworld⟩ := Logbook.reach_turns twoTries (retriesInRow? twoTries)
    (Logbook.RetriesInRow fun _ => twoTries) (fun _ _ _ => retriesInRow_of_check) .rechecking
    [clientDown (hour 1)] (clientDown (hour 2)) 8
  obtain ⟨t, u, k, hk, hreason, hstate⟩ := parksFrom_some (by decide +kernel :
    parksFrom (Logbook.turns twoTries (retriesInRow? twoTries) .rechecking
      [clientDown (hour 1)] (clientDown (hour 2)) 8).1 =
        some (⟨1⟩, .review .retryBudgetExhausted, .rechecking))
  have hpark := hthread.trans (congrArg some hk)
  have hholder : s.world.holder ⟨1⟩ = some () := by
    rw [hworld]
    decide +kernel
  exact ⟨s, t, u, k, hs, hpark, parked_after_retries storeAt_attempts hs hpark hreason hholder⟩

/-! ## Attempts counted past the budget -/

/-- A job that is acted on has spent its budget of two: its result could not be recorded, twice. -/
theorem budget_spent_unparked : 1 ≤ twoTries.policy.maxAttempts ∧
    (∀ id r, (storeAt .rechecking).jobs.get? id = some r → r.attempts = 0) ∧
      ∃ s, (logged Unit Unit fun _ => twoTries).Reach (.opening (storeAt .rechecking) 0) s ∧
        ¬∀ id r, s.world.store.jobs.get? id = some r → r.state.isActionable = true →
          r.attempts < twoTries.policy.maxAttempts := by
  obtain ⟨s, hs, -, hworld⟩ := Logbook.reach_unchecked twoTries .rechecking
    [unrecorded (hour 1)] (unrecorded (hour 2)) 100
  refine ⟨by decide, storeAt_attempts, s, hs, fun h => ?_⟩
  obtain ⟨r, hr, hrow⟩ := Option.map_eq_some_iff.1 (by decide +kernel :
    ((Logbook.turns twoTries Logbook.unchecked .rechecking [unrecorded (hour 1)]
      (unrecorded (hour 2)) 100).2.store.jobs.get? ⟨1⟩).map (fun r => (r.state, r.attempts)) =
        some (.rechecking, 2))
  rw [hworld] at h
  have hstate : r.state = .rechecking := congrArg Prod.fst hrow
  have hattempts : r.attempts = 2 := congrArg Prod.snd hrow
  have hless := h ⟨1⟩ r hr (by rw [hstate]; rfl)
  rw [hattempts] at hless
  exact absurd hless (by decide)

/-- Whether the only worker counts an attempt only within its budget. -/
def countsInBudget? (max : ℕ) (c : Call) (w : Logbook Unit) : Bool :=
  Logbook.soleCheck c w && match c, (w.bench ()).concluded with
    | .store (.release _ _ true), some (_, .retry _) => true
    | .store (.release _ _ true), some (job, _) => job.attempts + 1 < max
    | _, _ => true

theorem countsInBudget_of_check {max : ℕ} {c : Call} {r : Ans c} {w : Logbook Unit}
    (h : countsInBudget? max c w = true) :
    Logbook.CountsInBudget max (.inl () : Unit ⊕ Unit) c r w := by
  unfold countsInBudget? at h
  rw [Bool.and_eq_true] at h
  refine ⟨Logbook.sole_of_check h.1, fun id retryAt hc job outcome hout hretry => ?_⟩
  have h := h.2
  subst hc
  rw [hout] at h
  cases outcome with
  | retry error => exact absurd rfl (hretry error)
  | _ => simpa using h

/-- A job whose result could not be recorded once is acted on, and has an attempt left. -/
theorem unrecorded_within_budget : ∃ s, ((logged Unit Unit fun _ => twoTries).within
      (Logbook.CountsInBudget twoTries.policy.maxAttempts)).Reach (.opening (storeAt .rechecking) 0) s ∧
    (∃ r, s.world.store.jobs.get? ⟨1⟩ = some r ∧ r.state.isActionable = true ∧ r.attempts = 1) ∧
      ∀ id r, s.world.store.jobs.get? id = some r → r.state.isActionable = true →
        r.attempts < twoTries.policy.maxAttempts := by
  obtain ⟨s, hs, -, hworld⟩ := Logbook.reach_turns twoTries (fun c _ w => countsInBudget? 2 c w)
    (Logbook.CountsInBudget twoTries.policy.maxAttempts) (fun _ _ _ => countsInBudget_of_check)
    .rechecking [] (unrecorded (hour 1)) 100
  refine ⟨s, hs, ?_, attempts_within_budget (by decide) (by decide) (fun _ => le_rfl)
    (fun id r hr _ => by rw [storeAt_attempts id r hr]; decide) hs⟩
  obtain ⟨r, hr, hrow⟩ := Option.map_eq_some_iff.1 (by decide +kernel :
    ((Logbook.turns twoTries (fun c _ w => countsInBudget? 2 c w) .rechecking []
      (unrecorded (hour 1)) 100).2.store.jobs.get? ⟨1⟩).map
        (fun r => (r.state.isActionable, r.attempts)) = some (true, 1))
  rw [hworld]
  exact ⟨r, hr, congrArg Prod.fst hrow, congrArg Prod.snd hrow⟩

end SeedMedic
