/-
  A log kept beside the store in every run: what each step of a worker concluded, what the
  trackers answered, and which worker each job was last handed to.
-/
import Mathlib.Data.List.Induction
import SeedMedic.Lib.Pool
import SeedMedic.Lib.Streak
import SeedMedic.Repair.Bench
import SeedMedic.Repair.ResumeSafety

namespace SeedMedic

open Lib Prog SqliteRepairStore

/-- A step that was executed: the state of its job, and what it concluded. -/
structure Executed where
  state : RepairState
  outcome : StepOutcome

/-- A step of a state that has to be taken again. -/
def Executed.retries (state : RepairState) : Executed → Bool
  | ⟨s, .retry _⟩ => s = state
  | _ => false

/-- The store and the clock, with what was seen of the workers. -/
structure Logbook (ι : Type) where
  store : SqliteRepairStore
  now : Time
  bench : ι → Bench
  /-- The worker that last claimed a job. -/
  holder : JobId → Option ι
  /-- The steps executed for a job, newest first. -/
  steps : JobId → List Executed
  /-- The answers of the tracker for a job, newest first. -/
  answers : JobId → List HitAndRunStatus

namespace Logbook

variable {ι : Type} (w : Logbook ι)

/-- A log nothing was entered in yet. -/
def opening (s : SqliteRepairStore) (now : Time) : Logbook ι :=
  ⟨s, now, fun _ => .bare, fun _ => none, fun _ => [], fun _ => []⟩

/-- How often in a row, up to now, a job had to be retried in a state. -/
def retries (id : JobId) (state : RepairState) : ℕ :=
  streak (Executed.retries state) (w.steps id)

/-- How often in a row, up to now, the tracker's answer for a job was unknown. -/
def unknowns (id : JobId) : ℕ := streak (fun a => a = .unknown) (w.answers id)

/-- The condition on a call of a worker: the job it is about was not claimed by another since. -/
def Sole (κ : Type) : ι ⊕ κ → Call → Logbook ι → Prop
  | .inl i, c, w => ∀ id, (w.bench i).about c = some id → w.holder id = some i
  | .inr _, _, _ => True

variable [DecidableEq ι]

/-- The steps after a call of a worker was answered. -/
def enterStep (deps : RepairDeps) (i : ι) (c : Call) (r : Ans c) : JobId → List Executed :=
  match (w.bench i).concludes deps c r with
  | some (job, outcome) => Function.update w.steps job.id (⟨job.state, outcome⟩ :: w.steps job.id)
  | none => w.steps

/-- The answers after a call of a worker was answered. -/
def enterAnswer (i : ι) (c : Call) (r : Ans c) : JobId → List HitAndRunStatus :=
  match c, r, (w.bench i).stepping with
  | .tracker (.hitAndRunStatus ..), .ok status, some (job, _) =>
    Function.update w.answers job.id (status :: w.answers job.id)
  | _, _, _ => w.answers

/-- The log after a call of a worker was answered. -/
def note (deps : RepairDeps) (i : ι) (c : Call) (r : Ans c) : Logbook ι :=
  { w with
    bench := Function.update w.bench i ((w.bench i).after deps c r)
    holder := fun id => if id ∈ claimed c r then some i else w.holder id
    steps := w.enterStep deps i c r
    answers := w.enterAnswer i c r }

end Logbook

/-! ## The runs -/

/-- Everyone who is no worker: reconciliations and operators. -/
inductive Bystander : M Unit → Prop
  | reconcile (owner : String) : Bystander (reconcileOnStartup owner >>= fun _ => pure ())
  | operator {id : JobId} {p : M Unit} (h : OperatorProgram id p) : Bystander p

section
variable (ι κ : Type) [DecidableEq ι] (deps : ι → RepairDeps)

/-- Workers, each with its configuration, and bystanders, on one store that may fail. -/
def logged : System (ι ⊕ κ) Call Ans (Logbook ι) where
  answers i c w r w' := ∃ s, w.store.Replies w.now c r s ∧ w' =
    { (match i with
        | .inl i => w.note (deps i) i c r
        | .inr _ => w) with store := s }
  moves w w' := ∃ now s, w.now ≤ now ∧
    (s = w.store ∨ ∃ h d, w.store.recordDiscovery w.now h = .ok (d, s)) ∧
      w' = { w with store := s, now }
  starts
    | .inl i, p => ∃ config, p = turn (deps i) config
    | .inr _, p => Bystander p

end

/-! ## What bystanders write -/

/-- A call that counts nothing, claims nothing and parks nothing. -/
def Uncounting : Call → Prop
  | .store (.apply _ t u) =>
    (∀ reason, t.reason ≠ .review reason) ∧ u.patch.consecutiveUnknownTrackerStatus = none
  | .store (.recordProgress _ patch) => patch.consecutiveUnknownTrackerStatus = none
  | .store (.claim ..) | .store (.release ..) => False
  | _ => True

theorem allows_uncounting : AllowsOperators Uncounting where
  job _ := trivial
  history _ := trivial
  plannedFiles _ := trivial
  recordProgress _ _ := rfl
  apply _ t u hr hu := by
    obtain ⟨dir, files, hu, -⟩ := hu
    exact ⟨by rcases hr with hr | hr | hr <;> simp [hr], by rw [hu]; rfl⟩
  remove _ := trivial
  discard _ := trivial
  publish _ := trivial
  panic := trivial

theorem reconcileOnStartup_uncounting (owner : String) :
    (reconcileOnStartup owner).Only Uncounting := by
  have hcalls : ∀ c, ReconcileCall c → Uncounting c := by
    intro c hc
    cases c with
    | store c =>
      cases c with
      | apply id t u =>
        obtain ⟨hreason, hu⟩ := hc
        exact ⟨fun reason h => (by rw [hreason] at h; cases h), by rw [hu]; rfl⟩
      | recordProgress id patch => cases hc
      | claim owner lease limit => cases hc
      | release id retryAt count => cases hc
      | _ => trivial
    | _ => trivial
  refine M.only_store trivial fun r => ?_
  split <;> exact reconcileAfter_only hcalls

theorem Bystander.uncounting {p : M Unit} (h : Bystander p) : p.Only Uncounting := by
  cases h with
  | reconcile owner => exact (reconcileOnStartup_uncounting owner).bind fun _ => trivial
  | operator h =>
    refine h.only allows_uncounting fun id t u hreason hu => ?_
    obtain ⟨approved, hu⟩ := hu
    exact ⟨by simp [hreason], by rw [hu]; rfl⟩

/-! ## Invariants of the runs -/

/-- A copy that is delivered is what the row says after the call. -/
theorem SqliteRepairStore.Replies.delivers {s s' : SqliteRepairStore} {now : Time} {c : Call}
    {r : Ans c} {job : RepairJob} (h : s.Replies now c r s') (hd : Delivers c r job) :
    ∃ row, s'.jobs.get? job.id = some row ∧ readJob row = job := by
  cases c with
  | store c =>
    cases c with
    | claim owner lease limit =>
      cases h with
      | failed detail => exact hd.elim
      | served =>
        obtain ⟨row, hrow, rfl⟩ := List.mem_map.1 (show job ∈ (s.claim now owner lease limit).1 from hd)
        exact ⟨row, Table.get?_eq_some (List.mem_of_mem_filter hrow), rfl⟩
    | job id =>
      cases h with
      | failed detail => exact hd.elim
      | served =>
        cases hs : s.jobs.get? id with
        | none =>
          have hj : s.job id = none := by rw [SqliteRepairStore.job, hs]; rfl
          simp only [SqliteRepairStore.answer, hj] at hd
          exact hd.elim
        | some row =>
          have hj : s.job id = some (readJob row) := by rw [SqliteRepairStore.job, hs]; rfl
          simp only [SqliteRepairStore.answer, hj] at hd
          cases hd
          exact ⟨row, by rw [show (readJob row).id = id from (Table.get?_some hs).2]; exact hs, rfl⟩
    | _ => exact hd.elim
  | _ => exact hd.elim

section
variable {ι κ : Type} [DecidableEq ι] {deps : ι → RepairDeps}

/-- The rules of each thread. -/
def logRules (deps : ι → RepairDeps) : ι ⊕ κ → Rules Call Ans Bench
  | .inl i => Bench.noting (deps i)
  | .inr _ => ⟨fun c _ => Uncounting c, fun _ _ _ _ => True⟩

/-- A worker keeps the rules from its bench, and bystanders from anywhere. -/
def atBench : ι ⊕ κ → Bench → Logbook ι → Prop
  | .inl i, b, w => b = w.bench i
  | .inr _, _, _ => True

/-- What a call of a worker comes with: it keeps the rules, and is answered by the store. -/
structure Noted (deps : RepairDeps) (w : Logbook ι) (i : ι) (c : Call) (r : Ans c)
    (s : SqliteRepairStore) : Prop where
  may : (Bench.noting deps).may c (w.bench i)
  honest : Honest c r
  replies : w.store.Replies w.now c r s

/-- What keeps an invariant of the log: the calls that meet a condition, and what happens
    besides. -/
structure LogInvariant (deps : ι → RepairDeps) (ok : ι ⊕ κ → (c : Call) → Ans c → Logbook ι → Prop)
    (Inv : Logbook ι → Prop) : Prop where
  worker : ∀ i c r w s, Inv w → Noted (deps i) w i c r s → ok (.inl i) c r w →
    Inv { w.note (deps i) i c r with store := s }
  bystander : ∀ c r w s, Inv w → Uncounting c → w.store.Replies w.now c r s → Inv { w with store := s }
  pass : ∀ w now, Inv w → Inv { w with now }
  discovery : ∀ w s now h d, Inv w → w.store.recordDiscovery w.now h = .ok (d, s) →
    Inv { w with store := s, now }

theorem LogInvariant.sound {ok : ι ⊕ κ → (c : Call) → Ans c → Logbook ι → Prop}
    {Inv : Logbook ι → Prop} (h : LogInvariant deps ok Inv) :
    ((logged ι κ deps).within ok).Sound (logRules deps) Inv atBench where
  start := by
    rintro (i | k) p w - hp
    · obtain ⟨config, rfl⟩ := hp
      exact ⟨_, rfl, Bench.turn_noted config⟩
    · refine ⟨.bare, trivial, (hp.uncounting.obeys (I := fun _ => True) trivial fun c b hc _ => ?_).mono
        fun _ _ _ => trivial⟩
      exact ⟨hc, fun _ _ _ => trivial⟩
  call := by
    rintro (i | k) c w r w' b hinv hrel hmay ⟨hok, s, hs, rfl⟩
    · obtain rfl : b = w.bench i := hrel
      refine ⟨h.worker i c r w s hinv ⟨hmay, hs.honest, hs⟩ hok,
        ⟨_, ⟨hs.honest, rfl⟩, ?_⟩, fun j hj m hm => ?_⟩
      · show _ = Function.update w.bench i _ i
        rw [Function.update_self]
      · cases j with
        | inl j =>
          show m = Function.update w.bench i _ j
          rw [Function.update_of_ne (fun he => hj (congrArg Sum.inl he))]
          exact hm
        | inr j => trivial
    · refine ⟨h.bystander c r w s hinv hmay hs, ⟨b, trivial, trivial⟩, fun j _ m hm => ?_⟩
      cases j with
      | inl j => exact hm
      | inr j => trivial
  move := by
    rintro w w' hinv ⟨now, s, -, rfl | ⟨hr, d, hok⟩, rfl⟩
    · refine ⟨h.pass w now hinv, fun j m hm => ?_⟩
      cases j <;> exact hm
    · refine ⟨h.discovery w s now hr d hinv hok, fun j m hm => ?_⟩
      cases j <;> exact hm

variable [DecidableEq κ]

/-- Every run that meets the condition keeps the invariant. -/
theorem LogInvariant.reach {ok : ι ⊕ κ → (c : Call) → Ans c → Logbook ι → Prop}
    {Inv : Logbook ι → Prop} (h : LogInvariant deps ok Inv) {w₀ : Logbook ι} (hw : Inv w₀)
    {s : Lib.Config (ι ⊕ κ) Call Ans (Logbook ι)}
    (hs : ((logged ι κ deps).within ok).Reach w₀ s) : Inv s.world :=
  (h.sound.reach hw hs).inv

/-- A call a worker is about to make is permitted on its bench. -/
theorem LogInvariant.permitted {ok : ι ⊕ κ → (c : Call) → Ans c → Logbook ι → Prop}
    {Inv : Logbook ι → Prop} (h : LogInvariant deps ok Inv) {w₀ : Logbook ι} (hw : Inv w₀)
    {s : Lib.Config (ι ⊕ κ) Call Ans (Logbook ι)} {i : ι} {c : Call} {k : Ans c → M Unit}
    (hs : ((logged ι κ deps).within ok).Reach w₀ s) (hi : s.threads (.inl i) = some (.call c k)) :
    Inv s.world ∧ (Bench.noting (deps i)).may c (s.world.bench i) := by
  obtain ⟨hinv, b, rfl, hmay⟩ := h.sound.permitted hw hs hi
  exact ⟨hinv, hmay⟩

end

/-! ## What a call does to a row -/

/-- What a call of a worker or a bystander does to the state and the counters of a row. -/
inductive RowAfter (c : Call) (r r' : JobRow) : Prop
  | kept (state : r'.state = r.state) (attempts : r'.attempts = r.attempts)
      (unknown : r'.consecutiveUnknownTrackerStatus = r.consecutiveUnknownTrackerStatus)
  | moved {t : Transition} {u : TransitionUpdate} (call : c = .store (.apply r.id t u))
      (state : r'.state = t.toState) (attempts : r'.attempts = 0)
      (unknown : r'.consecutiveUnknownTrackerStatus = r.consecutiveUnknownTrackerStatus)
  | progressed {patch : JobPatch} {n : ℕ} (call : c = .store (.recordProgress r.id patch))
      (recorded : patch.consecutiveUnknownTrackerStatus = some n) (state : r'.state = r.state)
      (attempts : r'.attempts = r.attempts) (unknown : r'.consecutiveUnknownTrackerStatus = n)
  | counted {retryAt : Option Time} (call : c = .store (.release r.id retryAt true))
      (state : r'.state = r.state) (attempts : r'.attempts = r.attempts + 1)
      (unknown : r'.consecutiveUnknownTrackerStatus = r.consecutiveUnknownTrackerStatus)

section
variable {s s' : SqliteRepairStore} {now : Time} {c : Call} {a : Ans c} {id : JobId} {r r' : JobRow}

/-- Transitions leave the streak of unknown answers alone. -/
theorem rowAfter_of_replies (h : s.Replies now c a s') (hcounts : ∀ id t u,
    c = .store (.apply id t u) → u.patch.consecutiveUnknownTrackerStatus = none)
    (hr' : s'.jobs.get? id = some r') : ∃ r, s.jobs.get? id = some r ∧ RowAfter c r r' := by
  obtain ⟨r, hr, rfl | ⟨c', rfl, ht⟩⟩ := h.tallied hr'
  · exact ⟨r', hr, .kept rfl rfl rfl⟩
  · refine ⟨r, hr, ?_⟩
    cases ht with
    | kept hstate hattempts hunknown => exact .kept hstate hattempts hunknown
    | @moved t u call hstate hattempts hunknown =>
      rw [hcounts _ _ _ (congrArg Call.store call), Option.getD_none] at hunknown
      exact .moved (congrArg Call.store call) hstate hattempts hunknown
    | @progressed patch call hstate hattempts hunknown =>
      cases hn : patch.consecutiveUnknownTrackerStatus with
      | none => exact .kept hstate hattempts (by rw [hunknown, hn, Option.getD_none])
      | some n =>
        exact .progressed (congrArg Call.store call) hn hstate hattempts
          (by rw [hunknown, hn, Option.getD_some])
    | counted call hstate hattempts hunknown =>
      exact .counted (congrArg Call.store call) hstate hattempts hunknown

theorem Noted.rowAfter {ι : Type} {w : Logbook ι} {i : ι} {deps : RepairDeps}
    (h : Noted deps w i c a s) (hr' : s.jobs.get? id = some r') :
    ∃ r, w.store.jobs.get? id = some r ∧ RowAfter c r r' := by
  refine rowAfter_of_replies h.replies (fun id t u hc => ?_) hr'
  subst hc
  exact Bench.MayApply.uncounted h.may

/-- Bystanders count nothing. -/
theorem Uncounting.rowAfter (hc : Uncounting c) (h : s.Replies now c a s')
    (hr' : s'.jobs.get? id = some r') : ∃ r, s.jobs.get? id = some r ∧
      (r'.attempts = r.attempts ∧ r'.state = r.state ∨ r'.attempts = 0) ∧
        r'.consecutiveUnknownTrackerStatus = r.consecutiveUnknownTrackerStatus := by
  have hcounts : ∀ id t u, c = .store (.apply id t u) →
      u.patch.consecutiveUnknownTrackerStatus = none := by
    rintro id t u rfl
    exact hc.2
  obtain ⟨r, hr, hrow⟩ := rowAfter_of_replies h hcounts hr'
  refine ⟨r, hr, ?_⟩
  cases hrow with
  | kept hstate hattempts hunknown => exact ⟨.inl ⟨hattempts, hstate⟩, hunknown⟩
  | moved call hstate hattempts hunknown => exact ⟨.inr hattempts, hunknown⟩
  | progressed call recorded hstate hattempts hunknown =>
    subst call
    rw [show _ = none from hc] at recorded
    cases recorded
  | counted call hstate hattempts hunknown =>
    subst call
    exact hc.elim

/-- A call of a step changes no row. -/
theorem RowAfter.of_step (h : RowAfter c r r') {job : RepairJob}
    (hc : c = .enterStep job ∨ StepCall c) : r'.state = r.state ∧ r'.attempts = r.attempts ∧
      r'.consecutiveUnknownTrackerStatus = r.consecutiveUnknownTrackerStatus := by
  cases h with
  | kept hstate hattempts hunknown => exact ⟨hstate, hattempts, hunknown⟩
  | moved call =>
    subst call
    rcases hc with hc | hc <;> cases hc
  | progressed call =>
    subst call
    rcases hc with hc | hc <;> cases hc
  | counted call =>
    subst call
    rcases hc with hc | hc <;> cases hc

end

/-! ## What is handed to workers -/

namespace Logbook

variable {ι κ : Type} {deps : ι → RepairDeps} {w : Logbook ι} {i j : ι} {d : RepairDeps} {c : Call}
  {r : Ans c} {s : SqliteRepairStore} {job : RepairJob}

/-- A worker that a job was last handed to has no counter of the job lower than its row. -/
structure Handed (w : Logbook ι) : Prop where
  tidy : ∀ i, (w.bench i).Tidy
  copies : ∀ i, ∀ job ∈ (w.bench i).copies, w.holder job.id = some i →
    ∀ r, w.store.jobs.get? job.id = some r → asU32 r.attempts ≤ job.attempts ∧
      asU32 r.consecutiveUnknownTrackerStatus ≤ job.consecutiveUnknownTrackerStatus
  concluded : ∀ i job outcome, (w.bench i).concluded = some (job, outcome) →
    w.holder job.id = some i → ∀ r, w.store.jobs.get? job.id = some r → asU32 r.attempts ≤ job.attempts

/-- A call that writes to a job in a worker's name is made by who it was last handed to. -/
theorem Sole.holder (h : w.Sole κ (.inl i) c) {id : JobId}
    (hc : (∃ t u, c = .store (.apply id t u)) ∨ (∃ patch, c = .store (.recordProgress id patch)) ∨
      ∃ retryAt count, c = .store (.release id retryAt count)) : w.holder id = some i := by
  refine h id ?_
  rcases hc with ⟨t, u, rfl⟩ | ⟨patch, rfl⟩ | ⟨retryAt, count, rfl⟩ <;> rfl

/-- The job of a step that goes on is one of the worker's copies, and was last handed to it. -/
theorem Handed.stepped (h : w.Handed) (hn : Noted d w i c r s) (hsole : w.Sole κ (.inl i) c)
    {p : M StepOutcome} (hp : (w.bench i).stepped d c r = some (job, p)) :
    job ∈ (w.bench i).copies ∧ w.holder job.id = some i ∧ claimed c r = [] ∧
      (c = .enterStep job ∨ StepCall c) := by
  obtain ⟨hcase, habout, -⟩ := Bench.stepped_cases hp
  refine ⟨?_, hsole _ habout, ?_, hcase.imp_right And.left⟩
  · rcases hcase with rfl | ⟨-, p', hp'⟩
    · exact hn.may
    · exact (h.tidy i).stepping job p' hp'
  · rcases hcase with rfl | ⟨hc, -⟩
    · rfl
    · cases c with
      | store c => cases c <;> first | rfl | exact hc.elim
      | _ => rfl

/-- The steps of a job are as they were unless one of them concludes. -/
theorem enterStep_other {id : JobId} (h : ∀ job outcome,
    (w.bench i).concludes d c r = some (job, outcome) → job.id ≠ id) :
    w.enterStep d i c r id = w.steps id := by
  unfold enterStep
  cases hc : (w.bench i).concludes d c r with
  | none => rfl
  | some s =>
    obtain ⟨job, outcome⟩ := s
    exact Function.update_of_ne (h job outcome hc).symm ..

/-- A call that leaves a job alone, but for a transition that starts its attempts over. -/
structure Spares (w : Logbook ι) (d : RepairDeps) (i : ι) (c : Call) (r : Ans c) (id : JobId) :
    Prop where
  steps : w.enterStep d i c r id = w.steps id
  rows : ∀ r₀ r', r₀.id = id → RowAfter c r₀ r' →
    r'.attempts = r₀.attempts ∧ r'.state = r₀.state ∨ r'.attempts = 0

/-- What a worker does leaves the jobs alone that were last handed to others. -/
theorem Handed.spares_other (h : w.Handed) (hn : Noted d w i c r s) (hsole : w.Sole κ (.inl i) c)
    {id : JobId} (hid : w.holder id ≠ some i) : w.Spares d i c r id where
  steps := by
    refine enterStep_other fun job outcome hc he => hid ?_
    rw [← he]
    exact (h.stepped hn hsole (Bench.stepped_of_concludes hc)).2.1
  rows r₀ r' hr₀ hrow := by
    subst hr₀
    cases hrow with
    | kept hstate hattempts => exact .inl ⟨hattempts, hstate⟩
    | moved _ _ hattempts => exact .inr hattempts
    | progressed call => exact absurd (hsole.holder (.inr (.inl ⟨_, call⟩))) hid
    | counted call => exact absurd (hsole.holder (.inr (.inr ⟨_, _, call⟩))) hid

/-- Nobody was handed anything in the beginning. -/
theorem Handed.opening (s : SqliteRepairStore) (now : Time) : (opening s now : Logbook ι).Handed :=
  ⟨fun _ => ⟨List.nodup_nil, fun _ _ h => (by cases h), fun _ _ h => (by cases h)⟩,
    fun _ _ h => (by cases h), fun _ _ _ h => (by cases h)⟩

variable [DecidableEq ι]

theorem holder_note {id : JobId} (h : (w.note d i c r).holder id = some j)
    (hj : j ≠ i ∨ claimed c r = []) : w.holder id = some j := by
  simp only [note] at h
  split_ifs at h with hid
  · rcases hj with hj | hj
    · exact absurd (Option.some.inj h).symm hj
    · rw [hj] at hid
      cases hid
  · exact h

theorem bench_note_self : (w.note d i c r).bench i = (w.bench i).after d c r :=
  Function.update_self ..

theorem bench_note_other (hj : j ≠ i) : (w.note d i c r).bench j = w.bench j :=
  Function.update_of_ne hj ..

/-- A worker's copies are handed over by a call that does nothing else, or they were there before
    and their jobs are left alone. -/
theorem Handed.copies_note (h : w.Handed) (hn : Noted d w i c r s) (hsole : w.Sole κ (.inl i) c)
    (hjob : job ∈ ((w.note d i c r).bench j).copies)
    (hholder : (w.note d i c r).holder job.id = some j) :
    (Delivers c r job ∧ w.enterStep d i c r = w.steps) ∨
      (job ∈ (w.bench j).copies ∧ w.holder job.id = some j ∧ w.Spares d i c r job.id ∧
        ∀ r₀ r', r₀.id = job.id → RowAfter c r₀ r' →
          r'.consecutiveUnknownTrackerStatus = r₀.consecutiveUnknownTrackerStatus) := by
  by_cases hj : j = i
  · subst hj
    rw [bench_note_self] at hjob
    -- no progress is recorded of a job the worker still has a copy of
    have hunknown : ∀ r₀ r', r₀.id = job.id → job ∈ (w.bench j).copies → RowAfter c r₀ r' →
        r'.consecutiveUnknownTrackerStatus = r₀.consecutiveUnknownTrackerStatus := by
      intro r₀ r' hr₀ hmem hrow
      cases hrow with
      | kept _ _ hunknown => exact hunknown
      | moved _ _ _ hunknown => exact hunknown
      | progressed call recorded =>
        subst call
        obtain ⟨job', outcome, hconcluded, hid, -⟩ := hn.may _ recorded
        exact absurd (hr₀.symm.trans hid.symm) ((h.tidy j).concluded job' outcome hconcluded job hmem)
      | counted _ _ _ hunknown => exact hunknown
    cases hc : (w.bench j).concludes d c r with
    | some s =>
      obtain ⟨job', outcome⟩ := s
      rw [Bench.after_of_concludes hc] at hjob
      obtain ⟨hmem, hne⟩ := Bench.mem_without.1 hjob
      obtain ⟨-, -, hclaimed, hcall⟩ := h.stepped hn hsole (Bench.stepped_of_concludes hc)
      refine .inr ⟨hmem, holder_note hholder (.inr hclaimed), ⟨enterStep_other fun job₁ outcome₁ h₁ => ?_,
        fun r₀ r' _ hrow => ?_⟩, fun r₀ r' hr₀ => hunknown r₀ r' hr₀ hmem⟩
      · rw [hc] at h₁
        cases h₁
        exact hne.symm
      · obtain ⟨hstate, hattempts, -⟩ := hrow.of_step hcall
        exact .inl ⟨hattempts, hstate⟩
    | none =>
      rw [Bench.after_of_going hc] at hjob
      have hsteps : w.enterStep d j c r = w.steps := by
        unfold enterStep
        rw [hc]
      rcases Bench.handed_cases hjob with hd | ⟨hmem, hclaimed, hrelease⟩
      · exact .inl ⟨hd, hsteps⟩
      · refine .inr ⟨hmem, holder_note hholder (.inr hclaimed), ⟨congrFun hsteps _,
          fun r₀ r' hr₀ hrow => ?_⟩, fun r₀ r' hr₀ => hunknown r₀ r' hr₀ hmem⟩
        cases hrow with
        | kept hstate hattempts => exact .inl ⟨hattempts, hstate⟩
        | moved _ _ hattempts => exact .inr hattempts
        | progressed _ _ hstate hattempts => exact .inl ⟨hattempts, hstate⟩
        | counted call => exact absurd (hr₀ ▸ call) (hrelease _ _)
  · rw [bench_note_other hj] at hjob
    have hold := holder_note hholder (.inl hj)
    have hid : w.holder job.id ≠ some i := by
      rw [hold]
      exact fun he => hj (Option.some.inj he)
    refine .inr ⟨hjob, hold, h.spares_other hn hsole hid, fun r₀ r' hr₀ hrow => ?_⟩
    cases hrow with
    | kept _ _ hunknown => exact hunknown
    | moved _ _ _ hunknown => exact hunknown
    | progressed call => exact absurd (hsole.holder (.inr (.inl ⟨_, hr₀ ▸ call⟩))) hid
    | counted _ _ _ hunknown => exact hunknown

/-- What is known of a worker's last step is what the call concludes, or was known before and the
    job is left alone. -/
theorem Handed.concluded_note (h : w.Handed) (hn : Noted d w i c r s) (hsole : w.Sole κ (.inl i) c)
    {outcome : StepOutcome} (hout : ((w.note d i c r).bench j).concluded = some (job, outcome))
    (hholder : (w.note d i c r).holder job.id = some j) :
    (j = i ∧ (w.bench i).concludes d c r = some (job, outcome)) ∨
      ((w.bench j).concluded = some (job, outcome) ∧ w.holder job.id = some j ∧
        w.Spares d i c r job.id) := by
  by_cases hj : j = i
  · subst hj
    rw [bench_note_self] at hout
    cases hc : (w.bench j).concludes d c r with
    | some s =>
      rw [Bench.after_of_concludes hc] at hout
      exact .inl ⟨rfl, hout⟩
    | none =>
      rw [Bench.after_of_going hc] at hout
      obtain ⟨hold, hclaimed, hrelease, -⟩ := Bench.keeps_cases hout
      refine .inr ⟨hold, holder_note hholder (.inr hclaimed), ⟨?_, fun r₀ r' hr₀ hrow => ?_⟩⟩
      · exact enterStep_other fun job' outcome' hc' => by rw [hc] at hc'; cases hc'
      · cases hrow with
        | kept hstate hattempts => exact .inl ⟨hattempts, hstate⟩
        | moved _ _ hattempts => exact .inr hattempts
        | progressed _ _ hstate hattempts => exact .inl ⟨hattempts, hstate⟩
        | counted call => exact absurd call (hrelease _ _ _)
  · rw [bench_note_other hj] at hout
    have hold := holder_note hholder (.inl hj)
    refine .inr ⟨hout, hold, h.spares_other hn hsole ?_⟩
    rw [hold]
    exact fun he => hj (Option.some.inj he)

theorem asU32_le (n : ℕ) : asU32 n ≤ n := min_le_left ..

/-- What is discovered starts at zero. -/
theorem discovered_row {now : Time} {s s' : SqliteRepairStore} {h : HitAndRun} {disc : Discovered}
    (hok : s.recordDiscovery now h = .ok (disc, s')) {id : JobId} {r' : JobRow}
    (hr' : s'.jobs.get? id = some r') : s.jobs.get? id = some r' ∨
      r'.attempts = 0 ∧ r'.consecutiveUnknownTrackerStatus = 0 := by
  rcases recordDiscovery_cases hok with rfl | ⟨id', row, -, -, -, hrows⟩
  · exact .inl hr'
  · rw [hrows] at hr'
    split_ifs at hr'
    · cases hr'
      exact .inr ⟨rfl, rfl⟩
    · exact .inl hr'

/-- Counters of a copy stay no lower than the row's while the job is in the worker's hands. -/
theorem handed_invariant :
    LogInvariant deps (fun (i : ι ⊕ κ) c _ w => w.Sole κ i c) fun w : Logbook ι => w.Handed where
  worker := by
    intro i c r w s h hn hsole
    refine ⟨fun j => ?_, fun j job hjob hholder r' hr' => ?_,
      fun j job outcome hout hholder r' hr' => ?_⟩
    · by_cases hj : j = i
      · subst hj
        show ((w.note (deps j) j c r).bench j).Tidy
        rw [bench_note_self]
        exact (h.tidy j).after hn.may hn.honest
      · show ((w.note (deps i) i c r).bench j).Tidy
        rw [bench_note_other hj]
        exact h.tidy j
    · rcases h.copies_note hn hsole hjob hholder with ⟨hd, -⟩ | ⟨hmem, hold, hspared, hunknown⟩
      · obtain ⟨row, hrow, rfl⟩ := hn.replies.delivers hd
        obtain rfl := Option.some.inj (hrow.symm.trans hr')
        exact ⟨le_rfl, le_rfl⟩
      · obtain ⟨r₀, hr₀, hrow⟩ := hn.rowAfter hr'
        obtain ⟨ha, hu⟩ := h.copies j job hmem hold r₀ hr₀
        have hid : r₀.id = job.id := (Table.get?_some hr₀).2
        refine ⟨?_, (hunknown r₀ r' hid hrow).symm ▸ hu⟩
        rcases hspared.rows r₀ r' hid hrow with ⟨hattempts, -⟩ | hattempts
        · exact hattempts ▸ ha
        · exact hattempts ▸ Nat.zero_le _
    · obtain ⟨r₀, hr₀, hrow⟩ := hn.rowAfter hr'
      have hid : r₀.id = job.id := (Table.get?_some hr₀).2
      rcases h.concluded_note hn hsole hout hholder with ⟨rfl, hc⟩ | ⟨hold, hholder', hspared⟩
      · obtain ⟨hmem, hholder', -, hcall⟩ := h.stepped hn hsole (Bench.stepped_of_concludes hc)
        obtain ⟨-, hattempts, -⟩ := hrow.of_step hcall
        exact hattempts ▸ (h.copies j job hmem hholder' r₀ hr₀).1
      · have ha := h.concluded j job outcome hold hholder' r₀ hr₀
        rcases hspared.rows r₀ r' hid hrow with ⟨hattempts, -⟩ | hattempts
        · exact hattempts ▸ ha
        · exact hattempts ▸ Nat.zero_le _
  bystander := by
    intro c r w s h hc hs
    refine ⟨h.tidy, fun j job hjob hholder r' hr' => ?_, fun j job outcome hout hholder r' hr' => ?_⟩
    · obtain ⟨r₀, hr₀, hattempts, hunknown⟩ := hc.rowAfter hs hr'
      obtain ⟨ha, hu⟩ := h.copies j job hjob hholder r₀ hr₀
      rw [hunknown]
      rcases hattempts with ⟨hattempts, -⟩ | hattempts
      · exact ⟨hattempts ▸ ha, hu⟩
      · exact ⟨hattempts ▸ Nat.zero_le _, hu⟩
    · obtain ⟨r₀, hr₀, hattempts, -⟩ := hc.rowAfter hs hr'
      rcases hattempts with ⟨hattempts, -⟩ | hattempts
      · exact hattempts ▸ h.concluded j job outcome hout hholder r₀ hr₀
      · exact hattempts ▸ Nat.zero_le _
  pass w now h := ⟨h.tidy, h.copies, h.concluded⟩
  discovery := by
    intro w s now hr d h hok
    refine ⟨h.tidy, fun j job hjob hholder r' hr' => ?_, fun j job outcome hout hholder r' hr' => ?_⟩
    · rcases discovered_row hok hr' with hr' | ⟨ha, hu⟩
      · exact h.copies j job hjob hholder r' hr'
      · rw [ha, hu]
        exact ⟨Nat.zero_le _, Nat.zero_le _⟩
    · rcases discovered_row hok hr' with hr' | ⟨ha, -⟩
      · exact h.concluded j job outcome hout hholder r' hr'
      · rw [ha]
        exact Nat.zero_le _

end Logbook

/-! ## A worker on its own -/

/-- What a turn of a worker meets: the time, what the client and the tracker answer, and whether
    transitions can be written. -/
structure Circumstance where
  time : Time
  status : Except ClientError (Option TorrentStatus)
  tracker : HitAndRunStatus
  refused : Bool

namespace Circumstance

def reply (x : Circumstance) (s : SqliteRepairStore) :
    (c : Call) → Option (Ans c × SqliteRepairStore)
  | .store (.apply id t u) => some (
    if x.refused then (.error (.database "disk I/O error"), s) else s.answer x.time (.apply id t u))
  | .store c => some (s.answer x.time c)
  | .now => some (x.time, s)
  | .client (.status _) => some (x.status, s)
  | .tracker (.hitAndRunStatus ..) => some (.ok x.tracker, s)
  | .shuttingDown => some (false, s)
  | .publish _ | .notify _ | .recordTick _ | .enterStep _ => some ((), s)
  | _ => none

theorem reply_replies {x : Circumstance} {s : SqliteRepairStore} {c : Call}
    {a : Ans c × SqliteRepairStore} (h : x.reply s c = some a) : s.Replies x.time c a.1 a.2 := by
  cases c with
  | store c =>
    cases c with
    | apply id t u =>
      simp only [reply, Option.some.injEq] at h
      subst h
      split_ifs
      · exact .failed _
      · exact .served
    | _ => cases h; exact .served
  | now => cases h; exact ⟨rfl, rfl⟩
  | client c => cases c <;> cases h; rfl
  | tracker c => cases c <;> cases h; rfl
  | library c => cases h
  | staging c => cases h
  | panic => cases h
  | _ => cases h; rfl

end Circumstance

/-- A store with one job, in a state. -/
def storeAt (state : RepairState) : SqliteRepairStore :=
  ⟨⟨[{ discoveredRow ⟨1⟩ 0 ⟨⟨"tracker"⟩, ⟨"7"⟩, "show", none, 10, none⟩ with
    state, infoHash := some sevens }], List.nodup_singleton _⟩, .empty, [], 1⟩

theorem storeAt_attempts {state : RepairState} (id : JobId) (r : JobRow)
    (h : (storeAt state).jobs.get? id = some r) : r.attempts = 0 := by
  obtain rfl := List.mem_singleton.1 (Table.get?_some h).1
  rfl

namespace Logbook

variable (deps : RepairDeps) (check : (c : Call) → Ans c → Logbook Unit → Bool)

/-- The log of the only worker after a call that passes a check. -/
def serve (x : Circumstance) (c : Call) (w : Logbook Unit) : Option (Ans c × Logbook Unit) :=
  if w.now ≤ x.time then
    let w := { w with now := x.time }
    (x.reply w.store c).bind fun a =>
      if check c a.1 w then some (a.1, { w.note deps () c a.1 with store := a.2 }) else none
  else none

def turnsConfig : WorkerConfig := ⟨"a", .fromSecs 60, 4⟩

/-- The first `n` calls of a turn. -/
def turned (n : ℕ) (x : Circumstance) (w : Logbook Unit) : M Unit × Logbook Unit :=
  System.drive (serve deps check x) n (turn deps turnsConfig) w

/-- The log after one turn after the other. -/
def afterTurns (xs : List Circumstance) (w : Logbook Unit) : Logbook Unit :=
  xs.foldl (fun w x => (turned deps check 100 x w).2) w

/-- The first `n` calls of the turn that follows others, of a worker with one job. -/
def turns (state : RepairState) (xs : List Circumstance) (x : Circumstance) (n : ℕ) :
    M Unit × Logbook Unit :=
  turned deps check n x (afterTurns deps check xs (.opening (storeAt state) 0))

/-- The worker comes to any call of its turns. -/
theorem reach_turns (ok : Unit ⊕ Unit → (c : Call) → Ans c → Logbook Unit → Prop)
    (hok : ∀ c r w, check c r w = true → ok (.inl ()) c r w) (state : RepairState)
    (xs : List Circumstance) (x : Circumstance) (n : ℕ) :
    ∃ s, ((logged Unit Unit fun _ => deps).within ok).Reach (.opening (storeAt state) 0) s ∧
      s.threads (.inl ()) = some (turns deps check state xs x n).1 ∧
        s.world = (turns deps check state xs x n).2 := by
  have hserve : ∀ x c w r, serve deps check x c w = some r → ∃ w',
      Relation.ReflTransGen ((logged Unit Unit fun _ => deps).within ok).moves w w' ∧
        ((logged Unit Unit fun _ => deps).within ok).answers (.inl ()) c w' r.1 r.2 := by
    intro x c w r hr
    unfold serve at hr
    split_ifs at hr with htime
    obtain ⟨a, ha, hr⟩ := Option.bind_eq_some_iff.1 hr
    split_ifs at hr with hcheck
    cases hr
    exact ⟨{ w with now := x.time }, .single ⟨x.time, w.store, htime, .inl rfl, rfl⟩,
      hok _ _ _ hcheck, a.2, Circumstance.reply_replies ha, rfl⟩
  have hstart : ((logged Unit Unit fun _ => deps).within ok).starts (.inl ())
      (turn deps turnsConfig) := ⟨turnsConfig, rfl⟩
  have hreach : ∃ s, ((logged Unit Unit fun _ => deps).within ok).Reach (.opening (storeAt state) 0) s ∧
      s.world = afterTurns deps check xs (.opening (storeAt state) 0) := by
    induction xs using List.reverseRecOn with
    | nil => exact ⟨_, .refl, rfl⟩
    | append_singleton xs x ih =>
      obtain ⟨s, hs, hw⟩ := ih
      obtain ⟨s', hs', -, hw'⟩ := System.reach_again hs hstart (hserve x) 100
      refine ⟨s', hs', ?_⟩
      rw [hw', hw, afterTurns, afterTurns, List.foldl_append]
      rfl
  obtain ⟨s, hs, hw⟩ := hreach
  obtain ⟨s', hs', hthread, hw'⟩ := System.reach_again hs hstart (hserve x) n
  rw [hw] at hthread hw'
  exact ⟨s', hs', hthread, hw'⟩

/-- Everything passes. -/
def unchecked : (c : Call) → Ans c → Logbook Unit → Bool := fun _ _ _ => true

theorem reach_unchecked (state : RepairState) (xs : List Circumstance) (x : Circumstance) (n : ℕ) :
    ∃ s, (logged Unit Unit fun _ => deps).Reach (.opening (storeAt state) 0) s ∧
      s.threads (.inl ()) = some (turns deps unchecked state xs x n).1 ∧
        s.world = (turns deps unchecked state xs x n).2 := by
  obtain ⟨s, hs, h⟩ :=
    reach_turns deps unchecked (fun _ _ _ _ => True) (fun _ _ _ _ => trivial) state xs x n
  exact ⟨s, System.reach_of_within hs, h⟩

/-- Whether a call meets the condition of the only worker. -/
def soleCheck (c : Call) (w : Logbook Unit) : Bool :=
  ((w.bench ()).about c).all fun id => w.holder id = some ()

theorem sole_of_check {c : Call} {w : Logbook Unit} (h : soleCheck c w = true) :
    w.Sole Unit (.inl ()) c := by
  intro id hid
  unfold soleCheck at h
  rw [hid] at h
  simpa using h

end Logbook

/-- A worker that tries everything twice. -/
def twoTries : RepairDeps :=
  { anyDeps with
    trackers := [⟨"tracker"⟩]
    policy := { SafetyPolicy.default with maxAttempts := 2, maxConsecutiveUnknownTrackerStatus := 2 } }

def hour (n : ℕ) : Time := n * Duration.fromSecs 3600

/-- The transition a program is about to write. -/
def writes? : M Unit → Option (JobId × Transition × TransitionUpdate)
  | .call (.store (.apply id t u)) _ => some (id, t, u)
  | _ => none

theorem writes?_map {α : Type} {p : M Unit} {f : JobId × Transition × TransitionUpdate → α} {a : α}
    (h : (writes? p).map f = some a) :
    ∃ id t u k, p = .call (.store (.apply id t u)) k ∧ f (id, t, u) = a := by
  obtain ⟨⟨id, t, u⟩, hw, rfl⟩ := Option.map_eq_some_iff.1 h
  unfold writes? at hw
  split at hw
  · cases hw
    exact ⟨_, _, _, _, rfl, rfl⟩
  · cases hw

end SeedMedic
