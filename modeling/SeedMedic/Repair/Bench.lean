/-
  Following a worker through its steps: what it was handed, the step it is in, and what
  the last one concluded.
-/
import SeedMedic.Repair.Conduct

namespace SeedMedic

open Lib Prog

/-- The copies a worker may still step, and how far its last step has come. -/
structure Bench where
  copies : List RepairJob
  /-- The job of the current step, and what is left of the step. -/
  stepping : Option (RepairJob × M StepOutcome)
  /-- What the tracker last answered in the step. -/
  answer : Option HitAndRunStatus
  /-- What the last step concluded, until its job is released or loaded again. -/
  concluded : Option (RepairJob × StepOutcome)

/-- The jobs an answer hands to a worker. -/
def claimed : (c : Call) → Ans c → List JobId
  | .store (.claim ..), .ok jobs => jobs.map RepairJob.id
  | _, _ => []

namespace Bench

/-- A bench with nothing on it. -/
def bare : Bench := ⟨[], none, none, none⟩

variable (deps : RepairDeps) (b : Bench)

/-- The copies left when those of a job are put away. -/
def without (id : JobId) : List RepairJob := b.copies.filter fun job => job.id ≠ id

def handed : (c : Call) → Ans c → List RepairJob
  | .store (.claim ..), .ok jobs => jobs
  | .store (.job _), .ok (some job) => job :: b.without job.id
  | .store (.release id ..), _ => b.without id
  | _, _ => b.copies

/-- The current step and what is left of it: a call no step makes shows that it is over. -/
def stepped : (c : Call) → Ans c → Option (RepairJob × M StepOutcome)
  | .enterStep job, _ => some (job, step deps job)
  | .client c, r => b.stepping.map fun s => (s.1, s.2.follow (.client c) r)
  | .tracker c, r => b.stepping.map fun s => (s.1, s.2.follow (.tracker c) r)
  | .library c, r => b.stepping.map fun s => (s.1, s.2.follow (.library c) r)
  | .staging (.materialize plan preference), r =>
    b.stepping.map fun s => (s.1, s.2.follow (.staging (.materialize plan preference)) r)
  | .store (.torrentFile id), r =>
    b.stepping.map fun s => (s.1, s.2.follow (.store (.torrentFile id)) r)
  | .store (.plannedFiles id), r =>
    b.stepping.map fun s => (s.1, s.2.follow (.store (.plannedFiles id)) r)
  | .now, r => b.stepping.map fun s => (s.1, s.2.follow .now r)
  | _, _ => none

/-- The tracker's last answer in the step. -/
def hears (c : Call) (r : Ans c) : Option HitAndRunStatus :=
  match c with
  | .enterStep _ => none
  | c => heard c r b.answer

/-- What the last step concluded, as far as it still matters. -/
def keeps : (c : Call) → Ans c → Option (RepairJob × StepOutcome)
  | .store (.claim ..), .ok _ => none
  | .store (.job _), .ok (some _) => none
  | .store (.release ..), _ | .enterStep _, _ | .tracker _, _ | .shuttingDown, _ => none
  | _, _ => b.concluded

/-- What the step concludes by the answer of a call. -/
def concludes (c : Call) (r : Ans c) : Option (RepairJob × StepOutcome) :=
  match b.stepped deps c r with
  | some (job, .ret outcome) => some (job, outcome)
  | _ => none

/-- The bench after a call was answered; a job is put away when its step concludes. -/
def after (c : Call) (r : Ans c) : Bench :=
  match b.concludes deps c r with
  | some (job, outcome) => ⟨b.without job.id, none, b.hears c r, some (job, outcome)⟩
  | none => ⟨b.handed c r, b.stepped deps c r, b.hears c r, b.keeps c r⟩

/-- The job a call is about: that of the step it is made in, or the one it writes to. -/
def about : Call → Option JobId
  | .enterStep job => some job.id
  | .store (.apply id ..) | .store (.recordProgress id _) | .store (.release id ..) => some id
  | .client _ | .tracker _ | .library _ | .staging (.materialize ..) | .now
  | .store (.torrentFile _) | .store (.plannedFiles _) => b.stepping.map fun s => s.1.id
  | _ => none

/-- A bench has one copy of each job at most, none of the job last concluded, and steps a copy
    it has. -/
structure Tidy : Prop where
  distinct : (b.copies.map RepairJob.id).Nodup
  stepping : ∀ job p, b.stepping = some (job, p) → job ∈ b.copies
  concluded : ∀ job outcome, b.concluded = some (job, outcome) → ∀ other ∈ b.copies, other.id ≠ job.id

/-! ## What it may do -/

/-- What a transition needs to be written from a bench. -/
structure MayApply (id : JobId) (t : Transition) (u : TransitionUpdate) : Prop where
  /-- The streak of unknown answers is recorded as progress only. -/
  uncounted : u.patch.consecutiveUnknownTrackerStatus = none
  /-- The retry budget is spent by a step that has to be retried. -/
  budget : t.reason = .review .retryBudgetExhausted → ∃ job error,
    b.concluded = some (job, .retry error) ∧ job.id = id ∧ job.state = t.fromState ∧
      deps.policy.maxAttempts ≤ succAttempts job.attempts
  /-- Too many answers are unknown once one more is. -/
  unclear : t.reason = .review .trackerStatusUnclear →
    ∀ n, u.detail = some (.obj [("consecutive_unknown_answers", n)]) → ∃ job outcome,
      b.concluded = some (job, outcome) ∧ job.id = id ∧ b.answer = some .unknown ∧
        deps.policy.maxConsecutiveUnknownTrackerStatus ≤ nextUnknown job

/-- A streak of unknown answers is recorded by the step that saw the last of them. -/
def MayRecord (id : JobId) (patch : JobPatch) : Prop :=
  ∀ n, patch.consecutiveUnknownTrackerStatus = some n → ∃ job outcome,
    b.concluded = some (job, outcome) ∧ job.id = id ∧
      (n = 0 ∨ b.answer = some .unknown ∧ n = nextUnknown job)

/-- An attempt is counted after a step of the job; where that has to be retried, the budget is
    not spent by it. -/
def MayCount (id : JobId) : Prop :=
  ∃ job outcome, b.concluded = some (job, outcome) ∧ job.id = id ∧
    ∀ error, outcome = .retry error →
      job.state.isActionable = true ∧ succAttempts job.attempts < deps.policy.maxAttempts

/-- The rules of a worker with respect to its two counters. -/
def noting : Rules Call Ans Bench where
  may
    | .enterStep job, b => job ∈ b.copies
    | .store (.apply id t u), b => b.MayApply deps id t u
    | .store (.recordProgress id patch), b => b.MayRecord id patch
    | .store (.release id _ countAttempt), b => countAttempt = true → b.MayCount deps id
    | _, _ => True
  next c r b b' := Honest c r ∧ b' = b.after deps c r

/-! ## Following a step -/

variable {deps b}

/-- Where a bench stands in a step that was entered from `b₀`, when `p` is left of it. -/
def Stands (b₀ : Bench) (job : RepairJob) (b : Bench) : M StepOutcome → Prop
  | .ret outcome => b.concluded = some (job, outcome) ∧ b.stepping = none ∧
      b.copies = b₀.without job.id
  | .call c k => b.stepping = some (job, .call c k) ∧ b.copies = b₀.copies

theorem stands_of_stepped {job : RepairJob} {p : M StepOutcome} {c : Call} {r : Ans c}
    (hstepped : b.stepped deps c r = some (job, p)) (hhanded : b.handed c r = b.copies) :
    b.Stands job (b.after deps c r) p ∧ (b.after deps c r).answer = b.hears c r := by
  unfold Bench.after concludes
  rw [hstepped, hhanded]
  cases p with
  | ret outcome => exact ⟨⟨rfl, rfl, rfl⟩, rfl⟩
  | call c' k => exact ⟨⟨rfl, rfl⟩, rfl⟩

theorem Stands.of_copies {b₀ b₁ : Bench} {job : RepairJob} {p : M StepOutcome}
    (h : b₁.Stands job b p) (hcopies : b₁.copies = b₀.copies) : b₀.Stands job b p := by
  have hwithout : b₁.without job.id = b₀.without job.id := by
    unfold without
    rw [hcopies]
  cases p with
  | ret outcome => exact ⟨h.1, h.2.1, h.2.2.trans hwithout⟩
  | call c k => exact ⟨h.1, h.2.trans hcopies⟩

/-- The bench follows each answer of a step. -/
theorem Stands.after {b₀ : Bench} {job : RepairJob} {c : Call} {k : Ans c → M StepOutcome}
    (h : b₀.Stands job b (.call c k)) (hc : StepCall c) (r : Ans c) :
    b₀.Stands job (b.after deps c r) (k r) ∧ (b.after deps c r).answer = heard c r b.answer := by
  obtain ⟨hstep, hcopies⟩ := h
  have hrest : b.stepped deps c r = some (job, k r) ∧ b.handed c r = b.copies ∧
      b.hears c r = heard c r b.answer := by
    cases c with
    | store c =>
      cases c with
      | torrentFile id => simp [stepped, hstep, handed, hears]
      | plannedFiles id => simp [stepped, hstep, handed, hears]
      | _ => cases hc
    | staging c =>
      cases c with
      | materialize plan preference => simp [stepped, hstep, handed, hears]
      | _ => cases hc
    | panic => exact r.elim
    | shuttingDown => cases hc
    | publish e => cases hc
    | notify e => cases hc
    | recordTick time => cases hc
    | enterStep job => cases hc
    | _ => simp [stepped, hstep, handed, hears]
  obtain ⟨hstepped, hhanded, hhears⟩ := hrest
  obtain ⟨hstands, hanswer⟩ := stands_of_stepped hstepped hhanded
  exact ⟨hstands.of_copies hcopies, hanswer.trans hhears⟩

theorem Stands.obeys {Q : StepOutcome → Option HitAndRunStatus → Prop} {b₀ : Bench}
    {job : RepairJob} {p : M StepOutcome} (h : b₀.Stands job b p) (honly : p.Only StepCall)
    (hp : p.Obeys listening b.answer Q) : p.Obeys (noting deps) b fun outcome b' =>
      b₀.Stands job b' (.ret outcome) ∧ Q outcome b'.answer := by
  induction p generalizing b with
  | ret outcome => exact ⟨h, hp⟩
  | call c k ih =>
    have hmay : (noting deps).may c b := by
      have hc := honly.1
      cases c with
      | store c => cases c <;> first | exact trivial | exact hc.elim
      | enterStep job => exact hc.elim
      | _ => trivial
    refine ⟨hmay, fun r b' hn => ?_⟩
    obtain ⟨-, rfl⟩ := hn
    obtain ⟨hstands, hanswer⟩ :
        b₀.Stands job (b.after deps c r) (k r) ∧ (b.after deps c r).answer = heard c r b.answer :=
      h.after honly.1 r
    exact ih r hstands (honly.2 r) (by rw [hanswer]; exact hp.2 r _ rfl)

/-- A step that is entered is followed to its conclusion. -/
theorem step_noted {job : RepairJob} : (step deps job).Obeys (noting deps)
    (b.after deps (.enterStep job) ()) fun outcome b' =>
      b.Stands job b' (.ret outcome) ∧ StepFacts deps job b'.answer outcome := by
  have hstepped : b.stepped deps (.enterStep job) () = some (job, step deps job) := rfl
  exact (stands_of_stepped hstepped rfl).1.obeys step_stepCalls (step_facts _)

/-! ## What a call does to a bench -/

theorem mem_without {job : RepairJob} {id : JobId} :
    job ∈ b.without id ↔ job ∈ b.copies ∧ job.id ≠ id := by
  simp [without]

theorem nodup_without (h : (b.copies.map RepairJob.id).Nodup) (id : JobId) :
    ((b.without id).map RepairJob.id).Nodup :=
  h.sublist (List.filter_sublist.map _)

/-- A step goes on by a call about its job, which leaves the copies alone. -/
theorem stepped_cases {c : Call} {r : Ans c} {job : RepairJob} {p : M StepOutcome}
    (h : b.stepped deps c r = some (job, p)) :
    (c = .enterStep job ∨ StepCall c ∧ ∃ p', b.stepping = some (job, p')) ∧
      b.about c = some job.id ∧ b.handed c r = b.copies := by
  have hmap : ∀ f : RepairJob × M StepOutcome → M StepOutcome,
      (b.stepping.map fun s => (s.1, f s)) = some (job, p) →
        (∃ p', b.stepping = some (job, p')) ∧ (b.stepping.map fun s => s.1.id) = some job.id := by
    intro f hf
    obtain ⟨⟨job', p'⟩, hp, he⟩ := Option.map_eq_some_iff.1 hf
    obtain rfl : job' = job := congrArg Prod.fst he
    exact ⟨⟨p', hp⟩, by rw [hp]; rfl⟩
  cases c with
  | store c =>
    cases c with
    | torrentFile id => exact ⟨.inr ⟨trivial, (hmap _ h).1⟩, (hmap _ h).2, rfl⟩
    | plannedFiles id => exact ⟨.inr ⟨trivial, (hmap _ h).1⟩, (hmap _ h).2, rfl⟩
    | _ => cases h
  | staging c =>
    cases c with
    | materialize plan preference => exact ⟨.inr ⟨trivial, (hmap _ h).1⟩, (hmap _ h).2, rfl⟩
    | _ => cases h
  | enterStep job' =>
    obtain rfl : job' = job := congrArg Prod.fst (Option.some.inj h)
    exact ⟨.inl rfl, rfl, rfl⟩
  | client c => exact ⟨.inr ⟨trivial, (hmap _ h).1⟩, (hmap _ h).2, rfl⟩
  | tracker c => exact ⟨.inr ⟨trivial, (hmap _ h).1⟩, (hmap _ h).2, rfl⟩
  | library c => exact ⟨.inr ⟨trivial, (hmap _ h).1⟩, (hmap _ h).2, rfl⟩
  | now => exact ⟨.inr ⟨trivial, (hmap _ h).1⟩, (hmap _ h).2, rfl⟩
  | _ => cases h

/-- What a step concludes is all that was left of it. -/
theorem stepped_of_concludes {c : Call} {r : Ans c} {job : RepairJob} {outcome : StepOutcome}
    (h : b.concludes deps c r = some (job, outcome)) :
    b.stepped deps c r = some (job, .ret outcome) := by
  unfold concludes at h
  split at h
  · rename_i hs
    cases h
    exact hs
  · cases h

/-- A call that concludes nothing. -/
theorem after_of_going {c : Call} {r : Ans c} (h : b.concludes deps c r = none) :
    b.after deps c r = ⟨b.handed c r, b.stepped deps c r, b.hears c r, b.keeps c r⟩ := by
  unfold Bench.after
  rw [h]

theorem after_of_concludes {c : Call} {r : Ans c} {job : RepairJob} {outcome : StepOutcome}
    (h : b.concludes deps c r = some (job, outcome)) :
    b.after deps c r = ⟨b.without job.id, none, b.hears c r, some (job, outcome)⟩ := by
  unfold Bench.after
  rw [h]

/-- The copies after a call are handed over by its answer, or were there before it and are not of
    a job that is released. -/
theorem handed_cases {c : Call} {r : Ans c} {job : RepairJob} (h : job ∈ b.handed c r) :
    Delivers c r job ∨ job ∈ b.copies ∧ claimed c r = [] ∧
      ∀ retryAt count, c ≠ .store (.release job.id retryAt count) := by
  cases c with
  | store c =>
    cases c with
    | claim owner lease limit =>
      cases r with
      | error e => exact .inr ⟨h, rfl, by nofun⟩
      | ok jobs => exact .inl h
    | job id =>
      cases r with
      | error e => exact .inr ⟨h, rfl, by nofun⟩
      | ok next =>
        cases next with
        | none => exact .inr ⟨h, rfl, by nofun⟩
        | some next =>
          rcases List.mem_cons.1 h with rfl | h
          · exact .inl rfl
          · exact .inr ⟨(mem_without.1 h).1, rfl, by nofun⟩
    | release id retryAt count =>
      obtain ⟨hmem, hne⟩ := mem_without.1 h
      refine .inr ⟨hmem, rfl, fun retryAt' count' he => hne ?_⟩
      cases he
      rfl
    | _ => exact .inr ⟨h, rfl, by nofun⟩
  | _ => exact .inr ⟨h, rfl, by nofun⟩

/-- What is still known of the last step was known before the call. -/
theorem keeps_cases {c : Call} {r : Ans c} {job : RepairJob} {outcome : StepOutcome}
    (h : b.keeps c r = some (job, outcome)) : b.concluded = some (job, outcome) ∧
      claimed c r = [] ∧ (∀ id retryAt count, c ≠ .store (.release id retryAt count)) ∧
        b.handed c r = b.copies ∧ b.hears c r = b.answer := by
  cases c with
  | store c =>
    cases c with
    | claim owner lease limit =>
      cases r with
      | error e => exact ⟨h, rfl, by nofun, rfl, rfl⟩
      | ok jobs => cases h
    | job id =>
      cases r with
      | error e => exact ⟨h, rfl, by nofun, rfl, rfl⟩
      | ok next =>
        cases next with
        | none => exact ⟨h, rfl, by nofun, rfl, rfl⟩
        | some next => cases h
    | release id retryAt count => cases h
    | _ => exact ⟨h, rfl, by nofun, rfl, rfl⟩
  | enterStep job => cases h
  | tracker c => cases h
  | shuttingDown => cases h
  | _ => exact ⟨h, rfl, by nofun, rfl, rfl⟩

/-- Every permitted call keeps a bench tidy. -/
theorem Tidy.after (h : b.Tidy) {c : Call} {r : Ans c} (hmay : (noting deps).may c b)
    (hhonest : Honest c r) : (b.after deps c r).Tidy := by
  cases hc : b.concludes deps c r with
  | some s =>
    obtain ⟨job, outcome⟩ := s
    rw [after_of_concludes hc]
    refine ⟨nodup_without h.distinct _, fun _ _ hs => (by cases hs), fun job' outcome' hs => ?_⟩
    cases hs
    exact fun other ho => (mem_without.1 ho).2
  | none =>
    rw [after_of_going hc]
    refine ⟨?_, fun job p hs => ?_, fun job outcome hs => ?_⟩
    · cases c with
      | store c =>
        cases c with
        | claim owner lease limit =>
          cases r with
          | error e => exact h.distinct
          | ok jobs => exact hhonest
        | job id =>
          cases r with
          | error e => exact h.distinct
          | ok next =>
            cases next with
            | none => exact h.distinct
            | some next =>
              refine List.nodup_cons.2 ⟨fun hmem => ?_, nodup_without h.distinct _⟩
              obtain ⟨job, hjob, hid⟩ := List.mem_map.1 hmem
              exact (mem_without.1 hjob).2 hid
        | release id retryAt count => exact nodup_without h.distinct _
        | _ => exact h.distinct
      | _ => exact h.distinct
    · obtain ⟨hcase, -, hhanded⟩ := stepped_cases hs
      show job ∈ b.handed c r
      rw [hhanded]
      rcases hcase with rfl | ⟨-, p', hp'⟩
      · exact hmay
      · exact h.stepping job p' hp'
    · obtain ⟨hconcluded, -, -, hhanded, -⟩ := keeps_cases hs
      show ∀ other ∈ b.handed c r, _
      rw [hhanded]
      exact h.concluded job outcome hconcluded

/-! ## Carrying out a conclusion -/

/-- Calls that leave a bench as it is between its steps. -/
def Aside : Call → Prop
  | .store (.apply ..) | .store (.recordProgress ..) | .store (.renewLease ..) => True
  | .now | .publish _ | .notify _ | .recordTick _ => True
  | _ => False

theorem after_aside {c : Call} (hb : b.stepping = none) (hc : Aside c) (r : Ans c) :
    b.after deps c r = b := by
  obtain ⟨copies, stepping, answer, concluded⟩ := b
  obtain rfl : stepping = none := hb
  cases c with
  | store c => cases c <;> first | rfl | exact hc.elim
  | client c => cases hc
  | tracker c => cases hc
  | library c => cases hc
  | staging c => cases hc
  | shuttingDown => cases hc
  | enterStep job => cases hc
  | panic => cases hc
  | _ => rfl

theorem next_aside {c : Call} {r : Ans c} {b' : Bench} (h : (noting deps).next c r b b')
    (hb : b.stepping = none) (hc : Aside c) : b' = b :=
  h.2.trans (after_aside hb hc r)

theorem obeys_aside {α : Type} {p : M α} (hb : b.stepping = none)
    (h : p.Only fun c => Aside c ∧ (noting deps).may c b) :
    p.Obeys (noting deps) b fun _ b' => b' = b := by
  refine h.obeys (I := fun b' => b' = b) rfl fun c b' hc hb' => ?_
  subst hb'
  exact ⟨hc.2, fun r b'' hn => next_aside hn hb hc.1⟩

variable (deps) in
/-- Where a drive has come to once a step is settled: the other jobs are as they were, what it
    goes on with is a copy of the same job, and an attempt is counted only for the step. -/
structure Closes (job : RepairJob) (b b' : Bench) (control : Control) : Prop where
  between : b'.stepping = none
  others : ∀ other ∈ b.copies, other.id ≠ job.id → other ∈ b'.copies
  next : ∀ next, control = .next next → next ∈ b'.copies ∧ next.id = job.id
  leave : ∀ stop, control = .leave (some stop) → stop.countAttempt = true → b'.MayCount deps job.id

section
variable {config : WorkerConfig} {job : RepairJob} {summary : TickSummary}

theorem Closes.leaving {stop : Option Stop} (hb : b.stepping = none)
    (h : ∀ s, stop = some s → s.countAttempt = true → b.MayCount deps job.id) :
    Closes deps job b b (.leave stop) where
  between := hb
  others _ ho _ := ho
  next next hn := by cases hn
  leave s hs := h s (Control.leave.inj hs)

/-- A job that is left untouched is not counted. -/
theorem Closes.idle (hb : b.stepping = none) : Closes deps job b b (.leave (some .idle)) :=
  .leaving hb fun s hs hcount => by
    cases hs
    cases hcount

theorem reload_noted : (reload job.id).Obeys (noting deps) b fun r b' =>
    b'.stepping = none ∧ (∀ other ∈ b.copies, other.id ≠ job.id → other ∈ b'.copies) ∧
      ∀ next, r = some next → next ∈ b'.copies ∧ next.id = job.id := by
  refine M.obeys_store trivial fun r b' hn => ?_
  obtain ⟨hhonest, rfl⟩ := hn
  have hsame : ∀ r, (∀ next, r ≠ .ok (some next)) →
      (b.after deps (.store (.job job.id)) r).stepping = none ∧
        (b.after deps (.store (.job job.id)) r).copies = b.copies := by
    intro r hr
    cases r with
    | error e => exact ⟨rfl, rfl⟩
    | ok next =>
      cases next with
      | none => exact ⟨rfl, rfl⟩
      | some next => exact absurd rfl (hr next)
  split
  · rename_i next
    cases next with
    | none =>
      obtain ⟨hstep, hcopies⟩ := hsame (.ok none) fun next h => (by cases h)
      exact ⟨hstep, fun other ho _ => hcopies ▸ ho, fun next h => (by cases h)⟩
    | some next =>
      refine ⟨rfl, fun other ho hne => ?_, fun next' h => ?_⟩
      · refine List.mem_cons_of_mem _ (List.mem_filter.2 ⟨ho, ?_⟩)
        simpa [show next.id = job.id from hhonest] using hne
      · cases h
        exact ⟨List.mem_cons_self .., hhonest⟩
  · rename_i e
    obtain ⟨hstep, hcopies⟩ := hsame (.error e) fun next h => (by cases h)
    exact ⟨hstep, fun other ho _ => hcopies ▸ ho, fun next h => (by cases h)⟩

theorem proceed_noted (hb : b.stepping = none) : (proceed config job.id).Obeys (noting deps) b
    fun control b' => Closes deps job b b' control := by
  have hrenew : (renewLease config job.id).Only fun c => Aside c ∧ (noting deps).may c b := by
    refine M.only_store ⟨trivial, trivial⟩ fun r => ?_
    split <;> trivial
  refine (obeys_aside hb hrenew).bind fun renewed b₁ hb₁ => ?_
  subst hb₁
  split_ifs
  · refine reload_noted.bind fun next b₂ hnext => ?_
    obtain ⟨hstep, hothers, hid⟩ := hnext
    split
    · rename_i next
      refine ⟨hstep, hothers, fun next' h => ?_, fun s hs hcount => ?_⟩
      · split_ifs at h
        cases h
        exact hid _ rfl
      · split_ifs at hs
        cases hs
        cases hcount
    · refine ⟨hstep, hothers, fun next h => (by cases h), fun s hs hcount => ?_⟩
      cases hs
      cases hcount
  · exact .leaving hb fun s hs => by cases hs

theorem settleAdvance_noted {detail : Option Json} {patch : JobPatch} (hb : b.stepping = none)
    (hconcluded : b.concluded = some (job, .advance detail patch))
    (hpatch : patch.consecutiveUnknownTrackerStatus = none) :
    (settleAdvance deps config job summary detail patch).Obeys (noting deps) b
      fun r b' => Closes deps job b b' r.2 := by
  unfold settleAdvance
  split
  · exact .idle hb
  · rename_i t ht
    obtain ⟨-, -, hreason⟩ := RepairJob.advance_ok ht
    have hmay : b.MayApply deps job.id t ⟨detail, none, patch⟩ :=
      { uncounted := hpatch
        budget := fun h => by rw [hreason] at h; cases h
        unclear := fun h => by rw [hreason] at h; cases h }
    refine M.obeys_store hmay fun r b₁ hn => ?_
    obtain rfl := next_aside hn hb trivial
    split
    · have htell : (recordAdvance job t).Only fun c => Aside c ∧ (noting deps).may c b₁ :=
        recordAdvance_only (fun _ => ⟨trivial, trivial⟩) fun _ => ⟨trivial, trivial⟩
      refine (obeys_aside hb htell).bind fun _ b₂ hb₂ => ?_
      subst hb₂
      exact (proceed_noted hb).bind fun control b' hs => hs
    · exact (proceed_noted hb).bind fun control b' hs => hs
    · exact .idle hb
    · refine (obeys_aside hb (stopForRetry_only ⟨trivial, trivial⟩)).bind fun stop b₂ hb₂ => ?_
      subst hb₂
      exact .leaving hb fun s hs _ => ⟨job, _, hconcluded, rfl, fun e he => by cases he⟩

theorem settleRewind_noted {target : RepairState} {note : String} (hb : b.stepping = none) :
    (settleRewind job target note).Obeys (noting deps) b
      fun control b' => Closes deps job b b' control := by
  unfold settleRewind
  split
  · exact .idle hb
  · rename_i t ht
    obtain ⟨-, -, hreason, -⟩ := validateTransition_ok ht
    have hmay : b.MayApply deps job.id t (.withDetail
        (.obj [("note", .str note), ("from", .str job.state.asStr)])) :=
      { uncounted := rfl
        budget := fun h => by rw [hreason] at h; cases h
        unclear := fun h => by rw [hreason] at h; cases h }
    refine M.obeys_store hmay fun r b₁ hn => ?_
    obtain rfl := next_aside hn hb trivial
    split
    · exact .idle hb
    · refine M.obeys_publish trivial fun b₂ hn => ?_
      obtain rfl := next_aside hn hb trivial
      refine reload_noted.bind fun next b₃ hnext => ?_
      obtain ⟨hstep, hothers, hid⟩ := hnext
      split
      · refine ⟨hstep, hothers, fun next' h => ?_, fun s hs => (by cases hs)⟩
        cases h
        exact hid _ rfl
      · refine ⟨hstep, hothers, fun next h => (by cases h), fun s hs hcount => ?_⟩
        cases hs
        cases hcount

/-- Parking a job leaves the bench as it is. -/
theorem park_noted {reason : ReviewReason} {detail : Option Json} {patch : JobPatch}
    (hb : b.stepping = none) (hmay : ∀ t : Transition, t.fromState = job.state →
      t.reason = .review reason → b.MayApply deps job.id t ⟨detail, none, patch⟩) :
    (park job reason detail patch).Obeys (noting deps) b fun _ b' => b' = b := by
  unfold park
  split
  · rfl
  · rename_i t ht
    obtain ⟨hfrom, -, hreason, -⟩ := validateTransition_ok ht
    refine M.obeys_store (hmay t hfrom hreason) fun r b₁ hn => ?_
    obtain rfl := next_aside hn hb trivial
    split
    · rfl
    · exact obeys_aside hb ⟨⟨trivial, trivial⟩, fun _ => ⟨⟨trivial, trivial⟩, fun _ => trivial⟩⟩

theorem settleRetry_noted {error : String} (hb : b.stepping = none)
    (hconcluded : b.concluded = some (job, .retry error)) (hjob : job.state.isActionable = true) :
    (settleRetry deps job summary error).Obeys (noting deps) b
      fun r b' => Closes deps job b b' r.2 := by
  unfold settleRetry
  simp only
  split_ifs with hmax
  · refine (park_noted hb fun t hfrom hreason => ?_).bind fun _ b₁ hb₁ => ?_
    · exact
        { uncounted := rfl
          budget := fun _ => ⟨job, error, hconcluded, rfl, hfrom.symm, hmax⟩
          unclear := fun h => by rw [hreason] at h; cases h }
    · subst hb₁
      exact .idle hb
  · refine (obeys_aside hb (stopForRetry_only ⟨trivial, trivial⟩)).bind fun stop b₁ hb₁ => ?_
    subst hb₁
    exact .leaving hb fun s hs _ => ⟨job, _, hconcluded, rfl, fun e he => ⟨hjob, not_le.1 hmax⟩⟩

/-- What a step concluded is carried out by the rules. -/
theorem settle_noted {outcome : StepOutcome} (hb : b.stepping = none)
    (hconcluded : b.concluded = some (job, outcome))
    (hfacts : StepFacts deps job b.answer outcome) :
    (settle deps config job summary outcome).Obeys (noting deps) b
      fun r b' => Closes deps job b b' r.2 := by
  cases outcome with
  | advance detail patch =>
    exact settleAdvance_noted hb hconcluded (hfacts.uncounted fun _ _ _ he => (by cases he))
  | rewind target note => exact (settleRewind_noted hb).bind fun control b' hs => hs
  | review reason detail patch =>
    refine (park_noted hb fun t hfrom hreason => ?_).bind fun _ b₁ hb₁ => ?_
    · refine
        { uncounted := hfacts.uncounted fun _ _ _ he => (by cases he)
          budget := fun h => ?_
          unclear := fun h n hdetail => ?_ }
      · obtain rfl : reason = .retryBudgetExhausted := by rw [hreason] at h; exact TransitionReason.review.inj h
        exact absurd rfl (hfacts.budget detail patch)
      · obtain rfl : reason = .trackerStatusUnclear := by rw [hreason] at h; exact TransitionReason.review.inj h
        obtain rfl : detail = _ := hdetail
        exact ⟨job, _, hconcluded, rfl, hfacts.unclear n patch rfl⟩
    · subst hb₁
      exact .idle hb
  | wait after note patch =>
    have hwait : (settleWait job after patch).Only fun c => Aside c ∧ (noting deps).may c b :=
      settleWait_only ⟨trivial, trivial⟩
        ⟨trivial, fun n hn => ⟨job, _, hconcluded, rfl, (hfacts.streak n hn).2⟩⟩
        fun _ => ⟨trivial, trivial⟩
    have hstop : (settleWait job after patch).Returns fun stop => stop.countAttempt = false := by
      unfold settleWait
      split_ifs
      · refine M.returns_store fun r => ?_
        split
        · exact M.returns_now fun _ => rfl
        · exact fun _ => M.returns_now fun _ => rfl
      · exact M.returns_now fun _ => rfl
    refine ((obeys_aside hb hwait).and hstop).bind fun stop b₁ h => ?_
    obtain ⟨rfl, hcount⟩ := h
    refine .leaving hb fun s hs hc => ?_
    cases hs
    rw [hcount] at hc
    cases hc
  | retry error => exact settleRetry_noted hb hconcluded (hfacts.actionable error rfl)

end

/-- A worker is ready for the copies at hand once no step is under way, and counts an attempt
    only for a step of the job. -/
theorem driveRules_noting (config : WorkerConfig) : DriveRules (noting deps) deps config
    (fun b job => b.stepping = none ∧ job ∈ b.copies)
    (fun b job stop => stop.countAttempt = true → b.MayCount deps job.id)
    fun other job => other.id ≠ job.id where
  idle c b hc := by
    cases c with
    | shuttingDown => exact ⟨trivial, fun r b' hn job hjob => ⟨hn.2 ▸ rfl, hn.2 ▸ hjob.2⟩⟩
    | now => exact ⟨trivial, fun r b' hn job hjob => next_aside hn hjob.1 trivial ▸ hjob⟩
    | recordTick time => exact ⟨trivial, fun r b' hn job hjob => next_aside hn hjob.1 trivial ▸ hjob⟩
    | publish e => exact ⟨trivial, fun r b' hn job hjob => next_aside hn hjob.1 trivial ▸ hjob⟩
    | _ => cases hc
  claim b := by
    refine ⟨trivial, fun jobs b' hn => ?_⟩
    obtain ⟨hnodup, rfl⟩ := hn
    exact ⟨(List.pairwise_map.1 hnodup).imp Ne.symm, fun job hjob => ⟨rfl, hjob⟩⟩
  untouched b job hcount := by cases hcount
  release b job stop hstop := by
    refine ⟨hstop, fun r b' hn other hne ho => ?_⟩
    obtain ⟨-, rfl⟩ := hn
    exact ⟨rfl, List.mem_filter.2 ⟨ho.2, by simpa using hne⟩⟩
  round b job summary hjob := by
    refine M.obeys_enterStep hjob.2 fun b₁ hn => ?_
    obtain ⟨-, rfl⟩ := hn
    refine step_noted.bind fun outcome b₂ h => ?_
    obtain ⟨⟨hconcluded, hb₂, hcopies⟩, hfacts⟩ := h
    refine (settle_noted hb₂ hconcluded hfacts).mono fun r b₃ hs => ⟨fun other hne ho => ?_,
      fun next hn => ?_, hs.leave⟩
    · refine ⟨hs.between, hs.others other ?_ hne⟩
      rw [hcopies]
      exact List.mem_filter.2 ⟨ho.2, by simpa using hne⟩
    · obtain ⟨hnext, hid⟩ := hs.next next hn
      exact ⟨⟨hs.between, hnext⟩, fun other hne => by rw [hid]; exact hne,
        fun b' stop hleave => by rw [← hid]; exact hleave⟩

/-- Every turn of a worker keeps the rules. -/
theorem turn_noted (config : WorkerConfig) : (turn deps config).Obeys (noting deps) b fun _ _ => True := by
  refine M.obeys_shuttingDown trivial fun down b₁ _ => ?_
  split_ifs
  · trivial
  · exact ((driveRules_noting config).tick b₁).bind fun _ _ _ => trivial

end Bench

end SeedMedic
