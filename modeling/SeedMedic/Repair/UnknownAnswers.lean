/-
  What the streak of unknown answers of a job stands for: the answers of the tracker that the
  log shows.
-/
import SeedMedic.Repair.Logbook

namespace SeedMedic

open Lib Prog SqliteRepairStore

/-! ## The answers of a step -/

namespace Bench

variable {deps : RepairDeps} {b : Bench} {c : Call} {r : Ans c} {job : RepairJob}
  {status : HitAndRunStatus}

/-- The status a tracker answers in a step, and the job of the step. -/
def answered (b : Bench) : (c : Call) → Ans c → Option (RepairJob × HitAndRunStatus)
  | .tracker (.hitAndRunStatus ..), .ok status => b.stepping.map fun s => (s.1, status)
  | _, _ => none

variable (deps) in
/-- A step goes on by the answer of its tracker, which is the last one heard. -/
theorem answered_some (h : b.answered c r = some (job, status)) :
    (∃ p, b.stepped deps c r = some (job, p)) ∧ b.hears c r = some status := by
  unfold answered at h
  split at h
  · obtain ⟨⟨job', p⟩, hp, he⟩ := Option.map_eq_some_iff.1 h
    cases he
    exact ⟨⟨_, by simp only [stepped, hp]; rfl⟩, rfl⟩
  · cases h

/-- What a step has heard is what the tracker answers it, or was heard before. -/
theorem hears_cases {p : M StepOutcome} (h : b.stepped deps c r = some (job, p))
    (hears : b.hears c r = some status) : b.answered c r = some (job, status) ∨
      b.answered c r = none ∧ b.answer = some status ∧ ∃ p', b.stepping = some (job, p') := by
  obtain ⟨rfl | ⟨-, p', hp'⟩, -, -⟩ := stepped_cases h
  · cases hears
  cases c with
  | tracker c =>
    cases c with
    | hitAndRunStatus tracker torrent =>
      cases r with
      | error e => exact .inr ⟨rfl, hears, p', hp'⟩
      | ok status' =>
        obtain rfl : status' = status := Option.some.inj hears
        exact .inl (by simp only [answered, hp']; rfl)
    | _ => exact .inr ⟨rfl, hears, p', hp'⟩
  | enterStep job => cases hears
  | _ => exact .inr ⟨rfl, hears, p', hp'⟩

/-- What is still known of the last step was not heard in this call. -/
theorem answered_of_keeps {outcome : StepOutcome} (h : b.keeps c r = some (job, outcome)) :
    b.answered c r = none := by
  cases c with
  | tracker c => cases h
  | _ => rfl

end Bench

namespace Logbook

variable {ι κ : Type} {deps : ι → RepairDeps} {w : Logbook ι} {i : ι} {c : Call} {r : Ans c}
  {s : SqliteRepairStore}

/-- An unknown answer for a job, where the tracker's last answer for it was none, comes while no
    streak is on record. -/
def StartsAfresh (w : Logbook ι) (i : ι) (c : Call) (r : Ans c) : Prop :=
  ∀ job, (w.bench i).answered c r = some (job, .unknown) → w.unknowns job.id = 0 →
    job.consecutiveUnknownTrackerStatus = 0

/-- The condition on a call: streaks of unknown answers start afresh. -/
def UnknownsInRow : ι ⊕ κ → (c : Call) → Ans c → Logbook ι → Prop
  | .inl i, c, r, w => w.Sole κ (.inl i) c ∧ w.StartsAfresh i c r
  | .inr _, _, _, _ => True

/-- Streaks on record are no longer than those of the log, as long as these last. -/
structure Heard (w : Logbook ι) : Prop where
  handed : w.Handed
  rows : ∀ id r, w.store.jobs.get? id = some r →
    Tallies r.consecutiveUnknownTrackerStatus (w.unknowns id)
  copies : ∀ i, ∀ job ∈ (w.bench i).copies, w.holder job.id = some i →
    Tallies job.consecutiveUnknownTrackerStatus (w.unknowns job.id)
  stepping : ∀ i job p, (w.bench i).stepping = some (job, p) → w.holder job.id = some i →
    (w.bench i).answer = some .unknown →
      job.consecutiveUnknownTrackerStatus + 1 ≤ w.unknowns job.id
  concluded : ∀ i job outcome, (w.bench i).concluded = some (job, outcome) →
    w.holder job.id = some i → (w.bench i).answer = some .unknown →
      job.consecutiveUnknownTrackerStatus + 1 ≤ w.unknowns job.id

theorem Heard.opening {s : SqliteRepairStore} {now : Time}
    (h : ∀ id r, s.jobs.get? id = some r → r.consecutiveUnknownTrackerStatus = 0) :
    (opening s now : Logbook ι).Heard where
  handed := .opening s now
  rows id r hr := h id r hr ▸ .zero _
  copies _ _ hjob := by cases hjob
  stepping _ _ _ hstep := by cases hstep
  concluded _ _ _ hout := by cases hout

/-- The answers for a job are those its tracker gives in the steps of the workers. -/
theorem enterAnswer_eq : w.enterAnswer i c r = match (w.bench i).answered c r with
    | some (job, status) => Function.update w.answers job.id (status :: w.answers job.id)
    | none => w.answers := by
  cases c with
  | tracker c =>
    cases c with
    | hitAndRunStatus tracker torrent =>
      cases r with
      | error e => rfl
      | ok status =>
        unfold enterAnswer Bench.answered
        cases (w.bench i).stepping <;> rfl
    | _ => rfl
  | _ => rfl

theorem enterAnswer_self {job : RepairJob} {status : HitAndRunStatus}
    (h : (w.bench i).answered c r = some (job, status)) :
    w.enterAnswer i c r job.id = status :: w.answers job.id := by
  rw [enterAnswer_eq, h]
  exact Function.update_self ..

theorem enterAnswer_other {id : JobId} (h : ∀ job status,
    (w.bench i).answered c r = some (job, status) → job.id ≠ id) :
    w.enterAnswer i c r id = w.answers id := by
  rw [enterAnswer_eq]
  cases ha : (w.bench i).answered c r with
  | none => rfl
  | some answer =>
    obtain ⟨job, status⟩ := answer
    exact Function.update_of_ne (h job status ha).symm ..

/-- A tracker answers a worker about a copy it was last handed, and nothing else happens. -/
theorem Handed.answered (h : w.Handed) {d : RepairDeps} (hn : Noted d w i c r s)
    (hsole : w.Sole κ (.inl i) c) {job : RepairJob} {status : HitAndRunStatus}
    (ha : (w.bench i).answered c r = some (job, status)) :
    job ∈ (w.bench i).copies ∧ w.holder job.id = some i ∧ (c = .enterStep job ∨ StepCall c) := by
  obtain ⟨⟨p, hp⟩, -⟩ := Bench.answered_some d ha
  obtain ⟨hmem, hholder, -, hcall⟩ := h.stepped hn hsole hp
  exact ⟨hmem, hholder, hcall⟩

/-- An unknown answer finds no streak in the row of a job whose last answer was another. -/
theorem Handed.unstreaked (h : w.Handed) {d : RepairDeps} (hn : Noted d w i c r s)
    (hsole : w.Sole κ (.inl i) c) {job : RepairJob} {status : HitAndRunStatus}
    (ha : (w.bench i).answered c r = some (job, status))
    (hzero : job.consecutiveUnknownTrackerStatus = 0) {r₀ : JobRow}
    (hr₀ : w.store.jobs.get? job.id = some r₀) : r₀.consecutiveUnknownTrackerStatus = 0 := by
  obtain ⟨hmem, hholder, -⟩ := h.answered hn hsole ha
  have hle := (h.copies i job hmem hholder r₀ hr₀).2
  rw [hzero] at hle
  unfold asU32 at hle
  omega

variable [DecidableEq ι]

theorem unknowns_answered {d : RepairDeps} {job : RepairJob} {status : HitAndRunStatus}
    (h : (w.bench i).answered c r = some (job, status)) :
    (w.note d i c r).unknowns job.id =
      streak (fun a => a = .unknown) (status :: w.answers job.id) :=
  congrArg (streak _) (enterAnswer_self h)

theorem unknowns_kept {d : RepairDeps} {id : JobId} (h : ∀ job status,
    (w.bench i).answered c r = some (job, status) → job.id ≠ id) :
    (w.note d i c r).unknowns id = w.unknowns id :=
  congrArg (streak _) (enterAnswer_other h)

/-- A counter of a job stays backed when the tracker's answer is entered. -/
theorem tallies_answered {d : RepairDeps} {job : RepairJob} {status : HitAndRunStatus} {n : ℕ}
    (ha : (w.bench i).answered c r = some (job, status)) (h : Tallies n (w.unknowns job.id))
    (hfresh : status = .unknown → w.unknowns job.id = 0 → n = 0) :
    Tallies n ((w.note d i c r).unknowns job.id) := by
  rw [unknowns_answered ha]
  refine h.cons fun hnone hunknown => ?_
  have hzero := hfresh (of_decide_eq_true hunknown) hnone
  omega

/-- What a worker hears leaves the jobs alone that were last handed to others. -/
theorem Handed.unknowns_other (h : w.Handed) {d : RepairDeps} (hn : Noted d w i c r s)
    (hsole : w.Sole κ (.inl i) c) {id : JobId} (hid : w.holder id ≠ some i) :
    (w.note d i c r).unknowns id = w.unknowns id :=
  unknowns_kept fun _ _ ha he => hid (he ▸ (h.answered hn hsole ha).2.1)

theorem Heard.rows_note (h : w.Heard) {d : RepairDeps} (hn : Noted d w i c r s)
    (hsole : w.Sole κ (.inl i) c) (hfresh : w.StartsAfresh i c r) {id : JobId} {r' : JobRow}
    (hr' : s.jobs.get? id = some r') :
    Tallies r'.consecutiveUnknownTrackerStatus ((w.note d i c r).unknowns id) := by
  obtain ⟨r₀, hr₀, hrow⟩ := hn.rowAfter hr'
  have hold := h.rows id r₀ hr₀
  have hid : r₀.id = id := (Table.get?_some hr₀).2
  by_cases ha : ∃ job status, (w.bench i).answered c r = some (job, status) ∧ job.id = id
  · -- the tracker of the job answers
    obtain ⟨job, status, ha, rfl⟩ := ha
    obtain ⟨-, -, hcall⟩ := h.handed.answered hn hsole ha
    obtain ⟨-, -, hunknown⟩ := hrow.of_step hcall
    rw [hunknown]
    refine tallies_answered ha hold fun hs hnone => ?_
    subst hs
    exact h.handed.unstreaked hn hsole ha (hfresh job ha hnone) hr₀
  · rw [unknowns_kept fun job status hj he => ha ⟨job, status, hj, he⟩]
    cases hrow with
    | kept _ _ hunknown => exact hunknown ▸ hold
    | moved _ _ _ hunknown => exact hunknown ▸ hold
    | counted _ _ _ hunknown => exact hunknown ▸ hold
    | progressed call recorded _ _ hunknown =>
      -- recorded for the step that concluded last
      have hholder := hsole.holder (.inr (.inl ⟨_, call⟩))
      subst call
      obtain ⟨job, outcome, hconcluded, hjob, hn⟩ := hn.may _ recorded
      rw [hunknown]
      rcases hn with rfl | ⟨hanswer, rfl⟩
      · exact .zero _
      · rw [← hjob] at hholder
        have hcount := h.concluded i job outcome hconcluded hholder hanswer
        rw [hjob, hid] at hcount
        exact .inl ((Nat.mod_le _ _).trans hcount)

/-- A step that heard an unknown answer last is of a job with more of them than it knows of. -/
theorem Heard.heard_note (h : w.Heard) {d : RepairDeps} (hn : Noted d w i c r s)
    (hsole : w.Sole κ (.inl i) c) (hfresh : w.StartsAfresh i c r) {job : RepairJob}
    {p : M StepOutcome} (hp : (w.bench i).stepped d c r = some (job, p))
    (hears : (w.bench i).hears c r = some .unknown) :
    job.consecutiveUnknownTrackerStatus + 1 ≤ (w.note d i c r).unknowns job.id := by
  obtain ⟨hmem, hholder, -⟩ := h.handed.stepped hn hsole hp
  rcases Bench.hears_cases hp hears with ha | ⟨ha, hanswer, p', hp'⟩
  · have hcopy := h.copies i job hmem hholder
    rw [unknowns_answered ha, streak_hit rfl]
    by_cases hnone : w.unknowns job.id = 0
    · have hzero := hfresh job ha hnone
      omega
    · exact Nat.succ_le_succ (hcopy.running (Nat.pos_of_ne_zero hnone))
  · rw [unknowns_kept fun job' status ha' => by rw [ha] at ha'; cases ha']
    exact h.stepping i job p' hp' hholder hanswer

theorem Heard.stepping_note (h : w.Heard) {d : RepairDeps} (hn : Noted d w i c r s)
    (hsole : w.Sole κ (.inl i) c) (hfresh : w.StartsAfresh i c r) {j : ι} {job : RepairJob}
    {p : M StepOutcome} (hstep : ((w.note d i c r).bench j).stepping = some (job, p))
    (hholder : (w.note d i c r).holder job.id = some j)
    (hanswer : ((w.note d i c r).bench j).answer = some .unknown) :
    job.consecutiveUnknownTrackerStatus + 1 ≤ (w.note d i c r).unknowns job.id := by
  by_cases hj : j = i
  · subst hj
    rw [bench_note_self] at hstep hanswer
    cases hc : (w.bench j).concludes d c r with
    | some s =>
      rw [Bench.after_of_concludes hc] at hstep
      cases hstep
    | none =>
      rw [Bench.after_of_going hc] at hstep hanswer
      exact h.heard_note hn hsole hfresh hstep hanswer
  · rw [bench_note_other hj] at hstep hanswer
    have hold := holder_note hholder (.inl hj)
    rw [h.handed.unknowns_other hn hsole (by rw [hold]; exact fun he => hj (Option.some.inj he))]
    exact h.stepping j job p hstep hold hanswer

theorem Heard.concluded_note (h : w.Heard) {d : RepairDeps} (hn : Noted d w i c r s)
    (hsole : w.Sole κ (.inl i) c) (hfresh : w.StartsAfresh i c r) {j : ι} {job : RepairJob}
    {outcome : StepOutcome} (hout : ((w.note d i c r).bench j).concluded = some (job, outcome))
    (hholder : (w.note d i c r).holder job.id = some j)
    (hanswer : ((w.note d i c r).bench j).answer = some .unknown) :
    job.consecutiveUnknownTrackerStatus + 1 ≤ (w.note d i c r).unknowns job.id := by
  by_cases hj : j = i
  · subst hj
    rw [bench_note_self] at hout hanswer
    cases hc : (w.bench j).concludes d c r with
    | some s =>
      obtain ⟨job', outcome'⟩ := s
      rw [Bench.after_of_concludes hc] at hout hanswer
      cases hout
      exact h.heard_note hn hsole hfresh (Bench.stepped_of_concludes hc) hanswer
    | none =>
      rw [Bench.after_of_going hc] at hout hanswer
      have hkept := Bench.answered_of_keeps hout
      obtain ⟨hold, hclaimed, -, -, hheard⟩ := Bench.keeps_cases hout
      rw [unknowns_kept fun job' status ha => by rw [hkept] at ha; cases ha]
      exact h.concluded j job outcome hold (holder_note hholder (.inr hclaimed))
        (hheard.symm.trans hanswer)
  · rw [bench_note_other hj] at hout hanswer
    have hold := holder_note hholder (.inl hj)
    rw [h.handed.unknowns_other hn hsole (by rw [hold]; exact fun he => hj (Option.some.inj he))]
    exact h.concluded j job outcome hout hold hanswer

theorem heard_invariant : LogInvariant deps
    (UnknownsInRow : ι ⊕ κ → (c : Call) → Ans c → Logbook ι → Prop) fun w => w.Heard := by
  have hhanded : LogInvariant deps (fun (i : ι ⊕ κ) c _ w => w.Sole κ i c)
      fun w : Logbook ι => w.Handed := handed_invariant
  refine
    { worker := ?_
      bystander := ?_
      pass := fun w now h =>
        ⟨hhanded.pass w now h.handed, h.rows, h.copies, h.stepping, h.concluded⟩
      discovery := ?_ }
  · rintro i c r w s h hn ⟨hsole, hfresh⟩
    have hrows : ∀ id r', s.jobs.get? id = some r' →
        Tallies r'.consecutiveUnknownTrackerStatus ((w.note (deps i) i c r).unknowns id) :=
      fun id r' => h.rows_note hn hsole hfresh
    refine ⟨hhanded.worker i c r w s h.handed hn hsole, hrows, fun j job hjob hholder => ?_,
      fun j job p hstep hholder hanswer => ?_, fun j job outcome hout hholder hanswer => ?_⟩
    · show Tallies job.consecutiveUnknownTrackerStatus ((w.note (deps i) i c r).unknowns job.id)
      rcases h.handed.copies_note hn hsole hjob hholder with ⟨hd, -⟩ | ⟨hmem, hold, -, -⟩
      · obtain ⟨row, hrow, rfl⟩ := hn.replies.delivers hd
        exact (hrows _ row hrow).mono (asU32_le _)
      · have hcopy := h.copies j job hmem hold
        by_cases ha : ∃ job' status,
            (w.bench i).answered c r = some (job', status) ∧ job'.id = job.id
        · obtain ⟨job', status, ha, hid⟩ := ha
          obtain ⟨hmem', hholder', -⟩ := h.handed.answered hn hsole ha
          rw [hid, hold] at hholder'
          obtain rfl : j = i := Option.some.inj hholder'
          obtain rfl : job' = job := List.inj_on_of_nodup_map (h.handed.tidy j).distinct hmem' hmem hid
          refine tallies_answered ha hcopy fun hs hnone => ?_
          subst hs
          exact hfresh job' ha hnone
        · rw [unknowns_kept fun job' status hj he => ha ⟨job', status, hj, he⟩]
          exact hcopy
    · exact h.stepping_note hn hsole hfresh hstep hholder hanswer
    · exact h.concluded_note hn hsole hfresh hout hholder hanswer
  · intro c r w s h hc hs
    refine ⟨hhanded.bystander c r w s h.handed hc hs, fun id r' hr' => ?_, h.copies, h.stepping,
      h.concluded⟩
    obtain ⟨r₀, hr₀, -, hunknown⟩ := hc.rowAfter hs hr'
    rw [hunknown]
    exact h.rows id r₀ hr₀
  · intro w s now hr d h hok
    refine ⟨hhanded.discovery w s now hr d h.handed hok, fun id r' hr' => ?_, h.copies, h.stepping,
      h.concluded⟩
    rcases discovered_row hok hr' with hr' | ⟨-, hu⟩
    · exact h.rows id r' hr'
    · exact hu ▸ .zero _

end Logbook

/-- In every run in which a streak of unknown answers starts with none on record, a worker is about
    to park a job it was last handed, too many answers of its tracker unknown, only when that many
    of the tracker's last answers for the job were all unknown. -/
theorem parked_after_unknowns {ι κ : Type} [DecidableEq ι] [DecidableEq κ] {deps : ι → RepairDeps}
    {s₀ : SqliteRepairStore} {now : Time} {s : Lib.Config (ι ⊕ κ) Call Ans (Logbook ι)}
    (hopening : ∀ id r, s₀.jobs.get? id = some r → r.consecutiveUnknownTrackerStatus = 0)
    {i : ι} {id : JobId} {t : Transition} {u : TransitionUpdate} {n : Json}
    {k : Ans (.store (.apply id t u)) → M Unit}
    (hreach : ((logged ι κ deps).within Logbook.UnknownsInRow).Reach (.opening s₀ now) s)
    (hpark : s.threads (.inl i) = some (.call (.store (.apply id t u)) k))
    (hreason : t.reason = .review .trackerStatusUnclear)
    (hdetail : u.detail = some (.obj [("consecutive_unknown_answers", n)]))
    (hholder : s.world.holder id = some i) :
    (deps i).policy.maxConsecutiveUnknownTrackerStatus ≤ (s.world.answers id).length ∧
      ∀ a ∈ (s.world.answers id).take (deps i).policy.maxConsecutiveUnknownTrackerStatus,
        a = .unknown := by
  obtain ⟨hinv, hmay⟩ := Logbook.heard_invariant.permitted (.opening hopening) hreach hpark
  obtain ⟨job, outcome, hconcluded, rfl, hanswer, hmax⟩ := Bench.MayApply.unclear hmay hreason n hdetail
  have hcount := hinv.concluded i job outcome hconcluded hholder hanswer
  obtain ⟨hlength, hall⟩ := le_streak_iff.1 (hmax.trans ((Nat.mod_le _ _).trans hcount))
  exact ⟨hlength, fun a ha => of_decide_eq_true (hall a ha)⟩

/-! ## Unknown answers that are none in a row -/

/-- A tracker that cannot tell, and a client that seeds the torrent. -/
def unclear (time : Time) : Circumstance :=
  ⟨time, .ok (some { completeTorrent with state := .seeding }), .unknown, false⟩

/-- A tracker that answers, and a client that cannot be reached. -/
def unfinished (time : Time) : Circumstance :=
  ⟨time, .error (.transport "connection refused"), .active, false⟩

/-- What a program is about to park, why, and with what detail. -/
def parksWith (p : M Unit) : Option (JobId × TransitionReason × Option Json) :=
  (writes? p).map fun x => (x.1, x.2.1.reason, x.2.2.detail)

theorem parksWith_some {p : M Unit} {id : JobId} {reason : TransitionReason} {detail : Option Json}
    (h : parksWith p = some (id, reason, detail)) : ∃ t u k,
      p = .call (.store (.apply id t u)) k ∧ t.reason = reason ∧ u.detail = detail := by
  obtain ⟨id', t, u, k, hp, he⟩ := writes?_map h
  cases he
  exact ⟨t, u, k, hp, rfl, rfl⟩

theorem storeAt_unknowns {state : RepairState} (id : JobId) (r : JobRow)
    (h : (storeAt state).jobs.get? id = some r) : r.consecutiveUnknownTrackerStatus = 0 := by
  obtain rfl := List.mem_singleton.1 (Table.get?_some h).1
  rfl

/-- The detail of a job parked after two unknown answers. -/
def twoUnknown : Option Json := some (.obj [("consecutive_unknown_answers", .num 2)])

/-- A job is about to be parked for two unknown answers with a clear one between them. -/
theorem parked_after_answer :
    (∀ id r, (storeAt .seeding).jobs.get? id = some r → r.consecutiveUnknownTrackerStatus = 0) ∧
    ∃ s t u k, (logged Unit Unit fun _ => twoTries).Reach (.opening (storeAt .seeding) 0) s ∧
      s.threads (.inl ()) = some (.call (.store (.apply ⟨1⟩ t u)) k) ∧
        t.reason = .review .trackerStatusUnclear ∧ u.detail = twoUnknown ∧
          s.world.holder ⟨1⟩ = some () ∧
            ¬(twoTries.policy.maxConsecutiveUnknownTrackerStatus ≤ (s.world.answers ⟨1⟩).length ∧
              ∀ a ∈ (s.world.answers ⟨1⟩).take twoTries.policy.maxConsecutiveUnknownTrackerStatus,
                a = .unknown) := by
  obtain ⟨s, hs, hthread, hworld⟩ := Logbook.reach_unchecked twoTries .seeding
    [unclear (hour 1000), unfinished (hour 2000)] (unclear (hour 3000)) 8
  obtain ⟨t, u, k, hk, hreason, hdetail⟩ := parksWith_some (by decide +kernel :
    parksWith (Logbook.turns twoTries Logbook.unchecked .seeding
      [unclear (hour 1000), unfinished (hour 2000)] (unclear (hour 3000)) 8).1 =
        some (⟨1⟩, .review .trackerStatusUnclear, twoUnknown))
  refine ⟨storeAt_unknowns, s, t, u, k, hs, hthread.trans (congrArg some hk), hreason, hdetail, ?_, ?_⟩
  · rw [hworld]
    decide +kernel
  · rw [hworld]
    decide +kernel

/-- Whether a call of the only worker starts a streak of unknown answers with none on record. -/
def startsAfresh (c : Call) (r : Ans c) (w : Logbook Unit) : Bool :=
  Logbook.soleCheck c w && match (w.bench ()).answered c r with
    | some (job, .unknown) => w.unknowns job.id != 0 || job.consecutiveUnknownTrackerStatus = 0
    | _ => true

theorem unknownsInRow_of_check {c : Call} {r : Ans c} {w : Logbook Unit}
    (h : startsAfresh c r w = true) : Logbook.UnknownsInRow (.inl () : Unit ⊕ Unit) c r w := by
  unfold startsAfresh at h
  rw [Bool.and_eq_true] at h
  refine ⟨Logbook.sole_of_check h.1, fun job ha hnone => ?_⟩
  have h := h.2
  rw [ha] at h
  simpa [hnone] using h

/-- A job is about to be parked for two unknown answers, the last two there are. -/
theorem parked_after_two_unknowns : ∃ s t u k, ((logged Unit Unit fun _ => twoTries).within
      Logbook.UnknownsInRow).Reach (.opening (storeAt .seeding) 0) s ∧
    s.threads (.inl ()) = some (.call (.store (.apply ⟨1⟩ t u)) k) ∧
      twoTries.policy.maxConsecutiveUnknownTrackerStatus ≤ (s.world.answers ⟨1⟩).length ∧
        ∀ a ∈ (s.world.answers ⟨1⟩).take twoTries.policy.maxConsecutiveUnknownTrackerStatus,
          a = .unknown := by
  obtain ⟨s, hs, hthread, hworld⟩ := Logbook.reach_turns twoTries startsAfresh
    Logbook.UnknownsInRow (fun _ _ _ => unknownsInRow_of_check) .seeding
    [unclear (hour 1000)] (unclear (hour 2000)) 8
  obtain ⟨t, u, k, hk, hreason, hdetail⟩ := parksWith_some (by decide +kernel :
    parksWith (Logbook.turns twoTries startsAfresh .seeding [unclear (hour 1000)]
      (unclear (hour 2000)) 8).1 = some (⟨1⟩, .review .trackerStatusUnclear, twoUnknown))
  have hpark := hthread.trans (congrArg some hk)
  have hholder : s.world.holder ⟨1⟩ = some () := by
    rw [hworld]
    decide +kernel
  exact ⟨s, t, u, k, hs, hpark,
    parked_after_unknowns storeAt_unknowns hs hpark hreason hdetail hholder⟩

end SeedMedic
