/-
  What reconciliation leaves behind: targets that reality backs, and nothing for a
  second pass to do.
-/
import SeedMedic.Repair.Calls
import SeedMedic.Repair.Serve

namespace SeedMedic

open Lib Prog SqliteRepairStore

/-! ## What was seen of reality -/

/-- The answers a reconciliation got. -/
abbrev Answered := List (Σ c, Ans c)

/-- The client has the torrent of the job, or could not tell. -/
def ClientBacks (job : RepairJob) (seen : Answered) : Prop :=
  job.infoHash = none ∨ ∃ h, job.infoHash = some h ∧
    ((∃ status, ⟨.client (.status h), .ok (some status)⟩ ∈ seen) ∨
      ∃ error, ⟨.client (.status h), .error error⟩ ∈ seen)

/-- The job has no staging plan. -/
def Unplanned (job : RepairJob) (seen : Answered) : Prop :=
  job.stagingDir = none ∨ ⟨.store (.plannedFiles job.id), .ok []⟩ ∈ seen ∨
    ∃ error, ⟨.store (.plannedFiles job.id), .error error⟩ ∈ seen

/-- The staged data of the job is complete, or could not be inspected, or nothing is planned. -/
def StagingBacks (job : RepairJob) (seen : Answered) : Prop :=
  Unplanned job seen ∨ ∃ dir files, job.stagingDir = some dir ∧
    ⟨.store (.plannedFiles job.id), .ok files⟩ ∈ seen ∧
      (⟨.staging (.inspect ⟨inspectionItems dir files⟩), .ok .complete⟩ ∈ seen ∨
        ∃ error, ⟨.staging (.inspect ⟨inspectionItems dir files⟩), .error error⟩ ∈ seen)

/-- A target no further than the start, and no further than what was seen of reality. -/
structure Backed (job : RepairJob) (starting target : RepairState) (seen : Answered) : Prop where
  backwards : reconcileRank target ≤ reconcileRank starting
  client : reconcileRank .injected ≤ reconcileRank target → ClientBacks job seen
  staging : reconcileRank .staged ≤ reconcileRank target → StagingBacks job seen

theorem ClientBacks.append {job : RepairJob} {seen : Answered} (h : ClientBacks job seen)
    (more : Answered) : ClientBacks job (seen ++ more) := by
  rcases h with h | ⟨hash, hh, ⟨status, h⟩ | ⟨error, h⟩⟩
  · exact .inl h
  · exact .inr ⟨hash, hh, .inl ⟨status, List.mem_append_left _ h⟩⟩
  · exact .inr ⟨hash, hh, .inr ⟨error, List.mem_append_left _ h⟩⟩

theorem earliest_le_right (a b : RepairState) : reconcileRank (earliest a b) ≤ reconcileRank b := by
  unfold earliest
  split_ifs with h
  · exact h
  · exact le_rfl

section
variable {job : RepairJob} {starting : RepairState}

theorem clientBackedTarget_traced : (clientBackedTarget job starting).Obeys (tracing Call Ans) []
    fun target seen => reconcileRank target ≤ reconcileRank starting ∧
      (reconcileRank .injected ≤ reconcileRank target → ClientBacks job seen) := by
  unfold clientBackedTarget
  split_ifs with hrank
  · split
    · rename_i hnone
      exact ⟨le_rfl, fun _ => .inl hnone⟩
    · rename_i h hh
      refine M.obeys_client trivial fun r seen hn => ?_
      subst hn
      split
      · refine ⟨earliest_le_left _ _, fun hle => absurd (hle.trans (earliest_le_right _ _)) (by decide)⟩
      · rename_i status
        exact ⟨le_rfl, fun _ => .inr ⟨h, hh, .inl ⟨status, by simp⟩⟩⟩
      · rename_i error
        exact ⟨le_rfl, fun _ => .inr ⟨h, hh, .inr ⟨error, by simp⟩⟩⟩
  · exact ⟨le_rfl, fun hle => absurd hle hrank⟩

theorem stagingPlan_traced {seen : Answered} : (stagingPlan job).Obeys (tracing Call Ans) seen
    fun plan seen' => (∃ more, seen' = seen ++ more) ∧
      (plan = none → Unplanned job seen') ∧
      ∀ items, plan = some items → ∃ dir files, job.stagingDir = some dir ∧
        ⟨.store (.plannedFiles job.id), .ok files⟩ ∈ seen' ∧ items = ⟨inspectionItems dir files⟩ := by
  unfold stagingPlan
  split
  · rename_i hnone
    exact ⟨⟨[], (List.append_nil _).symm⟩, fun _ => .inl hnone, by nofun⟩
  · rename_i dir hdir
    refine M.obeys_store trivial fun r seen' hn => ?_
    subst hn
    split
    · rename_i error
      exact ⟨⟨_, rfl⟩, fun _ => .inr (.inr ⟨error, by simp⟩), by nofun⟩
    · exact ⟨⟨_, rfl⟩, fun _ => .inr (.inl (by simp)), by nofun⟩
    · rename_i files _
      refine ⟨⟨_, rfl⟩, by nofun, fun items hitems => ⟨dir, files, hdir, by simp, ?_⟩⟩
      exact (Option.some.inj hitems).symm

theorem realityBackedTarget_traced : (realityBackedTarget job starting).Obeys (tracing Call Ans) []
    (Backed job starting) := by
  refine clientBackedTarget_traced.bind fun target seen ⟨hback, hclient⟩ => ?_
  unfold stagingBackedTarget
  split_ifs with hrank
  · refine stagingPlan_traced.bind fun plan seen' ⟨⟨more, hmore⟩, hnone, hsome⟩ => ?_
    subst hmore
    split
    · exact ⟨hback, fun hle => (hclient hle).append more, fun _ => .inl (hnone rfl)⟩
    · rename_i items _
      obtain ⟨dir, files, hdir, hfiles, rfl⟩ := hsome items rfl
      refine M.obeys_staging trivial fun r seen' hn => ?_
      subst hn
      have hseen : ∀ {x : Σ c, Ans c} (y : Σ c, Ans c), x ∈ seen ++ more → x ∈ seen ++ more ++ [y] :=
        fun y hx => List.mem_append_left [y] hx
      split
      · refine ⟨hback, fun hle => ((hclient hle).append more).append _, fun _ => ?_⟩
        exact .inr ⟨dir, files, hdir, hseen _ hfiles, .inl (by simp)⟩
      · rename_i error
        refine ⟨hback, fun hle => ((hclient hle).append more).append _, fun _ => ?_⟩
        exact .inr ⟨dir, files, hdir, hseen _ hfiles, .inr ⟨error, by simp⟩⟩
      · refine ⟨(earliest_le_left _ _).trans hback,
          fun hle => ((hclient (hle.trans (earliest_le_left _ _))).append more).append _,
          fun hle => absurd (hle.trans (earliest_le_right _ _)) (by decide)⟩
  · exact ⟨hback, hclient, fun hle => absurd (hle.trans hback) hrank⟩

end

/-! ## Surroundings that do not change -/

/-- Answers of the client and the staging area, and the calls the database fails. -/
structure Surroundings where
  status : InfoHash → Except ClientError (Option TorrentStatus)
  inspect : MaterializationPlan → Except StagingError StagingPresence
  fails : StoreCall → Option String

namespace Surroundings

variable (e : Surroundings)

/-- Each call is answered the way it always is, at any time of the clock. -/
def rules : Rules Call Ans SqliteRepairStore where
  may _ _ := True
  next
    | .store c, r, s, s' => match e.fails c with
      | none => ∃ now, r = (s.answer now c).1 ∧ s' = (s.answer now c).2
      | some detail => r = c.fail (.database detail) ∧ s' = s
    | .client (.status h), r, s, s' => r = e.status h ∧ s' = s
    | .staging (.inspect plan), r, s, s' => r = e.inspect plan ∧ s' = s
    | _, _, s, s' => s' = s

/-- The client says it does not have the torrent of the job. -/
def gone (job : RepairJob) : Bool :=
  match job.infoHash with
  | none => false
  | some h => match e.status h with
    | .ok none => true
    | _ => false

/-- The staging plan of the job, as far as the database tells. -/
def plan (s : SqliteRepairStore) (job : RepairJob) : Option MaterializationPlan :=
  match job.stagingDir with
  | none => none
  | some dir => match e.fails (.plannedFiles job.id), s.plannedFiles job.id with
    | some _, _ | none, [] => none
    | none, files => some ⟨inspectionItems dir files⟩

/-- Staging says the planned files of the job are not all there. -/
def incomplete (s : SqliteRepairStore) (job : RepairJob) : Bool :=
  match e.plan s job with
  | none => false
  | some plan => match e.inspect plan with
    | .ok .complete | .error _ => false
    | .ok _ => true

end Surroundings

/-- How far back reality calls a job. -/
def reality (gone incomplete : Bool) (starting : RepairState) : RepairState :=
  let target := if gone ∧ reconcileRank .injected ≤ reconcileRank starting then
    earliest starting .staged else starting
  if incomplete ∧ reconcileRank .staged ≤ reconcileRank starting then earliest target .matched
  else target

/-- Reality calls a job back only once. -/
theorem reality_settled (gone incomplete : Bool) (starting : RepairState) :
    reality gone incomplete (reality gone incomplete starting) = reality gone incomplete starting := by
  cases gone <;> cases incomplete <;> cases starting <;> rfl

theorem reality_actionable {gone incomplete : Bool} {starting : RepairState}
    (h : starting.isActionable = true) : (reality gone incomplete starting).isActionable = true := by
  cases gone <;> cases incomplete <;> cases starting <;>
    first | rfl | exact nomatch h

/-- Walking an actionable job back is a transition the table allows. -/
theorem reality_legal {gone incomplete : Bool} {starting : RepairState}
    (h : starting.isActionable = true) (hne : reality gone incomplete starting ≠ starting)
    (reviewFrom : Option RepairState) :
    objection starting (reality gone incomplete starting) .reconciliation reviewFrom = none := by
  cases gone <;> cases incomplete <;> cases starting <;>
    first | rfl | (cases h; done) | exact absurd rfl hne

section
variable {e : Surroundings} {s : SqliteRepairStore} {job : RepairJob}

theorem clientBackedTarget_steady {starting : RepairState} :
    (clientBackedTarget job starting).Obeys e.rules s fun target s' => s' = s ∧
      target = if e.gone job ∧ reconcileRank .injected ≤ reconcileRank starting then
        earliest starting .staged else starting := by
  unfold clientBackedTarget
  by_cases hrank : reconcileRank .injected ≤ reconcileRank starting
  · rw [if_pos hrank]
    split
    · rename_i hnone
      exact ⟨rfl, by simp [Surroundings.gone, hnone]⟩
    · rename_i h hh
      refine M.obeys_client trivial fun r s' hn => ?_
      obtain ⟨rfl, rfl⟩ := hn
      split
      · rename_i hr
        exact ⟨rfl, by simp [Surroundings.gone, hh, hr, hrank]⟩
      · rename_i status hr
        exact ⟨rfl, by simp [Surroundings.gone, hh, hr]⟩
      · rename_i error hr
        exact ⟨rfl, by simp [Surroundings.gone, hh, hr]⟩
  · rw [if_neg hrank]
    exact ⟨rfl, by simp [hrank]⟩

/-- The answer of the store, and the store it leaves. -/
theorem Surroundings.store_next {c : StoreCall} {r : c.Ans} {s' : SqliteRepairStore}
    (hn : e.rules.next (.store c) r s s') :
    (e.fails c = none ∧ ∃ now, r = (s.answer now c).1 ∧ s' = (s.answer now c).2) ∨
      ∃ detail, e.fails c = some detail ∧ r = c.fail (.database detail) ∧ s' = s := by
  simp only [rules] at hn
  split at hn
  · rename_i hserved
    exact .inl ⟨hserved, hn⟩
  · rename_i detail hfails
    exact .inr ⟨detail, hfails, hn⟩

theorem stagingPlan_steady :
    (stagingPlan job).Obeys e.rules s fun plan s' => s' = s ∧ plan = e.plan s job := by
  unfold stagingPlan
  split
  · rename_i hnone
    exact ⟨rfl, by simp [Surroundings.plan, hnone]⟩
  · rename_i dir hdir
    refine M.obeys_store trivial fun r s' hn => ?_
    rcases Surroundings.store_next hn with ⟨hserved, now, rfl, rfl⟩ | ⟨detail, hfails, rfl, rfl⟩
    · simp only [answer]
      split
      · rename_i h
        cases h
      · rename_i h
        exact ⟨rfl, by simp [Surroundings.plan, hdir, hserved, Except.ok.inj h]⟩
      · rename_i files hne h
        cases files with
        | nil => exact absurd rfl hne
        | cons f files => exact ⟨rfl, by simp [Surroundings.plan, hdir, hserved, Except.ok.inj h]⟩
    · exact ⟨rfl, by simp [Surroundings.plan, hdir, hfails]⟩

/-- What reality supports, where it does not change. -/
theorem realityBackedTarget_steady {starting : RepairState} :
    (realityBackedTarget job starting).Obeys e.rules s fun target s' => s' = s ∧
      target = reality (e.gone job) (e.incomplete s job) starting := by
  refine clientBackedTarget_steady.bind fun target s' ⟨hs', htarget⟩ => ?_
  subst hs'
  unfold stagingBackedTarget
  split_ifs with hrank
  · refine stagingPlan_steady.bind fun plan s' ⟨hs', hplan⟩ => ?_
    subst hs'
    split
    · exact ⟨rfl, by simp [reality, Surroundings.incomplete, ← hplan, htarget]⟩
    · refine M.obeys_staging trivial fun r s' hn => ?_
      obtain ⟨rfl, rfl⟩ := hn
      split
      · rename_i hr
        exact ⟨rfl, by simp [reality, Surroundings.incomplete, ← hplan, hr, htarget]⟩
      · rename_i error hr
        exact ⟨rfl, by simp [reality, Surroundings.incomplete, ← hplan, hr, htarget]⟩
      · rename_i presence hcomplete hr
        have : e.incomplete s' job = true := by
          simp only [Surroundings.incomplete, ← hplan, hr]
        exact ⟨rfl, by simp [reality, this, hrank, htarget]⟩
  · exact ⟨rfl, by simp [reality, hrank, htarget]⟩

end

/-! ## One pass -/

/-- An action on a job that changes nothing, as long as the job and the plans are as they are. -/
def AtRest (e : Surroundings) (s : SqliteRepairStore) (action : RepairJob → M Bool) (job : RepairJob) :
    Prop :=
  ∀ s', s'.files = s.files → s'.job job.id = some job →
    (action job).Obeys e.rules s' fun moved s'' => moved = false ∧ s'' = s'

/-- One store has the plans of another, and the jobs other than those named. -/
structure Beside (ids : List JobId) (s s' : SqliteRepairStore) : Prop where
  files : s'.files = s.files
  others : ∀ k, k ∉ ids → s'.job k = s.job k

/-- An action on jobs of a kind touches the job alone, leaves it of that kind, and has then
    nothing more to do. -/
def SettlesJob (e : Surroundings) (kind : RepairJob → Prop) (action : RepairJob → M Bool) : Prop :=
  ∀ s job, s.job job.id = some job → kind job →
    (action job).Obeys e.rules s fun _ s' => Beside [job.id] s s' ∧
      ∃ job', s'.job job.id = some job' ∧ job'.id = job.id ∧ kind job' ∧ AtRest e s action job'

section
variable {e : Surroundings} {action : RepairJob → M Bool} {kind : RepairJob → Prop}

theorem AtRest.of_files {s s' : SqliteRepairStore} {job : RepairJob} (h : AtRest e s action job)
    (hfiles : s'.files = s.files) : AtRest e s' action job :=
  fun s'' hs'' hjob => h s'' (hs''.trans hfiles) hjob

theorem Beside.trans {ids ids' all : List JobId} {s₁ s₂ s₃ : SqliteRepairStore}
    (h : Beside ids s₁ s₂) (h' : Beside ids' s₂ s₃) (hids : ids ⊆ all) (hids' : ids' ⊆ all) :
    Beside all s₁ s₃ where
  files := h'.files.trans h.files
  others k hk := (h'.others k fun hm => hk (hids' hm)).trans (h.others k fun hm => hk (hids hm))

/-- A pass over jobs leaves nothing to do for any of them. -/
theorem countMoved_settles (h : SettlesJob e kind action) :
    ∀ (jobs : List RepairJob) (s : SqliteRepairStore), (jobs.map RepairJob.id).Nodup →
      (∀ job ∈ jobs, s.job job.id = some job ∧ kind job) →
      (countMoved action jobs).Obeys e.rules s fun _ s' => Beside (jobs.map RepairJob.id) s s' ∧
        ∀ job ∈ jobs, ∃ job', s'.job job.id = some job' ∧ job'.id = job.id ∧ kind job' ∧
          AtRest e s action job'
  | [], s, _, _ => ⟨⟨rfl, fun _ _ => rfl⟩, by simp⟩
  | job :: jobs, s, hnodup, hjobs => by
    obtain ⟨hfresh, hnodup⟩ := List.nodup_cons.1 hnodup
    obtain ⟨hjob, hkind⟩ := hjobs job (by simp)
    refine (h s job hjob hkind).bind fun moved s₁ ⟨hbeside, job', hjob', hid', hkind', hidle⟩ => ?_
    have hrest : ∀ other ∈ jobs, s₁.job other.id = some other ∧ kind other := by
      intro other hother
      obtain ⟨hsame, hother'⟩ := hjobs other (List.mem_cons_of_mem _ hother)
      refine ⟨(hbeside.others _ ?_).trans hsame, hother'⟩
      rw [List.mem_singleton]
      rintro heq
      exact hfresh (heq ▸ List.mem_map_of_mem hother)
    refine (countMoved_settles h jobs s₁ hnodup hrest).bind fun rest s₂ ⟨hbeside₂, hall⟩ => ?_
    refine ⟨hbeside.trans hbeside₂ (by simp) (by simp), fun other hother => ?_⟩
    rcases List.mem_cons.1 hother with rfl | hother
    · exact ⟨job', (hbeside₂.others _ hfresh).trans hjob', hid', hkind', hidle⟩
    · obtain ⟨other', hother', hid, hk, hi⟩ := hall other hother
      exact ⟨other', hother', hid, hk, hi.of_files hbeside.files.symm⟩

/-- A pass over jobs with nothing to do counts none. -/
theorem countMoved_idle {s : SqliteRepairStore} :
    ∀ jobs : List RepairJob, (∀ job ∈ jobs, s.job job.id = some job ∧ AtRest e s action job) →
      (countMoved action jobs).Obeys e.rules s fun n s' => n = 0 ∧ s' = s
  | [], _ => ⟨rfl, rfl⟩
  | job :: jobs, hjobs => by
    obtain ⟨hjob, hidle⟩ := hjobs job (by simp)
    refine (hidle s rfl hjob).bind fun moved s₁ ⟨hmoved, hs₁⟩ => ?_
    subst hmoved hs₁
    have hrest := countMoved_idle jobs fun other hother => hjobs other (List.mem_cons_of_mem _ hother)
    exact hrest.bind fun n s₂ ⟨hn, hs₂⟩ => ⟨by simp [hn], hs₂⟩

end

/-! ## Both kinds of jobs -/

section
variable {e : Surroundings}

/-- Only the plans of the store matter for what staging says. -/
theorem Surroundings.incomplete_of_files {s s' : SqliteRepairStore} (job : RepairJob)
    (h : s'.files = s.files) : e.incomplete s' job = e.incomplete s job := by
  have hplanned : s'.plannedFiles job.id = s.plannedFiles job.id := by
    simp only [plannedFiles, fileRows, h]
  simp only [incomplete, plan, hplanned]

/-- What is written with a job that is walked back. -/
def walkedBack (job : RepairJob) (target : RepairState) : TransitionUpdate :=
  .withDetail (.obj [("reason", .str "external state was behind the persisted state"),
    ("from", .str job.state.asStr), ("to", .str target.asStr)])

/-- A job is left alone where reality does not call it back, or the database fails the move. -/
theorem reconcileActionableJob_idle {s : SqliteRepairStore} {job : RepairJob} {target : RepairState}
    (htarget : target = reality (e.gone job) (e.incomplete s job) job.state)
    (h : target ≠ job.state → ∀ t, job.planTransition target .reconciliation = .ok t →
      e.fails (.apply job.id t (walkedBack job target)) ≠ none) :
    AtRest e s reconcileActionableJob job := by
  intro s' hfiles hjob
  refine realityBackedTarget_steady.bind fun target' s₁ ⟨hs₁, htarget'⟩ => ?_
  subst hs₁
  rw [e.incomplete_of_files job hfiles, ← htarget] at htarget'
  subst htarget'
  split_ifs with hsame
  · exact ⟨rfl, rfl⟩
  · split
    · exact ⟨rfl, rfl⟩
    · rename_i t ht
      refine M.obeys_store trivial fun r s₂ hn => ?_
      rcases Surroundings.store_next hn with ⟨hserved, -⟩ | ⟨detail, -, hr, hs₂⟩
      · exact absurd hserved (h hsame t ht)
      · subst hr hs₂
        exact ⟨rfl, rfl⟩

theorem reconcileActionableJob_settles :
    SettlesJob e (fun job => job.state.isActionable = true) reconcileActionableJob := by
  intro s job hjob hactionable
  refine realityBackedTarget_steady.bind fun target s₁ ⟨hs₁, htarget⟩ => ?_
  subst hs₁
  split_ifs with hsame
  · exact ⟨⟨rfl, fun _ _ => rfl⟩, job, hjob, rfl, hactionable,
      reconcileActionableJob_idle htarget fun hne => absurd hsame hne⟩
  · have hlegal := reality_legal hactionable (htarget ▸ hsame) job.reviewFromState
    rw [← htarget] at hlegal
    split
    · rename_i error hplan
      cases (validateTransition_of_legal hlegal).symm.trans hplan
    · rename_i t hplan
      obtain ⟨hfrom, hto, -, -⟩ := validateTransition_ok hplan
      obtain ⟨r, hr, rfl⟩ := Option.map_eq_some_iff.1 hjob
      refine M.obeys_store trivial fun reply s₂ hn => ?_
      rcases Surroundings.store_next hn with ⟨-, now, hreply, hs₂⟩ | ⟨detail, hfails, ha, hs₂⟩
      · obtain ⟨s', hs'⟩ : ∃ s', s₁.apply now (readJob r).id t (walkedBack (readJob r) target) =
            .ok (.applied, s') := (apply_applied_iff hr hfrom.symm).2 (by rintro _ ⟨⟩)
        have hfiles : s'.files = s₁.files := apply_applied_files hs' rfl rfl
        have hserved := answer_applied hs'
        rw [show reply = _ from hreply.trans (congrArg Prod.fst hserved)]
        rw [show s₂ = s' from hs₂.trans (congrArg Prod.snd hserved)]
        have hmoved : movedRow (readJob r).id t (walkedBack (readJob r) target) (timestamp now) r =
            patchRow .default (timestamp now) (transitionRow t none (timestamp now) r) := if_pos rfl
        have hjob' := job_apply hs' (readJob r).id
        rw [hr, Option.map_some, hmoved] at hjob'
        refine ⟨⟨hfiles, fun k hk => ?_⟩, _, hjob', rfl, ?_, ?_⟩
        · rw [job_apply hs', SqliteRepairStore.job]
          refine Option.map_congr fun other hother => ?_
          rw [movedRow, if_neg]
          exact fun hid => hk (by simp [← hid, (Table.get?_some hother).2])
        · show t.toState.isActionable = true
          rw [hto, htarget]
          exact reality_actionable hactionable
        · have hsettled : t.toState =
              reality (e.gone (readJob r)) (e.incomplete s₁ (readJob r)) t.toState := by
            rw [hto, htarget, reality_settled]
          exact reconcileActionableJob_idle hsettled fun hne => absurd rfl hne
      · subst ha hs₂
        refine ⟨⟨rfl, fun _ _ => rfl⟩, _, hjob, rfl, hactionable,
          reconcileActionableJob_idle htarget fun _ t' ht' => ?_⟩
        obtain rfl : t = t' := Except.ok.inj (hplan.symm.trans ht')
        exact fun h => absurd (hfails.symm.trans h) (by simp)

/-- A resume point is left alone where reality does not call it back, or the database fails
    the correction. -/
theorem reconcileParkedJob_idle {s : SqliteRepairStore} {job : RepairJob}
    {starting target : RepairState} (hstarting : job.reviewFromState = some starting)
    (htarget : target = reality (e.gone job) (e.incomplete s job) starting)
    (h : target ≠ starting → e.fails (.setReviewResumePoint job.id target) ≠ none) :
    AtRest e s reconcileParkedJob job := by
  intro s' hfiles hjob
  unfold reconcileParkedJob
  rw [hstarting]
  refine realityBackedTarget_steady.bind fun target' s₁ ⟨hs₁, htarget'⟩ => ?_
  subst hs₁
  rw [e.incomplete_of_files job hfiles, ← htarget] at htarget'
  subst htarget'
  split_ifs with hsame
  · exact ⟨rfl, rfl⟩
  · refine M.obeys_store trivial fun r s₂ hn => ?_
    rcases Surroundings.store_next hn with ⟨hserved, -⟩ | ⟨detail, -, hr, hs₂⟩
    · exact absurd hserved (h hsame)
    · subst hr hs₂
      exact ⟨rfl, rfl⟩

theorem reconcileParkedJob_settles :
    SettlesJob e (fun job => job.state = .awaitingReview) reconcileParkedJob := by
  intro s job hjob hparked
  rw [reconcileParkedJob]
  split
  · rename_i hnone
    refine ⟨⟨rfl, fun _ _ => rfl⟩, job, hjob, rfl, hparked, fun s' _ _ => ?_⟩
    rw [reconcileParkedJob, hnone]
    exact ⟨rfl, rfl⟩
  · rename_i starting hstarting
    refine realityBackedTarget_steady.bind fun target s₁ ⟨hs₁, htarget⟩ => ?_
    subst hs₁
    split_ifs with hsame
    · exact ⟨⟨rfl, fun _ _ => rfl⟩, job, hjob, rfl, hparked,
        reconcileParkedJob_idle hstarting htarget fun hne => absurd hsame hne⟩
    · obtain ⟨r, hr, rfl⟩ := Option.map_eq_some_iff.1 hjob
      refine M.obeys_store trivial fun reply s₂ hn => ?_
      rcases Surroundings.store_next hn with ⟨-, now, hreply, hs₂⟩ | ⟨detail, hfails, ha, hs₂⟩
      · obtain ⟨row, hserved⟩ : ∃ row, s₁.answer now (.setReviewResumePoint (readJob r).id target) =
            (.ok (), (s₁.moveResumePoint (timestamp now) (readJob r).id target).appendTransition row) :=
          answer_repointed hr hparked hstarting (Ne.symm hsame)
        rw [show reply = _ from hreply.trans (congrArg Prod.fst hserved)]
        rw [show s₂ = _ from hs₂.trans (congrArg Prod.snd hserved)]
        have hjob' := job_repoint (s := s₁) (timestamp now) (readJob r).id target row (readJob r).id
        rw [hr, Option.map_some, if_pos (show r.id = (readJob r).id from rfl)] at hjob'
        refine ⟨⟨rfl, fun k hk => ?_⟩, _, hjob', rfl, hparked, ?_⟩
        · rw [job_repoint, SqliteRepairStore.job]
          refine Option.map_congr fun other hother => ?_
          rw [if_neg]
          exact fun hid => hk (by simp [← hid, (Table.get?_some hother).2])
        · have hsettled :
              target = reality (e.gone (readJob r)) (e.incomplete s₁ (readJob r)) target := by
            rw [htarget, reality_settled]
          exact reconcileParkedJob_idle rfl hsettled fun hne => absurd rfl hne
      · subst ha hs₂
        refine ⟨⟨rfl, fun _ _ => rfl⟩, _, hjob, rfl, hparked,
          reconcileParkedJob_idle hstarting htarget fun _ h => ?_⟩
        exact absurd (hfails.symm.trans h) (by simp)

/-- Nothing is left for a pass to do. -/
structure Still (e : Surroundings) (s : SqliteRepairStore) : Prop where
  unfinished : e.fails .unfinished = none → ∀ job ∈ s.unfinished, AtRest e s reconcileActionableJob job
  parked : e.fails .unfinished = none → e.fails .parked = none →
    ∀ job ∈ s.parked, AtRest e s reconcileParkedJob job

theorem Still.of_same {s s' : SqliteRepairStore} (h : Still e s) (hfiles : s'.files = s.files)
    (hjobs : ∀ k, s'.job k = s.job k) : Still e s' where
  unfinished hserved job hjob := by
    rw [mem_unfinished, hjobs, ← mem_unfinished] at hjob
    exact (h.unfinished hserved job hjob).of_files hfiles
  parked hserved hserved' job hjob := by
    rw [mem_parked, hjobs, ← mem_parked] at hjob
    exact (h.parked hserved hserved' job hjob).of_files hfiles

theorem listParked_steady {s : SqliteRepairStore} :
    listParked.Obeys e.rules s fun jobs s' => s' = s ∧
      ((e.fails .parked = none ∧ jobs = s.parked) ∨ ((e.fails .parked).isSome ∧ jobs = [])) := by
  refine M.obeys_store trivial fun r s' hn => ?_
  rcases Surroundings.store_next hn with ⟨hserved, now, rfl, rfl⟩ | ⟨detail, hfails, rfl, rfl⟩
  · exact ⟨rfl, .inl ⟨hserved, rfl⟩⟩
  · exact ⟨rfl, .inr ⟨by simp [hfails], rfl⟩⟩

/-- After a pass over the jobs of a kind every job of the kind is idle. -/
theorem idle_of_pass {kind : RepairJob → Prop} {action : RepairJob → M Bool} {jobs : List RepairJob}
    {s s' : SqliteRepairStore} (hall : ∀ job, s.job job.id = some job → kind job → job ∈ jobs)
    (hbeside : Beside (jobs.map RepairJob.id) s s')
    (hidle : ∀ job ∈ jobs, ∃ job', s'.job job.id = some job' ∧ job'.id = job.id ∧ kind job' ∧
      AtRest e s action job') {job : RepairJob} (hjob : s'.job job.id = some job) (hkind : kind job) :
    AtRest e s action job := by
  by_cases hid : job.id ∈ jobs.map RepairJob.id
  · obtain ⟨old, hold, hsame⟩ := List.mem_map.1 hid
    obtain ⟨job', hjob', -, -, hidle'⟩ := hidle old hold
    rw [hsame, hjob] at hjob'
    exact Option.some.inj hjob' ▸ hidle'
  · rw [hbeside.others _ hid] at hjob
    exact absurd (List.mem_map_of_mem (hall job hjob hkind)) hid

/-- One pass leaves nothing to do. -/
theorem reconcileAfter_settles {s : SqliteRepairStore} (cleared : ℕ) :
    (reconcileAfter cleared).Obeys e.rules s fun _ s' => Still e s' := by
  refine M.obeys_store trivial fun r s₁ hn => ?_
  rcases Surroundings.store_next hn with ⟨hserved, now, hr, hs₁⟩ | ⟨detail, hfails, hr, hs₁⟩
  · subst hr hs₁
    refine (countMoved_settles reconcileActionableJob_settles s₁.unfinished s₁ (nodup_listed _ _)
      fun job => mem_unfinished.1).bind fun rewound s₂ ⟨hbeside, hidle⟩ => ?_
    have hunfinished : ∀ job, s₂.job job.id = some job → job.state.isActionable = true →
        AtRest e s₁ reconcileActionableJob job := fun job =>
      idle_of_pass (fun job hjob hkind => mem_unfinished.2 ⟨hjob, hkind⟩) hbeside hidle
    refine listParked_steady.bind fun parked s₃ ⟨hs₃, hparked⟩ => ?_
    subst hs₃
    have hend : ∀ corrected s₄, Still e s₄ → (do
        let now ← M.now
        M.publish (.activity { Activity.default with
          kind := .reconcile, time := some now, rewound := rewound })
        pure (⟨cleared, s₁.unfinished.length, rewound, parked.length, corrected⟩ :
          ReconcileSummary)).Obeys e.rules s₄ fun _ s' => Still e s' := by
      intro corrected s₄ hstill
      refine M.obeys_now trivial fun now' s₅ hs₅ => ?_
      refine M.obeys_publish trivial fun s₆ hs₆ => ?_
      rw [show s₆ = s₄ from hs₆.trans hs₅]
      exact hstill
    rcases hparked with ⟨hserved', rfl⟩ | ⟨hfails, rfl⟩
    · refine (countMoved_settles reconcileParkedJob_settles s₃.parked s₃ (nodup_listed _ _)
        fun job => mem_parked.1).bind fun corrected s₄ ⟨hbeside', hidle'⟩ => hend _ _ ?_
      refine ⟨fun _ job hjob => ?_, fun _ _ job hjob => ?_⟩
      · obtain ⟨hjob, hactionable⟩ := mem_unfinished.1 hjob
        -- the second half leaves jobs parked, so it has not touched this one
        have hid : job.id ∉ s₃.parked.map RepairJob.id := by
          intro hid
          obtain ⟨old, hold, hsame⟩ := List.mem_map.1 hid
          obtain ⟨job', hjob', -, hparked, -⟩ := hidle' old hold
          rw [hsame, hjob] at hjob'
          rw [Option.some.inj hjob', hparked] at hactionable
          cases hactionable
        rw [hbeside'.others _ hid] at hjob
        exact (hunfinished job hjob hactionable).of_files (hbeside'.files.trans hbeside.files)
      · obtain ⟨hjob, hparked⟩ := mem_parked.1 hjob
        exact (idle_of_pass (fun job hjob hkind => mem_parked.2 ⟨hjob, hkind⟩) hbeside' hidle' hjob
          hparked).of_files hbeside'.files
    · refine hend 0 s₃ ⟨fun _ job hjob => ?_, fun _ h => by simp [h] at hfails⟩
      obtain ⟨hjob, hactionable⟩ := mem_unfinished.1 hjob
      exact (hunfinished job hjob hactionable).of_files hbeside.files
  · subst hr hs₁
    exact ⟨fun h => absurd (hfails.symm.trans h) (by simp),
      fun h => absurd (hfails.symm.trans h) (by simp)⟩

/-- A pass with nothing to do changes nothing. -/
theorem reconcileAfter_still {s : SqliteRepairStore} (h : Still e s) (cleared : ℕ) :
    (reconcileAfter cleared).Obeys e.rules s fun summary s' =>
      summary.jobsRewound = 0 ∧ summary.parkedCorrected = 0 ∧ s' = s := by
  refine M.obeys_store trivial fun r s₁ hn => ?_
  rcases Surroundings.store_next hn with ⟨hserved, now, hr, hs₁⟩ | ⟨detail, -, hr, hs₁⟩
  · subst hr hs₁
    have hunfinished := countMoved_idle (e := e) s₁.unfinished fun job hjob =>
      ⟨(mem_unfinished.1 hjob).1, h.unfinished hserved job hjob⟩
    refine hunfinished.bind fun rewound s₁ ⟨hrewound, hs₁⟩ => ?_
    subst hrewound hs₁
    refine listParked_steady.bind fun parked s₂ ⟨hs₂, hlisted⟩ => ?_
    subst hs₂
    have hparked : ∀ job ∈ parked, s₂.job job.id = some job ∧ AtRest e s₂ reconcileParkedJob job := by
      rcases hlisted with ⟨hserved', rfl⟩ | ⟨-, rfl⟩
      · exact fun job hjob => ⟨(mem_parked.1 hjob).1, h.parked hserved hserved' job hjob⟩
      · simp
    refine (countMoved_idle parked hparked).bind fun corrected s₃ ⟨hcorrected, hs₃⟩ => ?_
    subst hcorrected hs₃
    refine M.obeys_now trivial fun now' s₄ hs₄ => ?_
    exact M.obeys_publish trivial fun s₅ hs₅ => ⟨rfl, rfl, hs₅.trans hs₄⟩
  · subst hr hs₁
    exact ⟨rfl, rfl, rfl⟩

/-- Dropping leases changes no job. -/
theorem reconcileOnStartup_obeys {owner : String} {s : SqliteRepairStore}
    {Q : ReconcileSummary → SqliteRepairStore → Prop}
    (h : ∀ cleared s', s'.files = s.files → (∀ k, s'.job k = s.job k) →
      (reconcileAfter cleared).Obeys e.rules s' Q) :
    (reconcileOnStartup owner).Obeys e.rules s Q := by
  refine M.obeys_store trivial fun r s₁ hn => ?_
  rcases Surroundings.store_next hn with ⟨-, now, rfl, rfl⟩ | ⟨detail, -, rfl, rfl⟩
  · refine h _ _ rfl fun k => ?_
    rw [SqliteRepairStore.job, SqliteRepairStore.job, answer, clearStaleLeases]
    simp only [Table.get?_update, Option.map_map]
    exact Option.map_congr fun r _ => by simp only [Function.comp]; split_ifs <;> rfl
  · exact h 0 s₁ rfl fun k => rfl

end

/-- Reconciliation only ever walks back, keeps what reality backs, and where nothing changes a
    second pass finds nothing to do. -/
theorem reconciliation_settles :
    (∀ job starting, (realityBackedTarget job starting).Obeys (tracing Call Ans) []
      (Backed job starting)) ∧
    ∀ (e : Surroundings) (owner owner' : String) (s : SqliteRepairStore),
      (reconcileOnStartup owner).Obeys e.rules s fun _ s₁ =>
        (reconcileOnStartup owner').Obeys e.rules s₁ fun summary s₂ =>
          summary.jobsRewound = 0 ∧ summary.parkedCorrected = 0 ∧ ∀ k, s₂.job k = s₁.job k := by
  refine ⟨fun job starting => realityBackedTarget_traced, fun e owner owner' s => ?_⟩
  refine reconcileOnStartup_obeys fun cleared s' _ _ => ?_
  refine (reconcileAfter_settles cleared).mono fun _ s₁ hstill => ?_
  refine reconcileOnStartup_obeys fun cleared' s₂ hfiles hjobs => ?_
  refine (reconcileAfter_still (hstill.of_same hfiles hjobs) cleared').mono ?_
  rintro summary s₃ ⟨hrewound, hcorrected, rfl⟩
  exact ⟨hrewound, hcorrected, hjobs⟩

end SeedMedic
