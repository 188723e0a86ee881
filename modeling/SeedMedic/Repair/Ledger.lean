/-
  Runs of the store: what any sequence of its statements makes of the jobs and of
  their audit trail.
-/
import SeedMedic.Repair.Serve
import Mathlib.Data.List.Chain
import Mathlib.Logic.Relation

namespace SeedMedic

open Lib

/-! ## Runs -/

/-- Something that happens to the store. -/
inductive StoreEvent where
  | discovered (h : HitAndRun)
  | called (c : StoreCall)

/-- The store an event leaves; an error leaves everything as it was. -/
def StoreEvent.run (now : Time) (s : SqliteRepairStore) : StoreEvent → SqliteRepairStore
  | .discovered h =>
    match s.recordDiscovery now h with
    | .ok (_, s') => s'
    | .error _ => s
  | .called c => (s.answer now c).2

/-- The store with what its past is asked about later. -/
structure Ledger where
  store : SqliteRepairStore
  /-- Every version of a job the store ever held. -/
  versions : Set RepairJob
  /-- The audit trail, each row with the event that wrote it. -/
  written : List (StoreEvent × TransitionRow)

namespace Ledger

/-- The ledger of a store after the migrations. -/
def new : Ledger := ⟨.new, ∅, []⟩

/-- The ledger once an event has left a store. -/
def record (w : Ledger) (e : StoreEvent) (s : SqliteRepairStore) : Ledger where
  store := s
  versions := w.versions ∪ {job | ∃ r ∈ s.jobs.rows, job = readJob r}
  written := w.written ++ (s.transitions.drop w.store.transitions.length).map fun row => (e, row)

/-- The ledger after an event. -/
def after (w : Ledger) (now : Time) (e : StoreEvent) : Ledger := w.record e (e.run now w.store)

/-- One event that meets a condition on the ledger it happens in. -/
def Step (ok : Ledger → StoreEvent → Prop) (w w' : Ledger) : Prop :=
  ∃ now e, ok w e ∧ w' = w.after now e

/-- A run of events that all meet the condition. -/
def Run (ok : Ledger → StoreEvent → Prop) : Ledger → Ledger → Prop := Relation.ReflTransGen (Step ok)

/-- What an event may ask of the store: a transition is planned for some version of the job,
    and a resume point is moved to no later state than the one recorded. -/
def Planned (w : Ledger) : StoreEvent → Prop
  | .called (.apply id t _) =>
    ∃ job ∈ w.versions, job.id = id ∧ ∃ dst reason, job.planTransition dst reason = .ok t
  | .called (.setReviewResumePoint id state) => ∀ r previous, w.store.jobs.get? id = some r →
      r.reviewFromState = some previous → ∃ m n, state.rank = some m ∧ previous.rank = some n ∧ m ≤ n
  | _ => True

/-- A reconciliation that finds the job completed. -/
def Reopens (w : Ledger) : StoreEvent → Prop
  | .called (.apply id t _) => t.reason = .reconciliation ∧ t.fromState = .completed ∧
      ∃ r, w.store.jobs.get? id = some r ∧ r.state = .completed
  | _ => False

/-- Planned events of which none reopens a job. -/
def Closed (w : Ledger) (e : StoreEvent) : Prop := w.Planned e ∧ ¬w.Reopens e

/-! ## Walks along the lifecycle -/

variable {w w' : Ledger} {now : Time} {e : StoreEvent} {ok : Ledger → StoreEvent → Prop}

/-- A run under a condition is one under a weaker condition. -/
theorem Run.weaken {ok' : Ledger → StoreEvent → Prop} (h : Run ok w w')
    (hok : ∀ w e, ok w e → ok' w e) : Run ok' w w' := by
  induction h with
  | refl => exact .refl
  | tail _ hstep ih =>
    obtain ⟨now, e, he, rfl⟩ := hstep
    exact ih.tail ⟨now, e, hok _ _ he, rfl⟩

/-- A ledger with one job just discovered. -/
def discovered : Ledger := new.after 0 (.discovered ⟨⟨"tracker"⟩, ⟨"7"⟩, "show", none, 10, none⟩)

/-- A transition planned for the job as it is, and applied. -/
def move (w : Ledger) (dst : RepairState) (reason : TransitionReason) : Ledger :=
  match w.store.job ⟨1⟩ with
  | none => w
  | some job =>
    match job.planTransition dst reason with
    | .error _ => w
    | .ok t => w.after 0 (.called (.apply ⟨1⟩ t .default))

/-- The job of a ledger is among its versions. -/
def Current (w : Ledger) : Prop := ∀ r ∈ w.store.jobs.rows, readJob r ∈ w.versions

theorem current_after : (w.after now e).Current := fun r hr => .inr ⟨r, hr, rfl⟩

/-- A move is a planned event. -/
theorem run_move {dst : RepairState} {reason : TransitionReason}
    (hok : ∀ w id t u, w.Planned (.called (.apply id t u)) → t.reason = reason →
      ok w (.called (.apply id t u)))
    (hcurrent : w.Current) : Run ok w (w.move dst reason) ∧ (w.move dst reason).Current := by
  unfold move
  split
  · exact ⟨.refl, hcurrent⟩
  · rename_i job hjob
    split
    · exact ⟨.refl, hcurrent⟩
    · rename_i t ht
      obtain ⟨r, hr, rfl⟩ := Option.map_eq_some_iff.1 hjob
      obtain ⟨hmem, hid⟩ := Table.get?_some hr
      have hplanned : w.Planned (.called (.apply ⟨1⟩ t .default)) :=
        ⟨readJob r, hcurrent r hmem, hid, dst, reason, ht⟩
      exact ⟨.single ⟨0, _, hok w _ _ _ hplanned (validateTransition_ok ht).2.2.1, rfl⟩,
        current_after⟩

/-- The job walked along the lifecycle by as many steps as there are states. -/
def walk : List RepairState → Ledger → Ledger
  | [], w => w
  | dst :: rest, w => walk rest (w.move dst .progress)

theorem run_walk
    (hok : ∀ w id t u, w.Planned (.called (.apply id t u)) → t.reason = .progress →
      ok w (.called (.apply id t u))) :
    ∀ (path : List RepairState) {w : Ledger}, w.Current → Run ok w (walk path w) ∧ (walk path w).Current
  | [], _, hcurrent => ⟨.refl, hcurrent⟩
  | _ :: rest, _, hcurrent => by
    obtain ⟨hrun, hcurrent'⟩ := run_move hok hcurrent
    obtain ⟨hrest, hlast⟩ := run_walk hok rest hcurrent'
    exact ⟨hrun.trans hrest, hlast⟩

/-- The job when it has completed. -/
def completedLedger : Ledger := walk RepairState.PROGRESSION.tail discovered

theorem walk_completed : Run Closed discovered completedLedger ∧ completedLedger.Current :=
  run_walk (fun _ _ _ _ h hr => ⟨h, fun hc => nomatch hr.symm.trans hc.1⟩) _ current_after

theorem run_completed : Run Closed new completedLedger :=
  .head ⟨0, .discovered _, ⟨trivial, id⟩, rfl⟩ walk_completed.1

theorem current_completed : completedLedger.Current := walk_completed.2

end Ledger

/-! ## What an event does -/

section
variable {s s' : SqliteRepairStore} {now : Time} {e : StoreEvent}

/-- Everything an event can do to the jobs and the trail. -/
inductive StoreEvent.Did (now : Time) (s : SqliteRepairStore) : StoreEvent → SqliteRepairStore → Prop
  | opened {h : HitAndRun} {s' : SqliteRepairStore} {id : JobId} {row : TransitionRow}
      (free : s.jobs.get? id = none) (trail : s'.transitions = s.transitions ++ [row])
      (first : SqliteRepairStore.DiscoveredRow id (timestamp now) row)
      (rows : ∀ k, s'.jobs.get? k =
        if id = k then some (discoveredRow id (timestamp now) h) else s.jobs.get? k) :
    Did now s (.discovered h) s'
  | wrote {c : StoreCall} {s' : SqliteRepairStore} (h : s.Wrote now c s') : Did now s (.called c) s'
  | nothing {e : StoreEvent} : Did now s e s

theorem StoreEvent.run_did (e : StoreEvent) (now : Time) (s : SqliteRepairStore) : e.Did now s (e.run now s) := by
  cases e with
  | called c => exact .wrote (SqliteRepairStore.answer_wrote now c)
  | discovered h =>
    cases hd : s.recordDiscovery now h with
    | error e =>
      simp only [StoreEvent.run, hd]
      exact .nothing
    | ok r =>
      obtain ⟨d, s'⟩ := r
      simp only [StoreEvent.run, hd]
      rcases SqliteRepairStore.recordDiscovery_cases hd with rfl | ⟨id, row, hfree, htrail, hfirst, hrows⟩
      · exact .nothing
      · exact .opened hfree htrail hfirst hrows

/-- No statement takes a job away. -/
theorem SqliteRepairStore.answer_keeps {c : StoreCall} {k : JobId} {r : JobRow}
    (hr : s.jobs.get? k = some r) : ∃ r', (s.answer now c).2.jobs.get? k = some r' := by
  have hmap : ∀ {s' : SqliteRepairStore} {f : JobRow → JobRow},
      s'.jobs.get? k = (s.jobs.get? k).map f → ∃ r', s'.jobs.get? k = some r' := by
    intro s' f h
    exact ⟨f r, by rw [h, hr]; rfl⟩
  have hupdate : ∀ {s' : SqliteRepairStore} {p : JobRow → Bool} {f : JobRow → JobRow},
      s'.jobs.rows = s.jobs.rows.map (fun r => if p r then f r else r) → (∀ r, (f r).id = r.id) →
        ∃ r', s'.jobs.get? k = some r' := by
    intro s' p f h hf
    exact hmap (get?_of_rows_map (fun r => by split_ifs <;> simp [hf]) h k)
  cases c with
  | apply id t u =>
    simp only [answer]
    cases ha : s.apply now id t u with
    | error e => exact ⟨r, hr⟩
    | ok p =>
      obtain ⟨a, s'⟩ := p
      obtain ⟨-, -, ⟨rfl, -⟩ | ⟨-, -, -, rfl⟩⟩ := apply_ok ha
      · exact hmap (apply_applied_get ha k)
      · exact ⟨r, hr⟩
  | setReviewResumePoint id state =>
    simp only [answer]
    cases ha : s.setReviewResumePoint now id state with
    | error e => exact ⟨r, hr⟩
    | ok s' =>
      rcases setReviewResumePoint_cases ha with rfl | ⟨_, _, _, -, -, -, rfl⟩
      · exact ⟨r, hr⟩
      · exact hmap (moveResumePoint_get state k)
  | recordProgress id patch => exact hmap (updateJobFields_get patch k)
  | claim owner lease limit => exact hupdate rfl fun _ => rfl
  | release id retryAt countAttempt => exact hupdate rfl fun _ => rfl
  | renewLease id owner lease => exact hupdate rfl fun _ => rfl
  | clearStaleLeases owner => exact hupdate rfl fun _ => rfl
  | _ => exact ⟨r, hr⟩

theorem StoreEvent.run_keeps (e : StoreEvent) {k : JobId} {r : JobRow} (hr : s.jobs.get? k = some r) :
    ∃ r', (e.run now s).jobs.get? k = some r' := by
  cases e with
  | called c => exact SqliteRepairStore.answer_keeps hr
  | discovered h =>
    have hdid := (StoreEvent.discovered h).run_did now s
    generalize StoreEvent.run now s (.discovered h) = s' at hdid ⊢
    cases hdid with
    | opened free trail first rows =>
      rw [rows]
      split_ifs
      · exact ⟨_, rfl⟩
      · exact ⟨r, hr⟩
    | nothing => exact ⟨r, hr⟩

end

/-! ## The audit trail -/

/-- A correction of a resume point, which is no move of the job. -/
def StoreEvent.corrects : StoreEvent → Bool
  | .called (.setReviewResumePoint ..) => true
  | _ => false

namespace Ledger

variable {w w' : Ledger} {s : SqliteRepairStore} {now : Time} {e : StoreEvent}
  {ok : Ledger → StoreEvent → Prop}

/-- The rows of a job that record a move of it. -/
def moves (w : Ledger) (id : JobId) : List TransitionRow :=
  (w.written.filter fun p => p.2.jobId = id ∧ ¬p.1.corrects).map Prod.snd

/-- The moves of a job lead from its discovery, one to the next, to a state. -/
structure Leads (rows : List TransitionRow) (state : RepairState) : Prop where
  first : ∃ row rest, rows = row :: rest ∧ row.fromState = .discovered ∧ row.toState = .discovered
  linked : rows.IsChain fun a b => b.fromState = a.toState
  last : rows.getLast?.map TransitionRow.toState = some state

/-- A move from where the moves of a job lead. -/
theorem Leads.concat {rows : List TransitionRow} {state : RepairState} {row : TransitionRow}
    (h : Leads rows state) (hfrom : row.fromState = state) : Leads (rows ++ [row]) row.toState := by
  obtain ⟨⟨first, rest, rfl, hf, ht⟩, hlinked, hlast⟩ := h
  refine ⟨⟨first, rest ++ [row], rfl, hf, ht⟩, ?_, by rw [List.getLast?_concat]; rfl⟩
  rw [List.isChain_append]
  refine ⟨hlinked, List.isChain_singleton _, ?_⟩
  intro a ha b hb
  simp only [List.head?_cons, Option.mem_some_iff] at hb
  subst hb
  rw [Option.mem_def.1 ha] at hlast
  rw [hfrom]
  exact (Option.some.inj hlast).symm

/-- What holds of the trail as a whole. -/
structure Audited (w : Ledger) : Prop where
  trail : w.written.map Prod.snd = w.store.transitions
  leads : ∀ id r, w.store.jobs.get? id = some r → Leads (w.moves id) r.state
  absent : ∀ id, w.store.jobs.get? id = none → w.moves id = []

/-- An event that adds one row to the trail. -/
theorem record_concat {row : TransitionRow} (h : s.transitions = w.store.transitions ++ [row]) :
    (w.record e s).written = w.written ++ [(e, row)] := by
  simp [record, h]

theorem record_same (h : s.transitions = w.store.transitions) :
    (w.record e s).written = w.written := by
  simp [record, h]

theorem moves_concat {row : TransitionRow} (h : s.transitions = w.store.transitions ++ [row])
    (id : JobId) : (w.record e s).moves id =
      if row.jobId = id ∧ ¬e.corrects then w.moves id ++ [row] else w.moves id := by
  unfold moves
  rw [record_concat h, List.filter_append, List.map_append, List.filter_singleton]
  split_ifs with h
  · simp [h]
  · rcases not_and_or.1 h with h | h <;> simp [h]

theorem moves_same (h : s.transitions = w.store.transitions) (id : JobId) :
    (w.record e s).moves id = w.moves id := by
  unfold moves
  rw [record_same h]

theorem audited_new : new.Audited where
  trail := rfl
  leads _ r h := nomatch (show none = some r from h)
  absent _ _ := rfl

/-- A row added to the trail: a job's move from where its moves lead, its first one, or a
    correction. -/
theorem Audited.concat (h : w.Audited) {s : SqliteRepairStore} {row : TransitionRow}
    (htrail : s.transitions = w.store.transitions ++ [row])
    (hkeeps : ∀ k r, w.store.jobs.get? k = some r → ∃ r', s.jobs.get? k = some r')
    (hothers : ∀ k r', row.jobId ≠ k → s.jobs.get? k = some r' →
      ∃ r, w.store.jobs.get? k = some r ∧ r'.state = r.state)
    (hjob : ∃ r', s.jobs.get? row.jobId = some r' ∧
      ((e.corrects = true ∧ ∃ r, w.store.jobs.get? row.jobId = some r ∧ r'.state = r.state) ∨
        (e.corrects = false ∧ r'.state = row.toState ∧
          ((∃ r, w.store.jobs.get? row.jobId = some r ∧ r.state = row.fromState) ∨
            (w.store.jobs.get? row.jobId = none ∧ row.fromState = .discovered ∧
              row.toState = .discovered))))) :
    (w.record e s).Audited where
  trail := by rw [record_concat htrail, List.map_append, h.trail]; exact htrail.symm
  leads k r' hr' := by
    rw [moves_concat htrail]
    by_cases hk : row.jobId = k
    · subst hk
      obtain ⟨r₁, hr₁, hcase⟩ := hjob
      obtain rfl : r₁ = r' := Option.some.inj (hr₁.symm.trans hr')
      rcases hcase with ⟨hcorrects, r, hr, hstate⟩ | ⟨hcorrects, hto, hcase⟩
      · rw [if_neg (by simp [hcorrects]), hstate]
        exact h.leads _ r hr
      · rw [if_pos ⟨rfl, by simp [hcorrects]⟩, hto]
        rcases hcase with ⟨r, hr, hfrom⟩ | ⟨hnone, hfrom, hto'⟩
        · exact (h.leads _ r hr).concat hfrom.symm
        · rw [h.absent _ hnone]
          exact ⟨⟨row, [], rfl, hfrom, hto'⟩, List.isChain_singleton _, rfl⟩
    · obtain ⟨r, hr, hstate⟩ := hothers k r' hk hr'
      rw [if_neg fun hc => hk hc.1, hstate]
      exact h.leads k r hr
  absent k hnone := by
    have hk : row.jobId ≠ k := by
      rintro rfl
      obtain ⟨r', hr', -⟩ := hjob
      exact nomatch hnone.symm.trans hr'
    rw [moves_concat htrail, if_neg fun hc => hk hc.1]
    refine h.absent k ?_
    by_contra hsome
    obtain ⟨r, hr⟩ := Option.ne_none_iff_exists'.1 hsome
    obtain ⟨r', hr'⟩ := hkeeps k r hr
    exact nomatch hnone.symm.trans hr'

/-- A step that adds nothing to the trail and moves no job. -/
theorem Audited.same (h : w.Audited) {s : SqliteRepairStore}
    (htrail : s.transitions = w.store.transitions)
    (hkeeps : ∀ k r, w.store.jobs.get? k = some r → ∃ r', s.jobs.get? k = some r')
    (hrows : ∀ k r', s.jobs.get? k = some r' →
      ∃ r, w.store.jobs.get? k = some r ∧ r'.state = r.state) :
    (w.record e s).Audited where
  trail := by rw [record_same htrail]; exact h.trail.trans htrail.symm
  leads k r' hr' := by
    obtain ⟨r, hr, hstate⟩ := hrows k r' hr'
    rw [moves_same htrail, hstate]
    exact h.leads k r hr
  absent k hnone := by
    rw [moves_same htrail]
    refine h.absent k ?_
    by_contra hsome
    obtain ⟨r, hr⟩ := Option.ne_none_iff_exists'.1 hsome
    obtain ⟨r', hr'⟩ := hkeeps k r hr
    exact nomatch hnone.symm.trans hr'

/-- Every event keeps the trail in order. -/
theorem Audited.after (h : w.Audited) (now : Time) (e : StoreEvent) : (w.after now e).Audited := by
  have hkeeps : ∀ k r, w.store.jobs.get? k = some r →
    ∃ r', (e.run now w.store).jobs.get? k = some r' := fun k r hr => e.run_keeps hr
  have hdid := e.run_did now w.store
  unfold Ledger.after
  generalize e.run now w.store = s at hkeeps hdid ⊢
  cases hdid with
  | @opened hr s id row free trail first rows =>
    obtain ⟨detail, rfl⟩ := first
    refine h.concat trail hkeeps (fun k r' hk hr' => ?_)
      ⟨_, (rows id).trans (if_pos rfl), .inr ⟨rfl, rfl, .inr ⟨free, rfl, rfl⟩⟩⟩
    rw [rows, if_neg hk] at hr'
    exact ⟨r', hr', rfl⟩
  | @wrote c s hw =>
    cases hw with
    | @moved id t u r s found left applied =>
      have hget := SqliteRepairStore.apply_applied_get applied
      have hr' : s.jobs.get? id = some (SqliteRepairStore.movedRow id t u (timestamp now) r) := by
        rw [hget, found]
        rfl
      have hto : (SqliteRepairStore.movedRow id t u (timestamp now) r).state = t.toState := by
        rw [SqliteRepairStore.movedRow, if_pos (Table.get?_some found).2]
        rfl
      refine h.concat (SqliteRepairStore.apply_applied_transitions applied) hkeeps
        (fun k r' hk hr' => ?_) ⟨_, hr', .inr ⟨rfl, hto, .inl ⟨r, found, left⟩⟩⟩
      rw [hget] at hr'
      obtain ⟨r₀, hr₀, rfl⟩ := Option.map_eq_some_iff.1 hr'
      refine ⟨r₀, hr₀, ?_⟩
      have hid : r₀.id ≠ id := fun he => hk (he.symm.trans (Table.get?_some hr₀).2)
      rw [SqliteRepairStore.movedRow, if_neg hid]
    | @patched id patch =>
      refine h.same rfl hkeeps fun k r' hr' => ?_
      rw [SqliteRepairStore.recordProgress, SqliteRepairStore.updateJobFields_get] at hr'
      obtain ⟨r₀, hr₀, rfl⟩ := Option.map_eq_some_iff.1 hr'
      refine ⟨r₀, hr₀, ?_⟩
      split_ifs <;> rfl
    | @repointed id state previous r detail found parked recorded =>
      have hget : ∀ k r', ((w.store.moveResumePoint (timestamp now) id state).appendTransition
          ⟨id, previous, state, "reconciliation", some detail, timestamp now⟩).jobs.get? k = some r' →
            ∃ r, w.store.jobs.get? k = some r ∧ r'.state = r.state := by
        intro k r' hr'
        rw [SqliteRepairStore.appendTransition_jobs, SqliteRepairStore.moveResumePoint_get] at hr'
        obtain ⟨r₀, hr₀, rfl⟩ := Option.map_eq_some_iff.1 hr'
        refine ⟨r₀, hr₀, ?_⟩
        split_ifs <;> rfl
      obtain ⟨r', hr'⟩ := hkeeps id r found
      exact h.concat rfl hkeeps (fun k r' _ => hget k r') ⟨r', hr', .inl ⟨rfl, hget id r' hr'⟩⟩
    | rescheduled trail rows =>
      refine h.same trail hkeeps fun k r' hr' => ?_
      obtain ⟨r, hr, _, _, _, _, _, rfl⟩ := rows k r' hr'
      exact ⟨r, hr, rfl⟩
  | nothing => exact h.same rfl hkeeps fun k r' hr' => ⟨r', hr', rfl⟩

/-- Exactly one row was added to the trail: a job's move from one state to another. -/
def OneRow (s s' : SqliteRepairStore) (id : JobId) (src dst : RepairState) : Prop :=
  ∃ row, s'.transitions = s.transitions ++ [row] ∧ row.jobId = id ∧ row.fromState = src ∧
    row.toState = dst

theorem oneRow_of_applied {id : JobId} {t : Transition} {u : TransitionUpdate}
    {s s' : SqliteRepairStore} (h : s.apply now id t u = .ok (.applied, s')) :
    OneRow s s' id t.fromState t.toState :=
  ⟨_, SqliteRepairStore.apply_applied_transitions h, rfl, rfl, rfl⟩

/-- A job that is in another state after an event was moved there by exactly one row. -/
theorem oneRow_of_moved {k : JobId} {r r' : JobRow} (hr : s.jobs.get? k = some r)
    (hr' : (e.run now s).jobs.get? k = some r') (hne : r'.state ≠ r.state) :
    OneRow s (e.run now s) k r.state r'.state := by
  have hdid := e.run_did now s
  generalize e.run now s = s' at hr' hdid ⊢
  cases hdid with
  | @opened h s' id row free trail first rows =>
    rw [rows] at hr'
    split_ifs at hr' with hid
    · subst hid
      cases free.symm.trans hr
    · obtain rfl := Option.some.inj (hr.symm.trans hr')
      exact absurd rfl hne
  | @wrote c s' hw =>
    obtain ⟨r₀, hr₀, hchanged⟩ := hw.changed hr'
    obtain rfl := Option.some.inj (hr.symm.trans hr₀)
    cases hchanged with
    | @moved t u call left =>
      subst call
      cases hw with
      | moved found left' applied =>
        have hk : r.id = k := (Table.get?_some hr).2
        rw [left, ← hk]
        exact oneRow_of_applied applied
      | rescheduled trail rows =>
        obtain ⟨r₁, hr₁, _, _, _, _, _, heq⟩ := rows k _ hr'
        obtain rfl := Option.some.inj (hr.symm.trans hr₁)
        exact absurd (congrArg JobRow.state heq) hne
    | patched call => exact absurd rfl hne
    | repointed call parked recorded => exact absurd rfl hne
    | rescheduled h =>
      obtain ⟨_, _, _, _, _, rfl⟩ := h
      exact absurd rfl hne
  | nothing =>
    obtain rfl := Option.some.inj (hr.symm.trans hr')
    exact absurd rfl hne

/-- A job that an event brings into being opens its trail with exactly one row. -/
theorem oneRow_of_new {k : JobId} {r' : JobRow} (hr : s.jobs.get? k = none)
    (hr' : (e.run now s).jobs.get? k = some r') :
    r'.state = .discovered ∧ OneRow s (e.run now s) k .discovered .discovered := by
  have hdid := e.run_did now s
  generalize e.run now s = s' at hr' hdid ⊢
  cases hdid with
  | @opened h s' id row free trail first rows =>
    obtain ⟨detail, rfl⟩ := first
    rw [rows] at hr'
    split_ifs at hr' with hid
    · subst hid
      obtain rfl := Option.some.inj hr'
      exact ⟨rfl, _, trail, rfl, rfl, rfl⟩
    · cases hr.symm.trans hr'
  | @wrote c s' hw =>
    obtain ⟨r₀, hr₀, -⟩ := hw.changed hr'
    cases hr.symm.trans hr₀
  | nothing => cases hr.symm.trans hr'

theorem Audited.run (h : w.Audited) (hrun : Run ok w w') : w'.Audited := by
  induction hrun with
  | refl => exact h
  | tail _ hstep ih =>
    obtain ⟨now, e, -, rfl⟩ := hstep
    exact ih.after now e

/-- In every run of the store the trail is that of the jobs' moves: each move adds one row, a
    replay none, and the rows of a job, corrections of its resume point aside, lead from its
    discovery to the state it is in. -/
theorem trail_leads_to_state (hrun : Run (fun _ _ => True) new w) :
    (w.written.map Prod.snd = w.store.transitions ∧
      ∀ id r, w.store.jobs.get? id = some r → Leads (w.moves id) r.state) ∧
    (∀ (now : Time) (e : StoreEvent) k r', (e.run now w.store).jobs.get? k = some r' →
      match w.store.jobs.get? k with
      | some r => r'.state ≠ r.state → OneRow w.store (e.run now w.store) k r.state r'.state
      | none => r'.state = .discovered ∧
          OneRow w.store (e.run now w.store) k .discovered .discovered) ∧
    ∀ now id t u s', (w.store.apply now id t u = .ok (.applied, s') →
        OneRow w.store s' id t.fromState t.toState) ∧
      (w.store.apply now id t u = .ok (.alreadyInTargetState, s') → s' = w.store) := by
  have haudited := audited_new.run hrun
  refine ⟨⟨haudited.trail, haudited.leads⟩, fun now e k r' hr' => ?_,
    fun now id t u s' => ⟨oneRow_of_applied, fun h => ?_⟩⟩
  · split
    · rename_i r hr
      exact oneRow_of_moved hr hr'
    · rename_i hr
      exact oneRow_of_new hr hr'
  · obtain ⟨r, -, ⟨ha, -⟩ | ⟨-, -, -, hs⟩⟩ := SqliteRepairStore.apply_ok h
    · cases ha
    · exact hs

/-- The trail of a job that has completed. -/
theorem completed_trail : Leads (completedLedger.moves ⟨1⟩) .completed := by
  obtain ⟨r, hr, hstate⟩ : ∃ r, completedLedger.store.jobs.get? ⟨1⟩ = some r ∧
      r.state = .completed := Option.map_eq_some_iff.1 (by decide +kernel)
  rw [← hstate]
  exact (trail_leads_to_state (run_completed.weaken fun _ _ _ => trivial)).1.2 _ r hr

end Ledger

/-! ## The lifecycle of a job -/

/-- How the columns of a job's state belong together: a resume point is there exactly while the
    job is parked, and is a state the worker acts on; a review reason only while it is parked. -/
structure Lifecycle (state : RepairState) (reviewFrom : Option RepairState)
    (reviewReason : Option ReviewReason) : Prop where
  parked : reviewFrom.isSome = true ↔ state = .awaitingReview
  actionable : ∀ s, reviewFrom = some s → s.isActionable = true
  reason : state ≠ .awaitingReview → reviewReason = none

/-- The lifecycle of a job, in its row or in a copy of it. -/
def JobRow.InLifecycle (r : JobRow) : Prop := Lifecycle r.state r.reviewFromState r.reviewReason

def RepairJob.InLifecycle (job : RepairJob) : Prop :=
  Lifecycle job.state job.reviewFromState job.reviewReason

/-- Only progress from seeding leads to the completed state. -/
theorem completed_of_plan {job : RepairJob} {dst : RepairState} {reason : TransitionReason}
    {t : Transition} (hjob : job.InLifecycle) (ht : job.planTransition dst reason = .ok t)
    (hto : t.toState = .completed) : t.reason = .progress ∧ t.fromState = .seeding := by
  have hreason : t.reason = reason := (validateTransition_ok ht).2.2.1
  rcases t.cases_reason with ⟨hr, hnext⟩ | ⟨r, -, -, hd⟩ | ⟨-, -, hd⟩ | ⟨hr, -⟩ | ⟨-, -, hd⟩ |
    ⟨-, -, hd⟩ | ⟨-, -, hd⟩ | ⟨-, m, n, hm, hn, hlt⟩
  · rw [hto] at hnext
    refine ⟨hr, ?_⟩
    generalize t.fromState = src at hnext ⊢
    cases src <;> first | rfl | cases hnext
  · rw [hto] at hd; cases hd
  · rw [hto] at hd; cases hd
  · -- a retry leads where the copy says, and a copy never says so
    have hretry : reason = .operatorRetry := hreason.symm.trans hr
    subst hretry
    obtain ⟨-, hfrom, -⟩ := RepairJob.retry_ok ht
    have hactionable := hjob.actionable _ hfrom
    rw [hto] at hactionable
    cases hactionable
  · rw [hto] at hd; cases hd
  · rw [hto] at hd; cases hd
  · rw [hto] at hd; cases hd
  · -- no state has a higher rank
    rw [hto] at hn
    cases hn
    generalize t.fromState = src at hm
    cases src <;> cases hm <;> omega

/-- A planned transition leads into the lifecycle. -/
theorem lifecycle_of_plan {job : RepairJob} {dst : RepairState} {reason : TransitionReason}
    {t : Transition} (hjob : job.InLifecycle) (ht : job.planTransition dst reason = .ok t)
    (f : Option String) (now : Stamp) (r : JobRow) : (transitionRow t f now r).InLifecycle := by
  have hreason : t.reason = reason := (validateTransition_ok ht).2.2.1
  -- only a review parks, and it parks what the worker acts on
  have hparks : t.toState = .awaitingReview → t.fromState.isActionable = true := by
    intro hto
    rcases t.cases_reason with ⟨-, hnext⟩ | ⟨r, -, ha, -⟩ | ⟨-, -, hd⟩ | ⟨hr, -⟩ | ⟨-, -, hd⟩ |
      ⟨-, -, hd⟩ | ⟨-, -, hd⟩ | ⟨-, m, n, -, hn, -⟩
    · rw [hto] at hnext
      generalize t.fromState = src at hnext ⊢
      cases src <;> cases hnext
    · exact ha
    · rw [hto] at hd; cases hd
    · have hretry : reason = .operatorRetry := hreason.symm.trans hr
      subst hretry
      obtain ⟨-, hfrom, -⟩ := RepairJob.retry_ok ht
      have hactionable := hjob.actionable _ hfrom
      rw [hto] at hactionable
      cases hactionable
    · rw [hto] at hd; cases hd
    · rw [hto] at hd; cases hd
    · rw [hto] at hd; cases hd
    · rw [hto] at hn; cases hn
  refine ⟨?_, fun s hs => ?_, fun hne => ?_⟩
  · simp only [transitionRow]
    split_ifs with hto <;> simp [hto]
  · simp only [transitionRow] at hs
    split_ifs at hs with hto
    cases hs
    exact hparks hto
  · simp only [transitionRow] at hne ⊢
    rcases t.cases_reason with ⟨hr, -⟩ | ⟨r, -, -, hd⟩ | ⟨hr, -⟩ | ⟨hr, -⟩ | ⟨hr, -⟩ | ⟨hr, -⟩ |
      ⟨hr, -⟩ | ⟨hr, -⟩
    · rw [hr]
    · exact absurd hd hne
    all_goals rw [hr]

/-- The completed state is left by reconciliation only. -/
theorem reconciles_completed {t : Transition} (h : t.fromState = .completed) :
    t.reason = .reconciliation := by
  rcases t.cases_reason with ⟨-, hnext⟩ | ⟨r, -, ha, -⟩ | ⟨-, ha, -⟩ | ⟨-, hs⟩ | ⟨-, hs, -⟩ |
    ⟨-, hs, -⟩ | ⟨-, hs, -⟩ | ⟨hr, -⟩
  · rw [h] at hnext; cases hnext
  · rw [h] at ha; cases ha
  · rw [h] at ha; cases ha
  · rw [h] at hs; cases hs
  · rw [h] at hs; cases hs
  · rw [h] at hs; cases hs
  · rw [h] at hs; rcases hs with hs | hs <;> cases hs
  · exact hr

namespace Ledger

variable {w w' : Ledger} {now : Time} {e : StoreEvent}

/-- Every job, and every version of one, is in its lifecycle. -/
structure InLifecycle (w : Ledger) : Prop where
  rows : ∀ k r, w.store.jobs.get? k = some r → r.InLifecycle
  versions : ∀ job ∈ w.versions, job.InLifecycle

theorem inLifecycle_new : new.InLifecycle where
  rows _ r h := nomatch (show none = some r from h)
  versions _ h := h.elim

/-- A resume point moved back stays one the worker acts on. -/
theorem actionable_of_rank {state previous : RepairState} {m n : ℕ} (hm : state.rank = some m)
    (hn : previous.rank = some n) (hle : m ≤ n) (h : previous.isActionable = true) :
    state.isActionable = true := by
  cases previous <;> cases h <;> cases hn <;> cases state <;> cases hm <;> first | rfl | omega

theorem InLifecycle.changed (h : w.InLifecycle) {c : StoreCall} (hplanned : w.Planned (.called c))
    {r r' : JobRow} (hr : w.store.jobs.get? r.id = some r)
    (hchanged : SqliteRepairStore.Changed now c r r') : r'.InLifecycle := by
  have hrow := h.rows _ r hr
  cases hchanged with
  | @moved t u call left =>
    subst call
    obtain ⟨job, hjob, -, dst, reason, ht⟩ := hplanned
    show (transitionRow t u.failureReason (timestamp now) r).InLifecycle
    exact lifecycle_of_plan (h.versions job hjob) ht _ _ r
  | patched call => exact hrow
  | @repointed state previous call parked recorded =>
    subst call
    obtain ⟨m, n, hm, hn, hle⟩ := hplanned r previous hr recorded
    refine ⟨by simpa using parked, fun s hs => ?_, hrow.reason⟩
    cases hs
    exact actionable_of_rank hm hn hle (hrow.actionable _ recorded)
  | rescheduled hs =>
    obtain ⟨_, _, _, _, _, rfl⟩ := hs
    exact hrow

/-- Planned events keep every job in its lifecycle. -/
theorem InLifecycle.after (h : w.InLifecycle) (now : Time) (hplanned : w.Planned e) :
    (w.after now e).InLifecycle := by
  have hrows : ∀ k r, (e.run now w.store).jobs.get? k = some r → r.InLifecycle := by
    have hdid := e.run_did now w.store
    generalize e.run now w.store = s at hdid ⊢
    intro k r' hr'
    cases hdid with
    | opened free trail first rows =>
      rw [rows] at hr'
      split_ifs at hr'
      · cases hr'
        exact ⟨by simp [discoveredRow], fun s hs => (by cases hs), fun _ => rfl⟩
      · exact h.rows k r' hr'
    | wrote hw =>
      obtain ⟨r, hr, hchanged⟩ := hw.changed hr'
      exact h.changed hplanned (by rw [(Table.get?_some hr).2]; exact hr) hchanged
    | nothing => exact h.rows k r' hr'
  refine ⟨hrows, fun job hjob => ?_⟩
  rcases hjob with hjob | ⟨r, hr, rfl⟩
  · exact h.versions job hjob
  · exact hrows r.id r (Table.get?_eq_some hr)

/-- A job that is found completed after a planned event was so before, or was seeding and has
    progressed. -/
theorem InLifecycle.completed (h : w.InLifecycle) (hplanned : w.Planned e) {k : JobId} {r' : JobRow}
    (hr' : (e.run now w.store).jobs.get? k = some r') (hcompleted : r'.state = .completed) :
    ∃ r, w.store.jobs.get? k = some r ∧ (r.state = .completed ∨ r.state = .seeding ∧
      ∃ t u, e = .called (.apply k t u) ∧ t.reason = .progress ∧ t.fromState = .seeding) := by
  have hdid := e.run_did now w.store
  generalize e.run now w.store = s at hr' hdid
  cases hdid with
  | opened free trail first rows =>
    rw [rows] at hr'
    split_ifs at hr'
    · cases hr'
      cases hcompleted
    · exact ⟨r', hr', .inl hcompleted⟩
  | wrote hw =>
    obtain ⟨r, hr, hchanged⟩ := hw.changed hr'
    refine ⟨r, hr, ?_⟩
    cases hchanged with
    | @moved t u call left =>
      subst call
      obtain ⟨job, hjob, -, dst, reason, ht⟩ := hplanned
      obtain ⟨hprogress, hfrom⟩ := completed_of_plan (h.versions job hjob) ht hcompleted
      have hid : r.id = k := (Table.get?_some hr).2
      exact .inr ⟨left.trans hfrom, t, u, by rw [hid], hprogress, hfrom⟩
    | patched call => exact .inl hcompleted
    | repointed call parked recorded => exact .inl hcompleted
    | rescheduled hs =>
      obtain ⟨_, _, _, _, _, rfl⟩ := hs
      exact .inl hcompleted
  | nothing => exact ⟨r', hr', .inl hcompleted⟩

/-- A completed job stays so unless a reconciliation finds it. -/
theorem completed_after (hopen : ¬w.Reopens e) {k : JobId} {r : JobRow}
    (hr : w.store.jobs.get? k = some r) (hcompleted : r.state = .completed) :
    ∃ r', (w.after now e).store.jobs.get? k = some r' ∧ r'.state = .completed := by
  obtain ⟨r', hr'⟩ : ∃ r', (e.run now w.store).jobs.get? k = some r' := e.run_keeps hr
  refine ⟨r', hr', ?_⟩
  by_contra hne
  have hdid := e.run_did now w.store
  generalize e.run now w.store = s at hr' hdid
  cases hdid with
  | opened free trail first rows =>
    rw [rows] at hr'
    split_ifs at hr' with hid
    · subst hid
      cases free.symm.trans hr
    · obtain rfl := Option.some.inj (hr.symm.trans hr')
      exact hne hcompleted
  | wrote hw =>
    obtain ⟨r₀, hr₀, hchanged⟩ := hw.changed hr'
    obtain rfl := Option.some.inj (hr.symm.trans hr₀)
    cases hchanged with
    | @moved t u call left =>
      subst call
      have hfrom : t.fromState = .completed := left.symm.trans hcompleted
      have hid : r.id = k := (Table.get?_some hr).2
      exact hopen ⟨reconciles_completed hfrom, hfrom, r, by rw [hid]; exact hr, hcompleted⟩
    | patched call => exact hne hcompleted
    | repointed call parked recorded => exact hne hcompleted
    | rescheduled hs =>
      obtain ⟨_, _, _, _, _, rfl⟩ := hs
      exact hne hcompleted
  | nothing =>
    obtain rfl := Option.some.inj (hr.symm.trans hr')
    exact hne hcompleted

theorem InLifecycle.run (h : w.InLifecycle) (hrun : Run Closed w w') : w'.InLifecycle := by
  induction hrun with
  | refl => exact h
  | tail _ hstep ih =>
    obtain ⟨now, e, ⟨hplanned, -⟩, rfl⟩ := hstep
    exact ih.after now hplanned

/-- In every run in which no reconciliation finds a job completed, every job is in its lifecycle,
    a completed job stays completed, and a job becomes completed only by progress from
    seeding. -/
theorem lifecycle_kept (hrun : Run Closed new w) :
    (∀ k r, w.store.jobs.get? k = some r → r.InLifecycle) ∧
    (∀ w', Run Closed w w' → ∀ k r, w.store.jobs.get? k = some r → r.state = .completed →
      ∃ r', w'.store.jobs.get? k = some r' ∧ r'.state = .completed) ∧
    ∀ now e, w.Closed e → ∀ k r', (w.after now e).store.jobs.get? k = some r' →
      r'.state = .completed → ∃ r, w.store.jobs.get? k = some r ∧
        (r.state = .completed ∨ r.state = .seeding ∧
          ∃ t u, e = .called (.apply k t u) ∧ t.reason = .progress ∧ t.fromState = .seeding) := by
  have hlifecycle := inLifecycle_new.run hrun
  refine ⟨hlifecycle.rows, fun w' hrun' k r hr hcompleted => ?_,
    fun now e hclosed k r' hr' hcompleted => hlifecycle.completed hclosed.1 hr' hcompleted⟩
  induction hrun' with
  | refl => exact ⟨r, hr, hcompleted⟩
  | tail _ hstep ih =>
    obtain ⟨r₁, hr₁, hcompleted₁⟩ := ih
    obtain ⟨now, e, ⟨-, hopen⟩, rfl⟩ := hstep
    exact completed_after hopen hr₁ hcompleted₁

/-- A walk to completion reopens nothing. -/
theorem completed_walk_kept : (∀ k r, completedLedger.store.jobs.get? k = some r → r.InLifecycle) ∧
    (∀ w', Run Closed completedLedger w' → ∀ k r, completedLedger.store.jobs.get? k = some r →
      r.state = .completed → ∃ r', w'.store.jobs.get? k = some r' ∧ r'.state = .completed) ∧
    ∀ now e, completedLedger.Closed e → ∀ k r',
      (completedLedger.after now e).store.jobs.get? k = some r' → r'.state = .completed →
        ∃ r, completedLedger.store.jobs.get? k = some r ∧
          (r.state = .completed ∨ r.state = .seeding ∧
            ∃ t u, e = .called (.apply k t u) ∧ t.reason = .progress ∧ t.fromState = .seeding) :=
  lifecycle_kept run_completed

/-- A completed job is taken back by a reconciliation that the table allows. -/
theorem completed_job_reopened : Run Planned new completedLedger ∧
    Run Planned completedLedger (completedLedger.move .staged .reconciliation) ∧
    (completedLedger.store.jobs.get? ⟨1⟩).map JobRow.state = some .completed ∧
    ((completedLedger.move .staged .reconciliation).store.jobs.get? ⟨1⟩).map JobRow.state =
      some .staged :=
  ⟨run_completed.weaken fun _ _ h => h.1,
    (run_move (fun _ _ _ _ h _ => h) current_completed).1, by decide +kernel, by decide +kernel⟩

end Ledger

end SeedMedic
