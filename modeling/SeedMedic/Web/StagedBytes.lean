/-
  What the store declares as staged, and what is: the files that were staged and have not been
  discarded since.
-/
import SeedMedic.Repair.Ledger
import SeedMedic.Repair.Conclusions
import SeedMedic.Web.Reclaim
import Mathlib.Algebra.Order.BigOperators.Group.List
import Mathlib.Data.Finset.Lattice.Lemmas

namespace SeedMedic

open Lib SqliteRepairStore

/-! ## The declared total (`repair/adapters/sqlite.rs`) -/

/-- The states in which a job's total counts as staged. -/
def STAGED_STATES : List RepairState :=
  [.staged, .injected, .rechecking, .verified, .seeding, .completed]

/-- The list matches the lifecycle, and has neither of the states that a discard leaves behind. -/
theorem stagedStates_match : (∀ s ∈ RepairState.PROGRESSION,
    s ∈ STAGED_STATES ↔ ∃ m n, RepairState.staged.rank = some m ∧ s.rank = some n ∧ m ≤ n) ∧
      RepairState.failed ∉ STAGED_STATES ∧ RepairState.discovered ∉ STAGED_STATES := by
  refine ⟨fun s _ => ?_, by decide, by decide⟩
  constructor
  · intro h
    refine ⟨3, (s.rank).getD 0, rfl, ?_, ?_⟩ <;> revert h <;> cases s <;> decide
  · rintro ⟨m, n, hm, hn, hle⟩
    cases hm
    cases s <;> cases hn <;> revert hle <;> decide

/-- Whether the total of a row is declared. -/
def JobRow.declares (r : JobRow) : Bool := r.stagingDir.isSome && decide (r.state ∈ STAGED_STATES)

/-- The database's sum, which fails when it leaves the range of its numbers. -/
def sumI64 (ns : List ℤ) : Option ℤ :=
  ns.foldlM (fun acc n => if -2 ^ 63 ≤ acc + n ∧ acc + n < 2 ^ 63 then some (acc + n) else none) 0

namespace SqliteRepairStore

def stagedBytesDeclared (s : SqliteRepairStore) : Except StoreError ℕ :=
  match sumI64 ((s.jobs.rows.filter JobRow.declares).filterMap JobRow.totalBytes) with
  | none => .error (.database "error returned from database: (code: 1) integer overflow")
  | some bytes => .ok (max 0 bytes).toNat

end SqliteRepairStore

/-- The total of a job, as far as it is known. -/
def JobRow.size (r : JobRow) : ℕ := (readJob r).totalBytes.getD 0

/-- The total of some rows. -/
def sizes (rows : List JobRow) : ℕ := (rows.map JobRow.size).sum

/-- A sum of sizes is what it is, as long as it stays in range. -/
theorem sumI64_eq {ns : List ℤ} (h : ∀ n ∈ ns, 0 ≤ n) :
    sumI64 ns = if ns.sum ≤ i64Max then some ns.sum else none := by
  have hsum : ∀ acc : ℤ, 0 ≤ acc → acc ≤ i64Max → ns.foldlM (fun acc n =>
      if -2 ^ 63 ≤ acc + n ∧ acc + n < 2 ^ 63 then some (acc + n) else none) acc =
        if acc + ns.sum ≤ i64Max then some (acc + ns.sum) else none := by
    induction ns with
    | nil =>
      intro acc _ hmax
      simp [hmax]
    | cons n ns ih =>
      intro acc hacc hmax
      obtain ⟨hn, hns⟩ := List.forall_mem_cons.1 h
      have hrest : 0 ≤ ns.sum := List.sum_nonneg hns
      rw [List.foldlM_cons, List.sum_cons, ← add_assoc]
      unfold i64Max at *
      split_ifs with hstep hall hall
      · rw [Option.bind_eq_bind, Option.bind_some, ih hns _ (by omega) (by push_cast; omega),
          if_pos hall]
      · rw [Option.bind_eq_bind, Option.bind_some, ih hns _ (by omega) (by push_cast; omega),
          if_neg hall]
      · push_cast at hall
        omega
      · rfl
  have := hsum 0 le_rfl (by decide)
  rw [zero_add] at this
  exact this

theorem sizes_eq {rows : List JobRow} (h : ∀ r ∈ rows, ∀ n ∈ r.totalBytes, 0 ≤ n) :
    (rows.filterMap JobRow.totalBytes).sum = sizes rows := by
  induction rows with
  | nil => rfl
  | cons r rows ih =>
    obtain ⟨hr, hrows⟩ := List.forall_mem_cons.1 h
    have hsize : sizes (r :: rows) = r.size + sizes rows := rfl
    rw [hsize, Nat.cast_add, ← ih hrows]
    cases hn : r.totalBytes with
    | none => simp [JobRow.size, readJob, hn]
    | some n => simp [JobRow.size, readJob, hn, asU64, hr n hn]

/-- What is declared is the sizes of the rows that declare theirs, as long as these stay in range. -/
theorem stagedBytesDeclared_eq {s : SqliteRepairStore}
    (h : ∀ r ∈ s.jobs.rows, ∀ n ∈ r.totalBytes, 0 ≤ n) :
    (∃ e, s.stagedBytesDeclared = .error e ∧ i64Max < sizes (s.jobs.rows.filter JobRow.declares)) ∨
      s.stagedBytesDeclared = .ok (sizes (s.jobs.rows.filter JobRow.declares)) ∧
        sizes (s.jobs.rows.filter JobRow.declares) ≤ i64Max := by
  have hdeclares : ∀ r ∈ s.jobs.rows.filter JobRow.declares, ∀ n ∈ r.totalBytes, 0 ≤ n :=
    fun r hr => h r (List.mem_of_mem_filter hr)
  have hnonneg : ∀ n ∈ (s.jobs.rows.filter JobRow.declares).filterMap JobRow.totalBytes, 0 ≤ n := by
    intro n hn
    obtain ⟨r, hr, hrn⟩ := List.mem_filterMap.1 hn
    exact hdeclares r hr n hrn
  rw [SqliteRepairStore.stagedBytesDeclared, sumI64_eq hnonneg, sizes_eq hdeclares]
  split_ifs with hmax
  · refine .inr ⟨congrArg Except.ok ?_, by exact_mod_cast hmax⟩
    omega
  · exact .inl ⟨_, rfl, by exact_mod_cast not_le.1 hmax⟩

/-! ## What is held -/

/-- The store, and the jobs whose files were staged and have not been discarded since. -/
structure Holdings where
  store : SqliteRepairStore
  held : Finset JobId

/-- Something is written, or a directory of the staging area is discarded. -/
inductive Deed where
  | wrote (e : StoreEvent)
  | discarded (dir : SafeRelativePath)

/-- The move that follows a staging that succeeded. -/
def Transition.Stages (t : Transition) : Prop := t.reason = .progress ∧ t.fromState = .matched

instance (t : Transition) : Decidable t.Stages :=
  inferInstanceAs (Decidable (t.reason = .progress ∧ t.fromState = .matched))

namespace Holdings

/-- The store before any job, with nothing staged. -/
def new : Holdings := ⟨.new, ∅⟩

/-- The bytes of the jobs that are held. -/
def heldBytes (w : Holdings) : ℕ := sizes (w.store.jobs.rows.filter fun r => decide (r.id ∈ w.held))

/-- The declared total is that of what is held. -/
def Declared (w : Holdings) : Prop := w.store.stagedBytesDeclared = .ok w.heldBytes

/-- The jobs whose staging a write concludes. -/
def newlyStaged (w : Holdings) (now : Time) : StoreEvent → Finset JobId
  | .called (.apply id t u) =>
    match w.store.apply now id t u with
    | .ok (.applied, _) => if t.Stages then {id} else ∅
    | _ => ∅
  | _ => ∅

def after (w : Holdings) (now : Time) : Deed → Holdings
  | .wrote e => ⟨e.run now w.store, w.held ∪ w.newlyStaged now e⟩
  | .discarded dir => ⟨w.store,
      w.held.filter fun k => (w.store.jobs.get? k).bind JobRow.stagingDir ≠ some dir⟩

/-- A staging records its directory. -/
def Sound : Deed → Prop
  | .wrote (.called (.apply _ t u)) => t.Stages → u.patch.stagingDir.isSome
  | _ => True

/-- What a staging that succeeded records. -/
theorem stageFiles_sound {deps : RepairDeps} {job : RepairJob} :
    (stageFiles deps job).Returns fun outcome =>
      ∀ detail patch, outcome = .advance detail patch → patch.stagingDir.isSome := by
  refine M.returns_store fun r => ?_
  split
  · exact fun _ _ he => nomatch he
  · split
    · exact fun _ _ he => nomatch he
    · simp only
      split_ifs
      · exact fun _ _ he => nomatch he
      · refine M.returns_staging fun r => ?_
        split
        · rename_i e
          intro _ _ he
          cases e <;> cases he
        · intro _ _ he
          cases he
          rfl

/-- A completed job's staging is discarded by a deed of its own: nothing is written. -/
theorem discardStaging_deed {e : Circumstances} {o : Outside} {id : JobId} {job : RepairJob}
    {dir : SafeRelativePath} (hload : e.loadError = none) (hjob : o.store.job id = some job)
    (hstate : job.state = .completed) (hdir : job.stagingDir = some dir) (held : Finset JobId)
    (now : Time) : ∃ r o', (discardStaging id).exec e.handle o = some (r, o') ∧
      o'.staged = e.discard dir o.staged ∧
      o'.store = (Holdings.after ⟨o.store, held⟩ now (.discarded dir)).store := by
  obtain ⟨r, hrun⟩ := discardStaging_exec hload hjob hstate hdir
  refine ⟨r, _, hrun, ?_, rfl⟩
  simp only [Circumstances.stagedAfter, hdir]

/-- A job whose files are staged is not moved out of the states from staging on, and nothing that
    is staged is discarded; nor is a job sent back to such a state whose files are not. -/
def Keeps (w : Holdings) (now : Time) : Deed → Prop
  | .wrote (.called (.apply id t u)) => ∀ s', w.store.apply now id t u = .ok (.applied, s') →
    if id ∈ w.held then t.toState ∈ STAGED_STATES
    else ¬(t.reason = .operatorRetry ∧ t.toState ∈ STAGED_STATES)
  | .wrote _ => True
  | .discarded dir => ∀ k ∈ w.held, ∀ r, w.store.jobs.get? k = some r → r.stagingDir ≠ some dir

/-- One deed. -/
def Step (ok : Holdings → Time → Deed → Prop) (w w' : Holdings) : Prop :=
  ∃ now d, Sound d ∧ ok w now d ∧ w' = w.after now d

/-- A run of deeds that all meet a condition. -/
def Run (ok : Holdings → Time → Deed → Prop) : Holdings → Holdings → Prop :=
  Relation.ReflTransGen (Step ok)

/-! ## What is declared is what is held -/

/-- Exactly the jobs in the states from staging on are held. -/
structure Agrees (w : Holdings) : Prop where
  states : ∀ k r, w.store.jobs.get? k = some r → (k ∈ w.held ↔ r.state ∈ STAGED_STATES)
  known : ∀ k ∈ w.held, ∃ r, w.store.jobs.get? k = some r
  homes : ∀ k r, w.store.jobs.get? k = some r → r.state ∈ STAGED_STATES → r.stagingDir.isSome
  sized : ∀ k r, w.store.jobs.get? k = some r → ∀ n ∈ r.totalBytes, 0 ≤ n

variable {w w' : Holdings} {now : Time} {d : Deed}

/-- A job is moved to a state from staging on from another, by its staging or by a retry. -/
theorem toState_of_unstaged {t : Transition} (hfrom : t.fromState ∉ STAGED_STATES)
    (hstages : ¬t.Stages) (hretry : ¬(t.reason = .operatorRetry ∧ t.toState ∈ STAGED_STATES)) :
    t.toState ∉ STAGED_STATES := by
  have hof : ∀ s, t.toState = s → s ∉ STAGED_STATES → t.toState ∉ STAGED_STATES :=
    fun s hs hn => hs ▸ hn
  rcases t.cases_reason with ⟨hr, hn⟩ | ⟨_, -, -, hto⟩ | ⟨-, -, hto⟩ | ⟨hr, -⟩ | ⟨-, -, hto⟩ |
    ⟨-, -, hto⟩ | ⟨-, -, hto⟩ | ⟨-, m, n, hm, hn, hlt⟩
  · have hmatched : t.fromState ≠ .matched := fun hf => hstages ⟨hr, hf⟩
    generalize t.fromState = a at hfrom hn hmatched
    generalize t.toState = b at hn ⊢
    revert hfrom hmatched
    cases a <;> cases hn <;> decide
  · exact hof _ hto (by decide)
  · exact hof _ hto (by decide)
  · exact fun hto => hretry ⟨hr, hto⟩
  · exact hof _ hto (by decide)
  · exact hof _ hto (by decide)
  · exact hof _ hto (by decide)
  · generalize t.fromState = a at hfrom hm
    generalize t.toState = b at hn ⊢
    revert hfrom
    cases a <;> cases hm <;> cases b <;> cases hn <;> first | decide | omega

theorem asI64_nonneg (n : ℕ) : 0 ≤ asI64 n := Int.natCast_nonneg _

/-- A patch keeps a total in order. -/
theorem sized_patchRow {p : JobPatch} {st : Stamp} {r : JobRow} (h : ∀ n ∈ r.totalBytes, 0 ≤ n) :
    ∀ n ∈ (patchRow p st r).totalBytes, 0 ≤ n := by
  intro n hn
  have hsome : (p.totalBytes.map asI64 <|> r.totalBytes) = some n := hn
  cases hp : p.totalBytes with
  | none =>
    rw [hp] at hsome
    exact h n hsome
  | some m =>
    rw [hp] at hsome
    cases hsome
    exact asI64_nonneg m

/-- The rows after a transition that was applied. -/
theorem applied_rows {s s' : SqliteRepairStore} {id : JobId} {t : Transition} {u : TransitionUpdate}
    (h : s.apply now id t u = .ok (.applied, s')) {k : JobId} {r' : JobRow}
    (hr' : s'.jobs.get? k = some r') : ∃ r, s.jobs.get? k = some r ∧
      (k = id ∧ r.state = t.fromState ∧
          r' = patchRow u.patch (timestamp now) (transitionRow t u.failureReason (timestamp now) r) ∨
        k ≠ id ∧ r' = r) := by
  obtain ⟨r₀, hr₀, ⟨-, hfrom, -⟩ | ⟨hc, -⟩⟩ := apply_ok h
  · rw [apply_applied_get h] at hr'
    obtain ⟨r, hr, rfl⟩ := Option.map_eq_some_iff.1 hr'
    refine ⟨r, hr, ?_⟩
    have hk : r.id = k := (Table.get?_some hr).2
    unfold movedRow
    by_cases hid : k = id
    · subst hid
      cases hr.symm.trans hr₀
      rw [if_pos hk]
      exact .inl ⟨rfl, hfrom, rfl⟩
    · rw [if_neg (hk ▸ hid)]
      exact .inr ⟨hid, rfl⟩
  · cases hc

/-- A write that moves no job and stages none. -/
theorem Agrees.unmoved {s' : SqliteRepairStore} (h : w.Agrees)
    (hrows : ∀ k r', s'.jobs.get? k = some r' →
      (∃ r, w.store.jobs.get? k = some r ∧ r'.state = r.state ∧
        (r.stagingDir.isSome → r'.stagingDir.isSome) ∧
        ((∀ n ∈ r.totalBytes, 0 ≤ n) → ∀ n ∈ r'.totalBytes, 0 ≤ n)) ∨
      w.store.jobs.get? k = none ∧ r'.state = .discovered ∧ ∀ n ∈ r'.totalBytes, 0 ≤ n)
    (hkeeps : ∀ k r, w.store.jobs.get? k = some r → ∃ r', s'.jobs.get? k = some r') :
    Agrees { w with store := s' } where
  states k r' hr' := by
    rcases hrows k r' hr' with ⟨r, hr, hstate, -, -⟩ | ⟨hnone, hstate, -⟩
    · rw [hstate]
      exact h.states k r hr
    · refine iff_of_false (fun hk => ?_) (hstate ▸ by decide)
      obtain ⟨r, hr⟩ := h.known k hk
      rw [hnone] at hr
      cases hr
  known k hk := by
    obtain ⟨r, hr⟩ := h.known k hk
    exact hkeeps k r hr
  homes k r' hr' hstaged := by
    rcases hrows k r' hr' with ⟨r, hr, hstate, hhome, -⟩ | ⟨-, hstate, -⟩
    · exact hhome (h.homes k r hr (hstate ▸ hstaged))
    · rw [hstate] at hstaged
      exact absurd hstaged (by decide)
  sized k r' hr' := by
    rcases hrows k r' hr' with ⟨r, hr, -, -, hsized⟩ | ⟨-, -, hsized⟩
    · exact hsized (h.sized k r hr)
    · exact hsized

/-- A transition that is applied and keeps what is staged. -/
theorem Agrees.applied {s' : SqliteRepairStore} {id : JobId} {t : Transition} {u : TransitionUpdate}
    (h : w.Agrees) (happlied : w.store.apply now id t u = .ok (.applied, s'))
    (hsound : t.Stages → u.patch.stagingDir.isSome)
    (hkeeps : if id ∈ w.held then t.toState ∈ STAGED_STATES
      else ¬(t.reason = .operatorRetry ∧ t.toState ∈ STAGED_STATES)) :
    Agrees ⟨s', w.held ∪ if t.Stages then {id} else ∅⟩ := by
  have hothers : ∀ k, k ≠ id → (k ∈ w.held ∪ (if t.Stages then {id} else ∅) ↔ k ∈ w.held) := by
    intro k hk
    rw [Finset.mem_union]
    split_ifs
    · simp [hk]
    · simp
  have hmoved : ∀ r, w.store.jobs.get? id = some r → r.state = t.fromState →
      (id ∈ w.held ∪ (if t.Stages then {id} else ∅) ↔ t.toState ∈ STAGED_STATES) := by
    intro r hr hfrom
    by_cases hheld : id ∈ w.held
    · rw [if_pos hheld] at hkeeps
      exact iff_of_true (Finset.mem_union_left _ hheld) hkeeps
    · rw [if_neg hheld] at hkeeps
      by_cases hstages : t.Stages
      · rw [if_pos hstages]
        refine iff_of_true (Finset.mem_union_right _ (Finset.mem_singleton_self id)) ?_
        rcases t.cases_reason with ⟨-, hn⟩ | ⟨_, hr, -⟩ | ⟨hr, -⟩ | ⟨hr, -⟩ | ⟨hr, -⟩ | ⟨hr, -⟩ |
          ⟨hr, -⟩ | ⟨hr, -⟩
        · rw [hstages.2] at hn
          rw [← Option.some.inj hn]
          decide
        all_goals cases hstages.1.symm.trans hr
      · rw [if_neg hstages, Finset.union_empty]
        have hfromState : t.fromState ∉ STAGED_STATES := fun hs =>
          hheld ((h.states id r hr).2 (hfrom ▸ hs))
        exact iff_of_false hheld (toState_of_unstaged hfromState hstages hkeeps)
  refine ⟨fun k r' hr' => ?_, fun k hk => ?_, fun k r' hr' hstaged => ?_, fun k r' hr' => ?_⟩
  · obtain ⟨r, hr, ⟨rfl, hfrom, rfl⟩ | ⟨hne, rfl⟩⟩ := applied_rows happlied hr'
    · exact hmoved r hr hfrom
    · rw [hothers k hne]
      exact h.states k r' hr
  · have hfound : ∃ r, w.store.jobs.get? k = some r := by
      by_cases hid : k = id
      · obtain ⟨r, hr, -⟩ := apply_ok happlied
        exact ⟨r, hid ▸ hr⟩
      · exact h.known k ((hothers k hid).1 hk)
    obtain ⟨r, hr⟩ := hfound
    exact ⟨_, (apply_applied_get happlied k).trans (congrArg (Option.map _) hr)⟩
  · obtain ⟨r, hr, ⟨rfl, hfrom, rfl⟩ | ⟨-, rfl⟩⟩ := applied_rows happlied hr'
    · have hpatch : u.patch.stagingDir.isSome ∨ r.stagingDir.isSome := by
        rcases Finset.mem_union.1 ((hmoved r hr hfrom).2 hstaged) with hheld | hnew
        · exact .inr (h.homes k r hr ((h.states k r hr).1 hheld))
        · refine .inl (hsound ?_)
          by_contra hnot
          rw [if_neg hnot] at hnew
          cases hnew
      show (u.patch.stagingDir <|> r.stagingDir).isSome
      cases hdir : u.patch.stagingDir with
      | none =>
        rw [hdir] at hpatch
        exact hpatch.resolve_left (by simp)
      | some dir => rfl
    · exact h.homes k r' hr hstaged
  · obtain ⟨r, hr, ⟨rfl, hfrom, rfl⟩ | ⟨-, rfl⟩⟩ := applied_rows happlied hr'
    · exact sized_patchRow (h.sized k r hr)
    · exact h.sized k r' hr

/-- A call that is no transition. -/
theorem Agrees.called (h : w.Agrees) {c : StoreCall} (hc : ∀ id t u, c ≠ .apply id t u) :
    Agrees { w with store := (w.store.answer now c).2 } := by
  refine h.unmoved (fun k r' hr' => .inl ?_) fun k r hr => answer_keeps hr
  obtain ⟨r, hr, hchanged⟩ := (answer_wrote now c).changed hr'
  refine ⟨r, hr, ?_, hchanged.stagingDir_isSome, ?_⟩
  · cases hchanged with
    | moved call => exact absurd call (hc _ _ _)
    | patched => rfl
    | repointed => rfl
    | rescheduled h =>
      obtain ⟨_, _, _, _, _, rfl⟩ := h
      rfl
  · intro hsized
    cases hchanged with
    | moved call => exact absurd call (hc _ _ _)
    | patched => exact sized_patchRow hsized
    | repointed => exact hsized
    | rescheduled h =>
      obtain ⟨_, _, _, _, _, rfl⟩ := h
      exact hsized

/-- A discovery. -/
theorem Agrees.discovered (h : w.Agrees) (hit : HitAndRun) :
    Agrees { w with store := (StoreEvent.discovered hit).run now w.store } := by
  have hkeeps : ∀ k r, w.store.jobs.get? k = some r →
      ∃ r', ((StoreEvent.discovered hit).run now w.store).jobs.get? k = some r' :=
    fun k r hr => StoreEvent.run_keeps _ hr
  have hdid := (StoreEvent.discovered hit).run_did now w.store
  generalize StoreEvent.run now w.store (.discovered hit) = s' at hdid hkeeps ⊢
  refine h.unmoved (fun k r' hr' => ?_) hkeeps
  cases hdid with
  | opened free trail first rows =>
    rw [rows] at hr'
    split_ifs at hr' with hid
    · cases hr'
      subst hid
      refine .inr ⟨free, rfl, fun n hn => ?_⟩
      cases hn
      exact asI64_nonneg _
    · exact .inl ⟨r', hr', rfl, fun h => h, fun h => h⟩
  | nothing => exact .inl ⟨r', hr', rfl, fun h => h, fun h => h⟩

/-- What agreed agrees after a deed that keeps it so. -/
theorem Agrees.after (h : w.Agrees) (hsound : Sound d) (hkeeps : w.Keeps now d) :
    (w.after now d).Agrees := by
  cases d with
  | discarded dir =>
    have hall : w.held.filter
        (fun k => (w.store.jobs.get? k).bind JobRow.stagingDir ≠ some dir) = w.held := by
      refine Finset.filter_true_of_mem fun k hk => ?_
      obtain ⟨r, hr⟩ := h.known k hk
      rw [hr]
      exact hkeeps k hk r hr
    rw [Holdings.after, hall]
    exact ⟨h.states, h.known, h.homes, h.sized⟩
  | wrote e =>
    cases e with
    | discovered hit =>
      have hnone : w.newlyStaged now (.discovered hit) = ∅ := rfl
      rw [Holdings.after, hnone, Finset.union_empty]
      exact h.discovered hit
    | called c =>
      by_cases hc : ∃ id t u, c = .apply id t u
      · obtain ⟨id, t, u, rfl⟩ := hc
        simp only [Holdings.after, newlyStaged, StoreEvent.run, answer]
        cases happly : w.store.apply now id t u with
        | error e =>
          simp only [orKeep, Finset.union_empty]
          exact ⟨h.states, h.known, h.homes, h.sized⟩
        | ok p =>
          obtain ⟨a, s'⟩ := p
          obtain ⟨-, -, ⟨rfl, -⟩ | ⟨rfl, -, -, rfl⟩⟩ := apply_ok happly
          · exact h.applied happly hsound (hkeeps s' happly)
          · simp only [orKeep, Finset.union_empty]
            exact ⟨h.states, h.known, h.homes, h.sized⟩
      · have hnone : w.newlyStaged now (.called c) = ∅ := by
          cases c with
          | apply id t u => exact absurd ⟨_, _, _, rfl⟩ hc
          | _ => rfl
        rw [Holdings.after, hnone, Finset.union_empty]
        exact h.called fun id t u he => hc ⟨id, t, u, he⟩

theorem agrees_new : new.Agrees := by
  have hnone : ∀ k r, new.store.jobs.get? k ≠ some r := fun _ _ h => by cases h
  constructor
  · exact fun k r hr => absurd hr (hnone k r)
  · intro k hk
    cases hk
  · exact fun k r hr => absurd hr (hnone k r)
  · exact fun k r hr => absurd hr (hnone k r)

theorem Agrees.of_run (h : w.Agrees) (hrun : Run Keeps w w') : w'.Agrees := by
  induction hrun with
  | refl => exact h
  | tail _ hstep ih =>
    obtain ⟨now, d, hsound, hkeeps, rfl⟩ := hstep
    exact ih.after hsound hkeeps

/-! ## Where the two part -/

theorem sizes_filter_cons (p : JobRow → Bool) (a : JobRow) (rows : List JobRow) :
    sizes ((a :: rows).filter p) = (if p a then a.size else 0) + sizes (rows.filter p) := by
  by_cases hpa : p a = true
  · rw [List.filter_cons_of_pos hpa, if_pos hpa]
    rfl
  · rw [List.filter_cons_of_neg hpa, if_neg hpa, Nat.zero_add]

/-- A selection of more rows has at least the sizes. -/
theorem sizes_filter_le {p q : JobRow → Bool} {rows : List JobRow}
    (hle : ∀ a ∈ rows, q a = true → p a = true) : sizes (rows.filter q) ≤ sizes (rows.filter p) := by
  have hsub : rows.filter q = (rows.filter p).filter q := by
    rw [List.filter_filter]
    refine List.filter_congr fun b hb => ?_
    cases hqb : q b with
    | false => simp
    | true => simp [hle b hb hqb]
  rw [hsub]
  exact (List.filter_sublist.map JobRow.size).sum_le_sum fun _ _ => Nat.zero_le _

/-- And more than the sizes, where a row that is not empty comes on top. -/
theorem sizes_filter_lt {p q : JobRow → Bool} {rows : List JobRow} {r : JobRow} (hr : r ∈ rows)
    (hp : p r = true) (hq : q r = false) (hle : ∀ a ∈ rows, q a = true → p a = true)
    (hsize : 0 < r.size) : sizes (rows.filter q) < sizes (rows.filter p) := by
  induction rows with
  | nil => cases hr
  | cons a rows ih =>
    have htail : ∀ b ∈ rows, q b = true → p b = true := fun b hb => hle b (List.mem_cons_of_mem _ hb)
    rw [sizes_filter_cons, sizes_filter_cons]
    rcases List.mem_cons.1 hr with rfl | hr
    · rw [if_pos hp, if_neg (by simp [hq])]
      have hrest := sizes_filter_le htail
      omega
    · have hrest := ih hr htail
      have hhead : (if q a then a.size else 0) ≤ if p a then a.size else 0 := by
        by_cases hqa : q a = true
        · rw [if_pos hqa, if_pos (hle a List.mem_cons_self hqa)]
        · rw [if_neg hqa]
          exact Nat.zero_le _
      omega

/-- Every job has a size, and those in the states from staging on a directory. -/
def Weighs (s : SqliteRepairStore) : Prop :=
  ∀ r ∈ s.jobs.rows, 0 < r.size ∧ (r.state ∈ STAGED_STATES → r.stagingDir.isSome)

/-- What is declared, where the sizes of the jobs are known to be in order. -/
theorem declared_iff (h : ∀ r ∈ w.store.jobs.rows, ∀ n ∈ r.totalBytes, 0 ≤ n) :
    w.Declared ↔ sizes (w.store.jobs.rows.filter JobRow.declares) = w.heldBytes ∧
      w.heldBytes ≤ i64Max := by
  unfold Declared
  rcases stagedBytesDeclared_eq h with ⟨e, he, hmax⟩ | ⟨hok, hmax⟩
  · rw [he]
    refine iff_of_false (fun h => by cases h) ?_
    rintro ⟨heq, hle⟩
    omega
  · rw [hok]
    constructor
    · intro heq
      have := Except.ok.inj heq
      exact ⟨this, this ▸ hmax⟩
    · exact fun h => congrArg Except.ok h.1

theorem Agrees.sized_rows (h : w.Agrees) : ∀ r ∈ w.store.jobs.rows, ∀ n ∈ r.totalBytes, 0 ≤ n :=
  fun r hr => h.sized r.id r (Table.get?_eq_some hr)

/-- The rows that declare their size are those of the jobs that are held. -/
theorem Agrees.filter_eq (h : w.Agrees) : w.store.jobs.rows.filter JobRow.declares =
    w.store.jobs.rows.filter fun r => decide (r.id ∈ w.held) := by
  refine List.filter_congr fun r hr => ?_
  have hrow := Table.get?_eq_some hr
  rw [JobRow.declares, Bool.eq_iff_iff, Bool.and_eq_true, decide_eq_true_eq, decide_eq_true_eq,
    h.states r.id r hrow]
  exact and_iff_right_of_imp (h.homes r.id r hrow)

/-- Where exactly the jobs from staging on are held, what is declared is what is held. -/
theorem Agrees.declared (h : w.Agrees) : w.Declared ↔ w.heldBytes ≤ i64Max := by
  rw [declared_iff h.sized_rows]
  exact and_iff_right (congrArg sizes h.filter_eq)

/-- A discard of something staged leaves its size declared. -/
theorem Agrees.not_declared_discarded (h : w.Agrees) {dir : SafeRelativePath} {k : JobId} {r : JobRow}
    (hk : k ∈ w.held) (hr : w.store.jobs.get? k = some r) (hdir : r.stagingDir = some dir)
    (hsize : 0 < r.size) : ¬(w.after now (.discarded dir)).Declared := by
  obtain ⟨hmem, hid⟩ := Table.get?_some hr
  have hsized : ∀ a ∈ (w.after now (.discarded dir)).store.jobs.rows, ∀ n ∈ a.totalBytes, 0 ≤ n :=
    h.sized_rows
  rw [declared_iff hsized, not_and_or]
  refine .inl (Nat.ne_of_gt ?_)
  show sizes _ < sizes (w.store.jobs.rows.filter JobRow.declares)
  rw [h.filter_eq]
  refine sizes_filter_lt hmem (decide_eq_true (hid ▸ hk)) (decide_eq_false ?_) (fun a _ ha => ?_) hsize
  · intro hheld
    have hother := (Finset.mem_filter.1 hheld).2
    rw [hid, hr, Option.bind_some] at hother
    exact hother hdir
  · exact decide_eq_true (Finset.mem_of_mem_filter _ (of_decide_eq_true ha))

/-- A move that does not keep what is staged: out of the states from staging on with the files
    staged, or back into them without. -/
theorem Agrees.not_declared_moved (h : w.Agrees) {id : JobId} {t : Transition} {u : TransitionUpdate}
    {s' : SqliteRepairStore} (happlied : w.store.apply now id t u = .ok (.applied, s'))
    (hkeeps : ¬(if id ∈ w.held then t.toState ∈ STAGED_STATES
      else ¬(t.reason = .operatorRetry ∧ t.toState ∈ STAGED_STATES)))
    (hweighs : Weighs s') : ¬Declared ⟨s', w.held ∪ if t.Stages then {id} else ∅⟩ := by
  obtain ⟨r, hr, -⟩ := apply_ok happlied
  have hr' : s'.jobs.get? id = some (movedRow id t u (timestamp now) r) :=
    (apply_applied_get happlied id).trans (congrArg (Option.map _) hr)
  obtain ⟨hmem, hid⟩ := Table.get?_some hr'
  have hstate : (movedRow id t u (timestamp now) r).state = t.toState := by
    unfold movedRow
    rw [if_pos (Table.get?_some hr).2]
    rfl
  have hrow : ∀ a ∈ s'.jobs.rows, a.id = id ∧ a.state = t.toState ∨
      a.id ≠ id ∧ w.store.jobs.get? a.id = some a := by
    intro a ha
    obtain ⟨a₀, ha₀, ⟨hk, -, rfl⟩ | ⟨hk, rfl⟩⟩ := applied_rows happlied (Table.get?_eq_some ha)
    · exact .inl ⟨hk, rfl⟩
    · exact .inr ⟨hk, ha₀⟩
  have hsized : ∀ a ∈ s'.jobs.rows, ∀ n ∈ a.totalBytes, 0 ≤ n := by
    intro a ha
    obtain ⟨a₀, ha₀, ⟨-, -, he⟩ | ⟨-, rfl⟩⟩ := applied_rows happlied (Table.get?_eq_some ha)
    · rw [he]
      exact sized_patchRow (h.sized _ a₀ ha₀)
    · exact h.sized _ a ha₀
  obtain ⟨hsize, hhome⟩ := hweighs _ hmem
  have hidHeld : (movedRow id t u (timestamp now) r).id ∈ w.held ↔ id ∈ w.held := by rw [hid]
  rw [declared_iff hsized, not_and_or]
  refine .inl ?_
  by_cases hheld : id ∈ w.held
  · rw [if_pos hheld] at hkeeps
    refine Nat.ne_of_lt (sizes_filter_lt hmem ?_ ?_ (fun a ha hdeclares => ?_) hsize)
    · exact decide_eq_true (Finset.mem_union_left _ (hidHeld.2 hheld))
    · rw [JobRow.declares, hstate, decide_eq_false hkeeps, Bool.and_false]
    · obtain ⟨-, hstaged⟩ := Bool.and_eq_true_iff.1 hdeclares
      have hstaged := of_decide_eq_true hstaged
      rcases hrow a ha with ⟨-, hmoved⟩ | ⟨-, hsame⟩
      · exact absurd (hmoved ▸ hstaged) hkeeps
      · exact decide_eq_true (Finset.mem_union_left _ ((h.states _ a hsame).2 hstaged))
  · rw [if_neg hheld, not_not] at hkeeps
    have hstages : ¬t.Stages := fun hs => by cases hs.1.symm.trans hkeeps.1
    rw [if_neg hstages, Finset.union_empty]
    refine Nat.ne_of_gt (sizes_filter_lt hmem ?_ (decide_eq_false (mt hidHeld.1 hheld))
      (fun a ha hin => ?_) hsize)
    · have hstaged : (movedRow id t u (timestamp now) r).state ∈ STAGED_STATES := hstate ▸ hkeeps.2
      rw [JobRow.declares, hhome hstaged, decide_eq_true hstaged]
      rfl
    · have hin := of_decide_eq_true hin
      rcases hrow a ha with ⟨he, -⟩ | ⟨-, hsame⟩
      · exact absurd (he ▸ hin) hheld
      · have hstaged := (h.states _ a hsame).1 hin
        rw [JobRow.declares, h.homes _ a hsame hstaged, decide_eq_true hstaged]
        rfl

/-- A deed that does not keep what is staged parts what is declared from what is held. -/
theorem Agrees.not_declared (h : w.Agrees) (hkeeps : ¬w.Keeps now d)
    (hweighs : Weighs (w.after now d).store) : ¬(w.after now d).Declared := by
  cases d with
  | discarded dir =>
    simp only [Keeps, not_forall, not_not] at hkeeps
    obtain ⟨k, hk, r, hr, hdir⟩ := hkeeps
    exact h.not_declared_discarded hk hr hdir (hweighs r (Table.get?_some hr).1).1
  | wrote e =>
    cases e with
    | discovered hit => exact absurd trivial hkeeps
    | called c =>
      cases c with
      | apply id t u =>
        simp only [Keeps, not_forall] at hkeeps
        obtain ⟨s', happlied, hkeeps⟩ := hkeeps
        have hafter : w.after now (.wrote (.called (.apply id t u))) =
            ⟨s', w.held ∪ if t.Stages then {id} else ∅⟩ := by
          simp only [Holdings.after, newlyStaged, StoreEvent.run, answer, happlied, orKeep]
        rw [hafter] at hweighs ⊢
        exact h.not_declared_moved happlied hkeeps hweighs
      | _ => exact absurd trivial hkeeps

/-! ## A job that completes -/

/-- A discovery, or a move along the lifecycle. -/
def Climbs : Deed → Prop
  | .wrote (.discovered _) => True
  | .wrote (.called (.apply _ t _)) => t.reason = .progress
  | _ => False

/-- The moves of a job along the lifecycle, each with the directory it is staged in. -/
def climb (id : JobId) : List Deed :=
  (RepairState.PROGRESSION.zip RepairState.PROGRESSION.tail).filterMap fun p =>
    (validateTransition p.1 p.2 .progress none).toOption.map fun t =>
      .wrote (.called (.apply id t (TransitionUpdate.default.withPatch
        { JobPatch.default with stagingDir := some id.home })))

/-- One job, from its discovery on. -/
def lifetime : List Deed :=
  .wrote (.discovered ⟨⟨"tracker"⟩, ⟨"7"⟩, "show", none, 10, none⟩) :: climb ⟨1⟩

theorem climbs_lifetime : ∀ d ∈ lifetime, Sound d ∧ Climbs d := by
  intro d hd
  rcases List.mem_cons.1 hd with rfl | hd
  · exact ⟨trivial, trivial⟩
  · obtain ⟨p, -, hp⟩ := List.mem_filterMap.1 hd
    obtain ⟨t, ht, rfl⟩ := Option.map_eq_some_iff.1 hp
    cases hv : validateTransition p.1 p.2 .progress none with
    | error e =>
      rw [hv] at ht
      cases ht
    | ok t' =>
      rw [hv] at ht
      cases ht
      exact ⟨fun _ => rfl, (validateTransition_ok hv).2.2.1⟩

/-- What some deeds in turn leave. -/
def afterAll (w : Holdings) (ds : List Deed) : Holdings := ds.foldl (fun w d => w.after 0 d) w

/-- No move along the lifecycle leads out of the states from staging on. -/
theorem staged_of_progress {t : Transition} (hreason : t.reason = .progress)
    (hfrom : t.fromState ∈ STAGED_STATES) : t.toState ∈ STAGED_STATES := by
  rcases t.cases_reason with ⟨-, hn⟩ | ⟨_, hr, -⟩ | ⟨hr, -⟩ | ⟨hr, -⟩ | ⟨hr, -⟩ | ⟨hr, -⟩ |
    ⟨hr, -⟩ | ⟨hr, -⟩
  · generalize t.fromState = a at hfrom hn
    generalize t.toState = b at hn ⊢
    revert hfrom
    cases a <;> cases hn <;> decide
  all_goals cases hreason.symm.trans hr

/-- A climb keeps what is staged. -/
theorem Agrees.keeps_of_climbs (h : w.Agrees) (hd : Climbs d) : w.Keeps now d := by
  cases d with
  | discarded dir => cases hd
  | wrote e =>
    cases e with
    | discovered hit => trivial
    | called c =>
      cases c with
      | apply id t u =>
        intro s' happlied
        obtain ⟨r, hr, ⟨-, hfrom, -⟩ | ⟨hc, -⟩⟩ := apply_ok happlied
        · split_ifs with hheld
          · exact staged_of_progress hd (hfrom ▸ (h.states id r hr).1 hheld)
          · rintro ⟨hretry, -⟩
            cases hretry.symm.trans hd
        · cases hc
      | _ => cases hd

theorem Agrees.run_climbs {ds : List Deed} (hds : ∀ d ∈ ds, Sound d ∧ Climbs d) (h : w.Agrees) :
    Run Keeps w (w.afterAll ds) := by
  induction ds generalizing w with
  | nil => exact .refl
  | cons d ds ih =>
    obtain ⟨⟨hsound, hd⟩, hds⟩ := List.forall_mem_cons.1 hds
    have hkeeps : w.Keeps 0 d := h.keeps_of_climbs hd
    exact .head ⟨0, d, hsound, hkeeps, rfl⟩ (ih hds (h.after hsound hkeeps))

/-- A run under a condition is a run. -/
theorem Run.weaken {ok : Holdings → Time → Deed → Prop} (h : Run ok w w') :
    Run (fun _ _ _ => True) w w' := by
  induction h with
  | refl => exact .refl
  | tail _ hstep ih =>
    obtain ⟨now, d, hsound, -, rfl⟩ := hstep
    exact ih.tail ⟨now, d, hsound, trivial, rfl⟩

/-! ## The declared total -/

/-- As long as every deed keeps what is staged, what is declared is what is held; the first that
    does not parts the two. -/
theorem declared_iff_keeps {w : Holdings} (hrun : Run Keeps new w) :
    (w.Declared ↔ w.heldBytes ≤ i64Max) ∧ ∀ now d, ¬w.Keeps now d → Weighs (w.after now d).store →
      ¬(w.after now d).Declared :=
  ⟨(agrees_new.of_run hrun).declared, fun _ _ hkeeps hweighs =>
    (agrees_new.of_run hrun).not_declared hkeeps hweighs⟩

/-- The size of a job that completes is declared, and not that of what is held any more once its
    files are discarded. -/
theorem lifetime_declared : (new.afterAll lifetime).Declared ∧
    ¬((new.afterAll lifetime).after 0 (.discarded (JobId.home ⟨1⟩))).Declared := by
  have hrun : Run Keeps new (new.afterAll lifetime) := agrees_new.run_climbs climbs_lifetime
  refine ⟨(declared_iff_keeps hrun).1.2 (by decide +kernel),
    (declared_iff_keeps hrun).2 0 _ (fun hkeeps => ?_) ?_⟩
  · have hheld : (⟨1⟩ : JobId) ∈ (new.afterAll lifetime).held := by decide +kernel
    obtain ⟨r, hr⟩ := (agrees_new.of_run hrun).known _ hheld
    have hdir : ((new.afterAll lifetime).store.jobs.get? ⟨1⟩).bind JobRow.stagingDir =
        some (JobId.home ⟨1⟩) := by decide +kernel
    rw [hr] at hdir
    exact hkeeps _ hheld r hr hdir
  · unfold Weighs
    decide +kernel

/-- The files of a completed job are discarded and its size stays declared. -/
theorem discarded_declared :
    ¬ ∀ w, Run (fun _ _ _ => True) new w → w.heldBytes ≤ i64Max → w.Declared := by
  intro h
  have hrun : Run (fun _ _ _ => True) new
      ((new.afterAll lifetime).after 0 (.discarded (JobId.home ⟨1⟩))) :=
    (agrees_new.run_climbs climbs_lifetime).weaken.tail
      ⟨0, .discarded (JobId.home ⟨1⟩), trivial, trivial, rfl⟩
  have hdeclared := h _ hrun (by decide +kernel)
  revert hdeclared
  unfold Declared
  decide +kernel

end Holdings

end SeedMedic
