/-
  Which operations tell of what they write: exactly when the store answers as they take for
  granted.
-/
import SeedMedic.Web.Announce

namespace SeedMedic

open Lib Prog

/-! ## What each part of the workflow leaves behind -/

/-- A log in which what is taken for a change is told of right away, and nothing sums up. -/
def Tidy (log : List LogEntry) : Prop := Steady log ∧ ∀ e id, .told e ∈ log → ¬e.SumsUp id

namespace Tidy

variable {log log' : List LogEntry} {id : JobId} {t : Transition} {r : Except StoreError Applied}

theorem nil : Tidy [] := ⟨.nil, nofun⟩

theorem append (h : Tidy log) (h' : Tidy log') : Tidy (log ++ log') :=
  ⟨h.1.append h'.1, fun e id he => (List.mem_append.1 he).elim (h.2 e id) (h'.2 e id)⟩

theorem other (h : Tidy log) : Tidy (.other :: log) := by
  refine ⟨.still trivial h.1, fun e id he => ?_⟩
  rcases List.mem_cons.1 he with heq | he
  · cases heq
  · exact h.2 e id he

theorem others (h : ∀ x ∈ log, x = .other) : Tidy log := by
  induction log with
  | nil => exact nil
  | cons x log ih =>
    cases h x (List.mem_cons_self ..)
    exact (ih fun y hy => h y (List.mem_cons_of_mem _ hy)).other

/-- Telling of something that is no transition and no summary. -/
theorem told {e : BusKind} (he : ∀ id, ¬e.Moves id ∧ ¬e.SumsUp id) (h : Tidy log) :
    Tidy (.told e :: log) := by
  refine ⟨.still (fun id => (he id).1) h.1, fun e' id he' => ?_⟩
  rcases List.mem_cons.1 he' with heq | he'
  · cases heq
    exact (he id).2
  · exact h.2 e' id he'

theorem untold (ht : ¬TakenForChange t r) (h : Tidy log) : Tidy (.write id t r :: log) := by
  refine ⟨.untold ht h.1, fun e id he => ?_⟩
  rcases List.mem_cons.1 he with heq | he
  · cases heq
  · exact h.2 e id he

/-- A write that is taken for a change, with the telling of it. -/
theorem tell {source target : RepairState} {reason : String} {between : List LogEntry}
    (ht : TakenForChange t r) (hbetween : ∀ x ∈ between, x = .other) (h : Tidy log) :
    Tidy (.write id t r ::
      (between ++ .told (.work (.jobTransitioned id source target reason)) :: log)) := by
  refine ⟨.told ht (fun x hx => hbetween x hx ▸ trivial) rfl h.1, fun e job he => ?_⟩
  rcases List.mem_cons.1 he with heq | he
  · cases heq
  rcases List.mem_append.1 he with he | he
  · cases hbetween _ he
  rcases List.mem_cons.1 he with heq | he
  · cases heq
    exact not_false
  · exact h.2 e job he

theorem tell_now {source target : RepairState} {reason : String} (ht : TakenForChange t r)
    (h : Tidy log) :
    Tidy (.write id t r :: .told (.work (.jobTransitioned id source target reason)) :: log) := by
  have hnone : ∀ x ∈ ([] : List LogEntry), x = .other := fun x hx => absurd hx List.not_mem_nil
  exact tell ht hnone h

end Tidy

theorem not_taken_error {t : Transition} {e : StoreError} : ¬TakenForChange t (.error e) := by
  rintro (h | ⟨h, -⟩) <;> cases h

theorem taken_ok {t : Transition} {outcome : Applied} (h : t.reason ≠ .progress) :
    TakenForChange t (.ok outcome) := by
  cases outcome with
  | applied => exact .inl rfl
  | alreadyInTargetState => exact .inr ⟨rfl, h⟩

/-- Whatever is answered, the program leaves a tidy log. -/
def Tidies {α : Type} (p : M α) : Prop := p.Logs working fun _ log => Tidy log

/-- A call that neither writes a transition nor publishes. -/
def Silent : Call → Prop
  | .store (.apply ..) | .publish _ => False
  | _ => True

theorem LogEntry.ofCall_silent {c : Call} (h : Silent c) (r : Ans c) : LogEntry.ofCall c r = .other := by
  cases c with
  | store c => cases c <;> first | rfl | cases h
  | publish e => cases h
  | _ => rfl

section
variable {α β : Type}

namespace M

variable {R : Recorder Call Ans LogEntry} {Q : α → List LogEntry → Prop}

theorem logs_store {c : StoreCall} {f : c.Ans → M α} (h : ∀ r, R.answers (.store c) r →
    (f r).Logs R fun a log => Q a (R.note (.store c) r :: log)) : (M.store c >>= f).Logs R Q := h

theorem logs_publish {e : EventKind} {f : Unit → M α}
    (h : (f ()).Logs R fun a log => Q a (R.note (.publish e) () :: log)) :
    (M.publish e >>= f).Logs R Q := fun _ _ => h

theorem logs_notify {e : NotificationEvent} {f : Unit → M α}
    (h : (f ()).Logs R fun a log => Q a (R.note (.notify e) () :: log)) :
    (M.notify e >>= f).Logs R Q := fun _ _ => h

theorem logs_write {id : JobId} {t : Transition} {u : TransitionUpdate}
    {f : Except StoreError Applied → M α}
    (h : ∀ r, (f r).Logs working fun a log => Q a (.write id t r :: log)) :
    (M.store (.apply id t u) >>= f).Logs working Q := fun r _ => h r

end M

theorem Tidies.ret {a : α} : Tidies (Prog.ret a : M α) := Tidy.nil

theorem Tidies.bind {p : M α} {f : α → M β} (h : Tidies p) (hf : ∀ a, Tidies (f a)) :
    Tidies (p >>= f) :=
  Logs.bind h fun a _ hlog => (hf a).mono fun _ _ hlog' => hlog.append hlog'

theorem Tidies.silent {p : M α} (h : p.Only Silent) : Tidies p :=
  (h.logs fun _ r hc => LogEntry.ofCall_silent hc r).mono fun _ _ hlog => Tidy.others hlog

/-- A silent call before the rest. -/
theorem Tidies.call {c : Call} {k : Ans c → M α} (hc : Silent c) (hk : ∀ r, Tidies (k r)) :
    Tidies (.call c k) := by
  intro r _
  refine (hk r).mono fun _ _ hlog => ?_
  rw [show working.note c r = .other from LogEntry.ofCall_silent hc r]
  exact hlog.other

theorem Tidies.publish {e : EventKind} {k : Unit → M α}
    (he : ∀ id, ¬(BusKind.work e).Moves id ∧ ¬(BusKind.work e).SumsUp id) (hk : Tidies (k ())) :
    Tidies (M.publish e >>= k) :=
  M.logs_publish (hk.mono fun _ _ hlog => hlog.told he)

theorem Tidies.store {c : StoreCall} {f : c.Ans → M α} (hc : Silent (.store c))
    (hf : ∀ r, Tidies (f r)) : Tidies (M.store c >>= f) := Tidies.call hc hf

theorem Tidies.now {f : Time → M α} (hf : ∀ t, Tidies (f t)) : Tidies (M.now >>= f) :=
  Tidies.call (c := .now) trivial hf

theorem Tidies.shuttingDown {f : Bool → M α} (hf : ∀ b, Tidies (f b)) :
    Tidies (M.shuttingDown >>= f) := Tidies.call (c := .shuttingDown) trivial hf

/-- What is told of right after a write. -/
def Spoken (id : JobId) (log : List LogEntry) : Prop := ∃ between source target reason,
  (∀ x ∈ between, x = .other) ∧ log = between ++ [.told (.work (.jobTransitioned id source target reason))]

theorem Tidy.spoken {id : JobId} {t : Transition} {r : Except StoreError Applied}
    {log log' : List LogEntry} (ht : TakenForChange t r) (hlog : Spoken id log) (h : Tidy log') :
    Tidy (.write id t r :: (log ++ log')) := by
  obtain ⟨between, source, target, reason, hbetween, rfl⟩ := hlog
  rw [List.append_assoc]
  exact Tidy.tell ht hbetween h

end

section
variable {deps : RepairDeps} {config : WorkerConfig} {job : RepairJob} {summary : TickSummary}

theorem step_silent : (step deps job).Only Silent := by
  refine step_stepCalls.mono fun c hc => ?_
  cases c with
  | store c => cases c <;> trivial
  | publish e => cases hc
  | _ => trivial

theorem recordAdvance_spoken {t : Transition} :
    (recordAdvance job t).Logs working fun _ log => Spoken job.id log := by
  unfold recordAdvance
  split_ifs
  · refine M.logs_notify (M.logs_publish ?_)
    exact ⟨[.other], t.fromState, t.toState, "progress", fun x hx => List.mem_singleton.1 hx, rfl⟩
  · refine M.logs_publish ?_
    exact ⟨[], t.fromState, t.toState, "progress", fun x hx => absurd hx List.not_mem_nil, rfl⟩

theorem settleAdvance_tidies {detail : Option Json} {patch : JobPatch} :
    Tidies (settleAdvance deps config job summary detail patch) := by
  have hproceed : ∀ id, Tidies (proceed config id) := fun id =>
    .silent (proceed_only trivial trivial)
  unfold settleAdvance
  split
  · exact .ret
  · rename_i t ht
    have hreason : t.reason = .progress := (RepairJob.advance_ok ht).2.2
    refine M.logs_write fun r => ?_
    split
    · refine recordAdvance_spoken.bind fun _ log hlog => ?_
      refine ((hproceed job.id).bind fun _ => .ret).mono fun _ log' hlog' => ?_
      exact Tidy.spoken (.inl rfl) hlog hlog'
    · refine ((hproceed job.id).bind fun _ => .ret).mono fun _ log hlog => ?_
      refine Tidy.untold ?_ hlog
      rintro (h | ⟨-, h⟩)
      · cases h
      · exact h hreason
    · exact Tidy.untold not_taken_error .nil
    · refine ((Tidies.silent (stopForRetry_only trivial)).bind fun _ => .ret).mono fun _ log hlog => ?_
      exact Tidy.untold not_taken_error hlog

theorem park_tidies {reason : ReviewReason} {detail : Option Json} {patch : JobPatch} :
    Tidies (park job reason detail patch) := by
  unfold park
  split
  · exact .ret
  · rename_i t ht
    have hreason : t.reason = .review reason := (validateTransition_ok ht).2.2.1
    refine M.logs_write fun r => ?_
    split
    · exact Tidy.untold not_taken_error .nil
    · refine M.logs_publish (M.logs_notify ?_)
      exact Tidy.tell_now (taken_ok (by rw [hreason]; nofun)) Tidy.nil.other

theorem settleRewind_tidies {target : RepairState} {note : String} :
    Tidies (settleRewind job target note) := by
  have hreload : Tidies (reload job.id) := .silent (M.only_store trivial fun r => by split <;> trivial)
  unfold settleRewind
  split
  · exact .ret
  · rename_i t ht
    have hreason : t.reason = .reconciliation := (validateTransition_ok ht).2.2.1
    refine M.logs_write fun r => ?_
    split
    · exact Tidy.untold not_taken_error .nil
    · refine M.logs_publish ((hreload.bind fun next => ?_).mono fun _ log hlog => ?_)
      · split <;> exact .ret
      · exact Tidy.tell_now (taken_ok (by rw [hreason]; nofun)) hlog

theorem settle_tidies {outcome : StepOutcome} :
    Tidies (settle deps config job summary outcome) := by
  cases outcome with
  | advance detail patch => exact settleAdvance_tidies
  | rewind target note => exact settleRewind_tidies.bind fun _ => .ret
  | review reason detail patch => exact park_tidies.bind fun _ => .ret
  | wait after note patch =>
    refine Tidies.bind (p := settleWait job after patch) ?_ fun _ => .ret
    unfold settleWait
    split_ifs
    · refine Tidies.store trivial fun r => ?_
      split
      · exact .now fun _ => .ret
      · exact .publish (fun _ => ⟨not_false, not_false⟩) (.now fun _ => .ret)
    · exact .now fun _ => .ret
  | retry error =>
    show Tidies (settleRetry deps job summary error)
    unfold settleRetry
    simp only
    split_ifs
    · exact park_tidies.bind fun _ => .ret
    · exact (Tidies.silent (stopForRetry_only trivial)).bind fun _ => .ret

theorem driveLoop_tidies : ∀ (bound : ℕ) (job : RepairJob) (summary : TickSummary),
    Tidies (driveLoop deps config bound job summary)
  | 0, _, _ => .ret
  | bound + 1, job, summary => by
    refine .shuttingDown fun stopping => ?_
    split_ifs
    · exact .ret
    · refine Tidies.bind (.call trivial fun _ => (Tidies.silent step_silent).bind fun _ =>
        settle_tidies) fun r => ?_
      split
      · exact driveLoop_tidies bound _ _
      · exact .ret

theorem drive_tidies : Tidies (drive deps config job summary) := by
  refine (driveLoop_tidies _ _ _).bind fun r => ?_
  obtain ⟨summary', stop⟩ := r
  cases stop with
  | none => exact .ret
  | some stop => exact Tidies.store trivial fun _ => .ret

theorem driveAll_tidies : ∀ (jobs : List RepairJob) (summary : TickSummary),
    Tidies (driveAll deps config jobs summary)
  | [], _ => .ret
  | job :: jobs, summary => by
    refine .shuttingDown fun stopping => ?_
    split_ifs
    · exact .ret
    · exact drive_tidies.bind fun _ => driveAll_tidies jobs _

/-- A tick tells of each transition it takes for a change, before it writes the next. -/
theorem tick_tidies : Tidies (tick deps config) := by
  refine .now fun now => .call (c := .recordTick now) trivial fun _ => .store trivial fun r => ?_
  split
  · exact .ret
  · refine (driveAll_tidies _ _).bind fun summary => .now fun _ => ?_
    exact .publish (fun _ => ⟨not_false, nofun⟩) .ret

end

/-! ## What the operator's actions leave behind -/

theorem moved_other {id : JobId} {log : List LogEntry} : Moved id (.other :: log) ↔ Moved id log := by
  simp [Moved]

theorem moved_append {id : JobId} {log log' : List LogEntry} :
    Moved id (log ++ log') ↔ Moved id log ∨ Moved id log' := by
  simp only [Moved, List.mem_append, or_and_right, exists_or]

/-- The log is tidy, and tells of the one job exactly when the action went well. -/
def Reports (id : JobId) (result : Except WebError Unit) (log : List LogEntry) : Prop :=
  Tidy log ∧ ∀ job, Moved job log ↔ result = .ok () ∧ job = id

section
variable {id : JobId} {job : RepairJob} {target : RepairState} {reason : TransitionReason}
  {u : TransitionUpdate}

theorem reports_nothing {e : WebError} : Reports id (.error e) [] :=
  ⟨.nil, fun _ => iff_of_false (fun ⟨_, _, h, _⟩ => List.not_mem_nil h) nofun⟩

/-- An operator's transition is told of wherever the store does not refuse it. -/
theorem applyAction_reports (hreason : reason ≠ .progress) :
    (applyAction job target reason u).Logs working fun r log => Reports job.id r log := by
  unfold applyAction
  split
  · exact reports_nothing
  · rename_i t ht
    have htold : t.reason ≠ .progress := by rwa [(validateTransition_ok ht).2.2.1]
    refine M.logs_write fun r => ?_
    split
    · refine ⟨Tidy.untold not_taken_error .nil, fun id => iff_of_false ?_ nofun⟩
      rintro ⟨t', r', hw, htaken⟩
      cases List.mem_singleton.1 hw
      exact not_taken_error htaken
    · refine M.logs_publish ⟨Tidy.tell_now (taken_ok htold) .nil, fun id => ?_⟩
      constructor
      · rintro ⟨t', r', hw, -⟩
        rcases List.mem_cons.1 hw with heq | hw
        · cases heq
          exact ⟨rfl, rfl⟩
        · cases List.mem_singleton.1 hw
      · rintro ⟨-, rfl⟩
        exact ⟨t, _, List.mem_cons_self .., taken_ok htold⟩

theorem applyAction_tidies (hreason : reason ≠ .progress) :
    Tidies (applyAction job target reason u) :=
  (applyAction_reports hreason).mono fun _ _ h => h.1

theorem tidies_of_reports {p : M (Except WebError Unit)}
    (h : p.Logs working fun r log => Reports id r log) : Tidies p := h.mono fun _ _ hlog => hlog.1

theorem withJob_reports {action : RepairJob → M (Except WebError Unit)}
    (h : ∀ job, (action job).Logs working fun r log => Reports job.id r log) :
    (withJob id action).Logs working fun r log => Reports id r log := by
  have hother : ∀ {job r log}, Reports job r log → Reports job r (.other :: log) :=
    fun h => ⟨h.1.other, fun job => moved_other.trans (h.2 job)⟩
  refine M.logs_store fun r hr => ?_
  split
  · exact hother reports_nothing
  · exact hother reports_nothing
  · rename_i job
    have hid : job.id = id := hr job rfl
    exact hid ▸ (h job).mono fun _ _ hlog => hother hlog

theorem retryAction_reports :
    (retryAction id).Logs working fun r log => Reports id r log := by
  refine withJob_reports fun job => ?_
  split
  · exact reports_nothing
  · exact applyAction_reports nofun

theorem abandonAction_reports :
    (abandonAction id).Logs working fun r log => Reports id r log :=
  withJob_reports fun _ => applyAction_reports nofun

theorem discardThen_tidies (hreason : reason ≠ .progress) :
    Tidies (discardThen job target reason u) := by
  refine (Tidies.silent (discardStaged_only (fun _ _ => trivial) fun _ _ => trivial)).bind
    fun r => ?_
  split
  · exact .ret
  · exact applyAction_tidies hreason

theorem withJob_tidies {action : RepairJob → M (Except WebError Unit)}
    (h : ∀ job, Tidies (action job)) : Tidies (withJob id action) := by
  refine Tidies.store trivial fun r => ?_
  split
  · exact .ret
  · exact .ret
  · exact h _

theorem finishChoice_tidies {detail : Json} {files : List PlannedFile} :
    Tidies (finishChoice job detail files) := by
  unfold finishChoice
  split_ifs
  · refine Tidies.store trivial fun r => ?_
    split
    · exact .ret
    · exact .publish (fun _ => ⟨not_false, not_false⟩) .ret
  · refine Tidies.bind (applyAction_tidies (by nofun)) fun r => ?_
    split <;> exact .ret

theorem chooseCandidateAction_tidies {path : String} {index : ℕ} :
    Tidies (chooseCandidateAction id path index) := by
  refine Tidies.store trivial fun r => ?_
  split
  · exact .ret
  · exact .ret
  · split
    · exact .ret
    · refine Tidies.store trivial fun r => ?_
      split
      · exact .ret
      · simp only
        split
        · exact .ret
        · refine Tidies.store trivial fun r => ?_
          split
          · exact .ret
          · split
            · exact .ret
            · exact (Tidies.silent (M.only_expect _ trivial)).bind fun _ => finishChoice_tidies

theorem OperatorProgram.tidies {p : M Unit} (h : OperatorProgram id p) : Tidies p := by
  cases h with
  | retry => exact (tidies_of_reports retryAction_reports).bind fun _ => .ret
  | approveResume =>
    refine Tidies.bind (withJob_tidies fun job => ?_) fun _ => .ret
    split
    · exact .ret
    · split_ifs
      · exact .ret
      · exact applyAction_tidies nofun
  | chooseCandidate path index => exact chooseCandidateAction_tidies.bind fun _ => .ret
  | abandon => exact (tidies_of_reports abandonAction_reports).bind fun _ => .ret
  | abandonAndDiscard =>
    exact Tidies.bind (withJob_tidies fun _ => discardThen_tidies nofun) fun _ => .ret
  | restart => exact Tidies.bind (withJob_tidies fun _ => discardThen_tidies nofun) fun _ => .ret

end

/-! ## What the bulk actions leave behind -/

theorem mem_changed {id job : JobId} {r : Except WebError Unit} {results : List Api.BulkResult} :
    job ∈ Api.changed (Api.bulkResult id r :: results) ↔
      r = .ok () ∧ job = id ∨ job ∈ Api.changed results := by
  cases r with
  | error e => simp [Api.changed, Api.bulkResult]
  | ok u => simp [Api.changed, Api.bulkResult]

/-- The jobs listed as changed are those told of. -/
theorem bulkResults_reports {run : JobId → M (Except WebError Unit)}
    (h : ∀ id, (run id).Logs working fun r log => Reports id r log) : ∀ ids : List JobId,
    (Api.bulkResults run ids).Logs working fun results log =>
      Tidy log ∧ ∀ job, Moved job log ↔ job ∈ Api.changed results
  | [] => ⟨.nil, fun job => iff_of_false (fun ⟨_, _, h, _⟩ => List.not_mem_nil h) List.not_mem_nil⟩
  | id :: ids => by
    refine (h id).bind fun r log hlog => (bulkResults_reports h ids).bind fun results log' hlog' => ?_
    show Tidy (log ++ (log' ++ [])) ∧ ∀ job, Moved job (log ++ (log' ++ [])) ↔ _
    rw [List.append_nil]
    refine ⟨hlog.1.append hlog'.1, fun job => ?_⟩
    rw [moved_append, hlog.2, hlog'.2, mem_changed]

/-- What the workflow leaves behind, the service around it does. -/
theorem logs_work {α : Type} {p : M α} {Q : α → List LogEntry → Prop} (h : p.Logs working Q) :
    (S.work p).Logs serving Q := by
  induction p generalizing Q with
  | ret a => exact h
  | call c k ih => exact fun r hr => ih r (h r hr)

theorem tellChanged_logs {jobs : List JobId} : (Api.tellChanged jobs).Logs serving fun _ log =>
    jobs = [] ∧ log = [] ∨ log = [.other, .told (.jobsChanged jobs)] := by
  unfold Api.tellChanged
  split_ifs with h
  · exact .inl ⟨h, rfl⟩
  · exact fun _ _ _ _ => .inr rfl

/-- A sum of changes at the end of a log that has none before. -/
theorem moved_of_sum {body tail : List LogEntry} (hbody : ∀ e id, .told e ∈ body → ¬e.SumsUp id)
    (htail : ∀ e id, .told e ∈ tail → e.SumsUp id → Moved id body) {id : JobId}
    {before : List LogEntry} {e : BusKind} (h : before ++ [.told e] <+: body ++ tail)
    (hcovers : e.SumsUp id) : Moved id before := by
  obtain ⟨after, heq⟩ := h
  rw [List.append_assoc] at heq
  rcases List.append_eq_append_iff.1 heq with ⟨more, hbefore, hmore⟩ | ⟨more, hbefore, hmore⟩
  · -- the event is in the body, or the first of the tail
    cases more with
    | nil =>
      rw [List.append_nil] at hbefore
      have he : .told e ∈ tail := by
        rw [List.nil_append] at hmore
        exact hmore ▸ List.mem_cons_self ..
      exact hbefore ▸ htail e id he hcovers
    | cons x more =>
      cases hmore
      exact absurd hcovers (hbody e id (hbefore ▸ List.mem_append_right _ (List.mem_cons_self ..)))
  · have he : .told e ∈ tail := by
      rw [hmore]
      exact List.mem_append_right _ (List.mem_cons_self ..)
    rw [hbefore]
    exact moved_append.2 (.inl (htail e id he hcovers))

/-- A bulk action over the interface is announced when every replay is a change. -/
theorem bulk_announces {action : String} {ids : List JobId}
    {run : JobId → M (Except WebError Unit)}
    (h : ∀ id, (run id).Logs working fun r log => Reports id r log) :
    (Api.bulk action ids run).Logs serving fun _ log => Announces log ↔ Meets .each log := by
  unfold Api.bulk
  split_ifs
  · exact announces_iff .nil fun _ _ _ h => by simp at h
  · refine (logs_work (bulkResults_reports h ids)).bind fun results body hbody => ?_
    refine tellChanged_logs.bind fun _ tail htail => ?_
    show Announces (body ++ (tail ++ [])) ↔ Meets .each (body ++ (tail ++ []))
    rw [List.append_nil]
    obtain ⟨⟨hsteady, hsums⟩, hmoved⟩ := hbody
    have hsteady' : Steady tail := by
      rcases htail with ⟨-, rfl⟩ | rfl
      · exact .nil
      · exact .still trivial (.still (fun _ => not_false) .nil)
    refine announces_iff (hsteady.append hsteady') fun id before e hbefore hcovers =>
      moved_of_sum hsums (fun e id he hcovers => ?_) hbefore hcovers
    rcases htail with ⟨-, rfl⟩ | rfl
    · cases he
    · rcases List.mem_cons.1 he with heq | he
      · cases heq
      · cases List.mem_singleton.1 he
        exact (hmoved id).2 hcovers

/-! ## Reconciliation -/

/-- A call that publishes nothing. -/
def Mute : Call → Prop
  | .publish _ => False
  | _ => True

theorem LogEntry.ofCall_mute {c : Call} (h : Mute c) (r : Ans c) (e : BusKind) :
    LogEntry.ofCall c r ≠ .told e := by
  cases c with
  | store c => cases c <;> nofun
  | publish e => cases h
  | _ => nofun

theorem Asks.mute {c : Call} (h : Asks c) : Mute c := by
  cases c <;> trivial

theorem reconcileActionableJob_mute {job : RepairJob} : (reconcileActionableJob job).Only Mute := by
  refine (realityBackedTarget_asks.mono fun _ => Asks.mute).bind fun target => ?_
  split_ifs
  · trivial
  · split
    · trivial
    · refine M.only_store trivial fun r => ?_
      split <;> trivial

theorem reconcileParkedJob_mute {job : RepairJob} : (reconcileParkedJob job).Only Mute := by
  unfold reconcileParkedJob
  split
  · trivial
  · refine (realityBackedTarget_asks.mono fun _ => Asks.mute).bind fun target => ?_
    split_ifs
    · trivial
    · refine M.only_store trivial fun r => ?_
      split <;> trivial

/-- A log that ends with a reconciliation's activity and tells of nothing before, or holds neither
    a write nor an event. -/
def Concludes (log : List LogEntry) : Prop :=
  (∃ body a, (∀ e, .told e ∉ body) ∧ a.kind = .reconcile ∧
    log = body ++ [.told (.work (.activity a))]) ∨
  (∀ e, .told e ∉ log) ∧ ∀ id t r, .write id t r ∉ log

theorem Concludes.after {l log : List LogEntry} (h : Concludes log) (htold : ∀ e, .told e ∉ l)
    (hw : ∀ id t r, .write id t r ∉ l) : Concludes (l ++ log) := by
  rcases h with ⟨body, a, hbody, ha, rfl⟩ | ⟨htold', hw'⟩
  · refine .inl ⟨l ++ body, a, fun e he => ?_, ha, (List.append_assoc ..).symm⟩
    exact (List.mem_append.1 he).elim (htold e) (hbody e)
  · refine .inr ⟨fun e he => ?_, fun id t r hmem => ?_⟩
    · exact (List.mem_append.1 he).elim (htold e) (htold' e)
    · exact (List.mem_append.1 hmem).elim (hw id t r) (hw' id t r)

theorem Concludes.other {log : List LogEntry} (h : Concludes log) : Concludes (.other :: log) := by
  refine h.after (l := [.other]) (fun e he => ?_) fun id t r hw => ?_
  · cases List.mem_singleton.1 he
  · cases List.mem_singleton.1 hw

theorem reconcileAfter_concludes {cleared : ℕ} :
    (reconcileAfter cleared).Logs working fun _ log => Concludes log := by
  have hmute : ∀ {α : Type} {p : M α}, p.Only Mute → p.Logs working fun _ log => ∀ e, .told e ∉ log :=
    fun h => (h.logs (N := fun x => ∀ e, x ≠ .told e) fun _ r hc => LogEntry.ofCall_mute hc r).mono
      fun _ _ hlog e he => hlog _ he e rfl
  have hnothing : Concludes [] := .inr ⟨fun _ => List.not_mem_nil, fun _ _ _ => List.not_mem_nil⟩
  refine M.logs_store fun r _ => ?_
  split
  · exact hnothing.other
  · refine (hmute (countMoved_only (fun _ => reconcileActionableJob_mute) _)).bind
      fun rewound log₁ h₁ => ?_
    have hparked : listParked.Only Mute := by
      refine M.only_store trivial fun r => ?_
      split <;> trivial
    refine (hmute hparked).bind fun parked log₂ h₂ => ?_
    refine (hmute (countMoved_only (fun _ => reconcileParkedJob_mute) parked)).bind
      fun corrected log₃ h₃ => ?_
    intro now _ _ _
    refine .inl ⟨.other :: (log₁ ++ (log₂ ++ (log₃ ++ [.other]))), { Activity.default with
      kind := .reconcile, time := some now, rewound := rewound }, fun e he => ?_, rfl, ?_⟩
    · simp only [List.mem_cons, List.mem_append, List.not_mem_nil, reduceCtorEq, false_or,
        or_false] at he
      rcases he with he | he | he
      · exact h₁ e he
      · exact h₂ e he
      · exact h₃ e he
    · simp only [List.cons_append, List.append_assoc]
      rfl

theorem reconcileOnStartup_concludes {owner : String} :
    (reconcileOnStartup owner >>= fun _ => pure ()).Logs working fun _ log => Concludes log := by
  have hafter : ∀ cleared : ℕ, (reconcileAfter cleared).Logs working
      fun _ log => Concludes (.other :: log) := fun cleared =>
    reconcileAfter_concludes.mono fun _ log hlog =>
      hlog.other
  have hdone : (reconcileOnStartup owner).Logs working fun _ log => Concludes log := by
    refine M.logs_store fun r _ => ?_
    split
    · exact hafter _
    · exact hafter _
  exact hdone.bind fun _ log hlog => show Concludes (log ++ []) by rwa [List.append_nil]

/-- A reconciliation is announced when each job it writes to is moved. -/
theorem Concludes.announces_iff {log : List LogEntry} (h : Concludes log) :
    Announces log ↔ Meets .once log := by
  rcases h with ⟨body, a, hbody, ha, rfl⟩ | ⟨htold, hw⟩
  · have hlast : ∀ {e}, .told e ∈ body ++ [.told (.work (.activity a))] → e = .work (.activity a) := by
      intro e he
      rcases List.mem_append.1 he with he | he
      · exact absurd he (hbody e)
      · cases List.mem_singleton.1 he
        rfl
    have hbefore : ∀ {id t r}, .write id t r ∈ body ++ [.told (.work (.activity a))] →
        .write id t r ∈ body := by
      intro id t r hw
      rcases List.mem_append.1 hw with hw | hw
      · exact hw
      · cases List.mem_singleton.1 hw
    constructor
    · intro hannounces id t r hw
      obtain ⟨t', hw'⟩ := hannounces.borne id body _ List.prefix_rfl ha ⟨t, r, hbefore hw⟩
      exact ⟨t', List.mem_append_left _ hw'⟩
    · intro hm
      refine ⟨fun id t after hw => .inr ⟨.work (.activity a), ?_, ha⟩, ?_, ?_⟩
      · -- what ends with the activity, and does not start with it, has it in its rest
        rcases List.suffix_concat_iff.1 hw with hnil | ⟨rest, heq, -⟩
        · cases hnil
        · cases rest with
          | nil => cases heq
          | cons x rest =>
            cases heq
            exact List.mem_append_right _ (List.mem_singleton_self _)
      · intro id t r after hw hr e he hmoves
        have hmem : .told e ∈ body ++ [.told (.work (.activity a))] :=
          hw.subset (List.mem_cons_of_mem _ ((List.takeWhile_sublist _).subset he))
        cases hlast hmem
        exact hmoves
      · intro id before e hpre _ hw
        have heq : before = body := by
          rcases List.prefix_concat_iff.1 hpre with heq | hshort
          · exact (List.append_inj' heq rfl).1
          · exact absurd (hshort.subset (List.mem_append_right _ (List.mem_singleton_self _))) (hbody e)
        obtain ⟨t, r, hw⟩ := hw
        obtain ⟨t', hw'⟩ := hm id t r (List.mem_append_left _ (heq ▸ hw))
        exact ⟨t', heq ▸ hbefore hw'⟩
  · refine iff_of_true ⟨fun id t after h => ?_, fun id t r after h => ?_, fun id before e h => ?_⟩
      fun id t r h => absurd h (hw id t r)
    · exact absurd (h.subset (List.mem_cons_self ..)) (hw _ _ _)
    · exact absurd (h.subset (List.mem_cons_self ..)) (hw _ _ _)
    · exact absurd (h.subset (List.mem_append_right _ (List.mem_singleton_self _))) (htold e)

/-! ## The bulk actions of the pages -/

theorem bulk_mute {plan : Review.BulkPlan} : ∀ ids : List JobId, (Review.bulk plan ids).Only Mute
  | [] => trivial
  | id :: ids => by
    refine Only.bind (M.only_store trivial fun r => ?_) fun _ => (bulk_mute ids).bind fun _ => trivial
    split
    · trivial
    · trivial
    · split
      · trivial
      · split
        · trivial
        · refine M.only_store trivial fun r => ?_
          split <;> trivial

/-- What tells of nothing is right where nothing was committed. -/
theorem announces_mute {log : List LogEntry} (h : ∀ e, .told e ∉ log) :
    Announces log ↔ Meets .never log := by
  constructor
  · intro hannounces id t hw
    obtain ⟨after, hafter⟩ := mem_iff_suffix.1 hw
    rcases hannounces.heard id t after hafter with ⟨e, he, -⟩ | ⟨e, he, -⟩
    · exact h e (hafter.subset (List.mem_cons_of_mem _ ((List.takeWhile_sublist _).subset he)))
    · exact h e (hafter.subset (List.mem_cons_of_mem _ he))
  · intro hm
    refine ⟨fun id t after hw => ?_, fun id t r after hw _ e he => ?_, fun id before e hb => ?_⟩
    · exact absurd (mem_iff_suffix.2 ⟨after, hw⟩) (hm id t)
    · exact absurd (hw.subset (List.mem_cons_of_mem _ ((List.takeWhile_sublist _).subset he))) (h e)
    · exact absurd (hb.subset (List.mem_append_right _ (List.mem_singleton_self _))) (h e)

/-! ## Every operation -/

/-- The store of the service finds a job under its own id, unless the database fails. -/
theorem SqliteRepairStore.Answers.foundById {s s' : SqliteRepairStore} {now : Time} {c : StoreCall}
    {r : c.Ans} (h : s.Answers now c r s') : FoundById (.store c) r := by
  cases c with
  | job id =>
    intro job hjob
    cases h with
    | served =>
      obtain ⟨row, hrow, rfl⟩ := Option.map_eq_some_iff.1 (Except.ok.inj hjob)
      exact (Table.get?_some hrow).2
    | failed detail => cases hjob
  | _ => trivial

/-- Whatever the store answers an operation, exactly the transitions it commits are announced if and
    only if none of its writes is answered otherwise than the operation takes for granted. -/
theorem announces_committed {telling : Telling} {p : S Unit} (h : Operation telling p) :
    p.Logs serving fun _ log => Announces log ↔ Meets telling log := by
  have htidy : ∀ {α : Type} {q : M α}, Tidies q →
      (S.work q).Logs serving fun _ log => Announces log ↔ Meets .each log := fun hq =>
    (logs_work hq).mono fun _ log hlog => announces_iff hlog.1 fun id before e hbefore hcovers =>
      absurd hcovers (hlog.2 e id (hbefore.subset (List.mem_append_right _ (List.mem_singleton_self _))))
  have hpage : ∀ plan ids, (S.work (Review.bulk plan ids >>= fun _ => pure ())).Logs serving
      fun _ log => Announces log ↔ Meets .never log := fun plan ids =>
    (logs_work (((bulk_mute ids).bind fun _ => only_ret.2 trivial).logs (N := fun x => ∀ e, x ≠ .told e)
      fun _ r hc => LogEntry.ofCall_mute hc r)).mono
        fun _ _ hlog => announces_mute fun e he => hlog _ he e rfl
  have hdone : ∀ {α : Type} {q : S α},
      q.Logs serving (fun _ log => Announces log ↔ Meets .each log) →
        (q >>= fun _ => pure ()).Logs serving fun _ log => Announces log ↔ Meets .each log :=
    fun hq => hq.bind fun _ log hlog => show Announces (log ++ []) ↔ Meets .each (log ++ []) by
      rwa [List.append_nil]
  cases h with
  | tick deps config => exact htidy (tick_tidies.bind fun _ => .ret)
  | action hp => exact htidy hp.tidies
  | bulkRetry ids => exact hdone (bulk_announces fun _ => retryAction_reports)
  | bulkAbandon ids => exact hdone (bulk_announces fun _ => abandonAction_reports)
  | reconcile owner => exact (logs_work reconcileOnStartup_concludes).mono fun _ _ => Concludes.announces_iff
  | pageRetry ids => exact hpage _ ids
  | pageAbandon ids => exact hpage _ ids

/-- A job that waits for its operator. -/
def waitingJob : RepairJob :=
  readJob { discoveredRow ⟨1⟩ 0 ⟨⟨"tracker"⟩, ⟨"7"⟩, "show", none, 10, none⟩ with
    state := .awaitingReview }

/-- What abandoning it writes. -/
def waitingAbandoned : Transition := ⟨.awaitingReview, .failed, .operatorAbandon, none, rfl⟩

/-- Surroundings in which it waits, and a write to it is answered with `outcome`. -/
def answerWaiting (outcome : Applied) : (c : ServiceCall) → Option c.Ans
  | .work (.store (.job id)) => some (.ok (if id = waitingJob.id then some waitingJob else none))
  | .work (.store (.apply ..)) => some (.ok outcome)
  | .work (.publish _) => some ()
  | _ => none

theorem answerWaiting_byId {outcome : Applied} (c : ServiceCall) (r : c.Ans)
    (h : answerWaiting outcome c = some r) : serving.answers c r := by
  unfold answerWaiting at h
  split at h
  · cases h
    intro job hjob
    split_ifs at hjob with hid
    · cases hjob
      exact hid.symm
    · cases hjob
  · trivial
  · trivial
  · cases h

/-- The event of an abandonment that is committed comes after it. -/
theorem abandon_announced : Announces [.other, .write ⟨1⟩ waitingAbandoned (.ok .applied),
    .told (.work (.jobTransitioned ⟨1⟩ .awaitingReview .failed "operator_abandon"))] := by
  refine ((announces_committed (.action (@OperatorProgram.abandon ⟨1⟩))).of_replay
    (h := answerWaiting .applied) (a := ()) answerWaiting_byId rfl).2 ?_
  intro id t ht
  change _ ∈ [LogEntry.other, .write ⟨1⟩ waitingAbandoned (.ok .applied),
    .told (.work (.jobTransitioned ⟨1⟩ .awaitingReview .failed "operator_abandon"))] at ht
  simp at ht

/-- A page's bulk action tells nobody what it commits; and an abandonment that finds its job failed
    already is told of as a change. -/
theorem commits_unannounced :
    (¬(S.work (Review.bulkAbandon [⟨1⟩] >>= fun _ => pure ())).Logs serving
      fun _ log => Announces log) ∧
    ¬(S.work (abandonAction ⟨1⟩ >>= fun _ => pure ())).Logs serving fun _ log => Announces log := by
  constructor
  · intro h
    have hlog : Announces [.other, .write ⟨1⟩ waitingAbandoned (.ok .applied)] :=
      h.of_replay (h := answerWaiting .applied) (a := ()) answerWaiting_byId rfl
    rcases hlog.heard ⟨1⟩ waitingAbandoned [] (List.suffix_cons ..) with ⟨e, he, -⟩ | ⟨e, he, -⟩
    · cases he
    · cases he
  · intro h
    have hlog : Announces [.other, .write ⟨1⟩ waitingAbandoned (.ok .alreadyInTargetState),
        .told (.work (.jobTransitioned ⟨1⟩ .awaitingReview .failed "operator_abandon"))] :=
      h.of_replay (h := answerWaiting .alreadyInTargetState) (a := ()) answerWaiting_byId rfl
    exact hlog.quiet ⟨1⟩ waitingAbandoned _ _ (List.suffix_cons ..) nofun _ (List.mem_cons_self ..) rfl

end SeedMedic
