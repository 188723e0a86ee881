/-
  What the feed is told of the transitions an operation writes.
-/
import SeedMedic.Web.Bulk
import SeedMedic.Web.Calls

namespace SeedMedic

open Lib Prog

/-! ## What is noted of an operation -/

/-- A call of an operation: a transition it has written, or an event it publishes. -/
inductive LogEntry where
  | write (job : JobId) (transition : Transition) (answer : Except StoreError Applied)
  | told (e : BusKind)
  | other

namespace LogEntry

def ofCall : (c : Call) → Ans c → LogEntry
  | .store (.apply id t _), r => write id t r
  | .publish e, _ => told (.work e)
  | _, _ => other

def of : (c : ServiceCall) → c.Ans → LogEntry
  | .work c, r => ofCall c r
  | .send e, _ => told e.kind
  | _, _ => other

end LogEntry

/-- The store finds a job under its own id. -/
def FoundById : (c : Call) → Ans c → Prop
  | .store (.job id), r => ∀ job, r = (.ok (some job) : Except StoreError (Option RepairJob)) →
      job.id = id
  | _, _ => True

/-- The notes of the workflow. -/
def working : Recorder Call Ans LogEntry := ⟨FoundById, .ofCall⟩

def foundById : (c : ServiceCall) → c.Ans → Prop
  | .work c, r => FoundById c r
  | _, _ => True

/-- The notes of the service around it. -/
def serving : Recorder ServiceCall ServiceCall.Ans LogEntry := ⟨foundById, .of⟩

/-- The event says that the job moved. -/
def BusKind.Moves (id : JobId) : BusKind → Prop
  | .work (.jobTransitioned job ..) => job = id
  | _ => False

/-- The event sums up an operation, and covers the job. -/
def BusKind.SumsUp (id : JobId) : BusKind → Prop
  | .jobsChanged jobs => id ∈ jobs
  | .work (.activity a) => a.kind = .reconcile
  | _ => False

def LogEntry.writes (id : JobId) : LogEntry → Bool
  | .write job _ _ => job = id
  | _ => false

/-- What follows a write to a job, up to the next one to it. -/
def window (id : JobId) (after : List LogEntry) : List LogEntry := after.takeWhile fun e => !e.writes id

/-- Each write that was committed is told of after the call, with an event for the job or one that
    sums up the operation; and none is told of that was not. -/
structure Announces (log : List LogEntry) : Prop where
  heard : ∀ id t after, .write id t (.ok .applied) :: after <:+ log →
    (∃ e, .told e ∈ window id after ∧ e.Moves id) ∨ ∃ e, .told e ∈ after ∧ e.SumsUp id
  quiet : ∀ id t r after, .write id t r :: after <:+ log → r ≠ .ok .applied →
    ∀ e, .told e ∈ window id after → ¬e.Moves id
  borne : ∀ id before e, before ++ [.told e] <+: log → e.SumsUp id →
    (∃ t r, .write id t r ∈ before) → ∃ t, .write id t (.ok .applied) ∈ before

/-! ## The operations -/

/-- How an operation tells of what it writes: with each write, once at its end, or not at all. -/
inductive Telling where
  | each
  | once
  | never

/-- What writes transitions. -/
inductive Operation : Telling → S Unit → Prop
  | tick (deps : RepairDeps) (config : WorkerConfig) :
    Operation .each (S.work (tick deps config >>= fun _ => pure ()))
  | action {id : JobId} {p : M Unit} : OperatorProgram id p → Operation .each (S.work p)
  | bulkRetry (ids : List JobId) : Operation .each (Api.bulkRetry ids >>= fun _ => pure ())
  | bulkAbandon (ids : List JobId) : Operation .each (Api.bulkAbandon ids >>= fun _ => pure ())
  | reconcile (owner : String) :
    Operation .once (S.work (reconcileOnStartup owner >>= fun _ => pure ()))
  | pageRetry (ids : List JobId) :
    Operation .never (S.work (Review.bulkRetry ids >>= fun _ => pure ()))
  | pageAbandon (ids : List JobId) :
    Operation .never (S.work (Review.bulkAbandon ids >>= fun _ => pure ()))

/-- What the store has to answer for the announcements to be right: no write finds its job in the
    target state already, unless it is the worker's own progress; reconciliation writes nothing that
    is not committed; and a page's bulk action commits nothing. -/
def Meets : Telling → List LogEntry → Prop
  | .each, log => ∀ id t, .write id t (.ok .alreadyInTargetState) ∈ log → t.reason = .progress
  | .once, log => ∀ id t r, .write id t r ∈ log → ∃ t', .write id t' (.ok .applied) ∈ log
  | .never, log => ∀ id t, .write id t (.ok .applied) ∉ log

/-! ## Logs in which a write is told of right away -/

/-- Whether an answer to a write is taken for a change. -/
def TakenForChange (t : Transition) (r : Except StoreError Applied) : Prop :=
  r = .ok .applied ∨ r = .ok .alreadyInTargetState ∧ t.reason ≠ .progress

/-- An entry that is neither a write nor says that a job moved. -/
def LogEntry.Still : LogEntry → Prop
  | .write .. => False
  | .told e => ∀ id, ¬e.Moves id
  | .other => True

/-- What is taken for a change is told of before anything else is written. -/
inductive Steady : List LogEntry → Prop
  | nil : Steady []
  | still {e : LogEntry} {log : List LogEntry} : e.Still → Steady log → Steady (e :: log)
  | untold {id : JobId} {t : Transition} {r : Except StoreError Applied} {log : List LogEntry} :
    ¬TakenForChange t r → Steady log → Steady (.write id t r :: log)
  | told {id : JobId} {t : Transition} {r : Except StoreError Applied} {between log : List LogEntry}
      {e : BusKind} : TakenForChange t r → (∀ x ∈ between, x.Still) → e.Moves id → Steady log →
    Steady (.write id t r :: (between ++ .told e :: log))

theorem mem_iff_suffix {α : Type} {a : α} {l : List α} : a ∈ l ↔ ∃ after, a :: after <:+ l := by
  constructor
  · intro h
    obtain ⟨before, after, rfl⟩ := List.append_of_mem h
    exact ⟨after, before, rfl⟩
  · rintro ⟨after, h⟩
    exact h.subset (List.mem_cons_self ..)

theorem LogEntry.Still.not_writes {e : LogEntry} (h : e.Still) (id : JobId) : e.writes id = false := by
  cases e <;> first | rfl | cases h

theorem window_still {e : LogEntry} (h : e.Still) (id : JobId) (log : List LogEntry) :
    window id (e :: log) = e :: window id log := by
  simp [window, h.not_writes id]

theorem window_stills {between : List LogEntry} (h : ∀ x ∈ between, x.Still) (id : JobId)
    (log : List LogEntry) : window id (between ++ log) = between ++ window id log := by
  induction between with
  | nil => rfl
  | cons x between ih =>
    rw [List.cons_append, window_still (h x (List.mem_cons_self ..)),
      ih fun y hy => h y (List.mem_cons_of_mem _ hy), List.cons_append]

theorem window_told (id : JobId) (e : BusKind) (log : List LogEntry) :
    window id (.told e :: log) = .told e :: window id log := by
  simp [window, LogEntry.writes]

theorem window_write {id job : JobId} (h : job ≠ id) (t : Transition)
    (r : Except StoreError Applied) (log : List LogEntry) :
    window id (.write job t r :: log) = .write job t r :: window id log := by
  simp [window, LogEntry.writes, h]

theorem window_own (id : JobId) (t : Transition) (r : Except StoreError Applied)
    (log : List LogEntry) : window id (.write id t r :: log) = [] := by
  simp [window, LogEntry.writes]

theorem LogEntry.Still.not_moves {e : BusKind} (h : (LogEntry.told e).Still) (id : JobId) :
    ¬e.Moves id := h id

/-- Entries that are still say of no job that it moved. -/
theorem not_moves_of_stills {between : List LogEntry} (h : ∀ x ∈ between, x.Still) {e : BusKind}
    (he : .told e ∈ between) (id : JobId) : ¬e.Moves id := (h _ he).not_moves id

theorem BusKind.Moves.eq {e : BusKind} {id job : JobId} (h : e.Moves id) (h' : e.Moves job) :
    id = job := by
  cases e with
  | work e =>
    cases e with
    | jobTransitioned => exact h.symm.trans h'
    | _ => cases h
  | _ => cases h

namespace Steady

variable {log log' : List LogEntry} {id : JobId} {e : BusKind}

theorem append (h : Steady log) (h' : Steady log') : Steady (log ++ log') := by
  induction h with
  | nil => exact h'
  | still he _ ih => exact .still he ih
  | untold ht _ ih => exact .untold ht ih
  | told ht hbetween he _ ih =>
    rw [List.cons_append, List.append_assoc, List.cons_append]
    exact .told ht hbetween he ih

/-- Nothing is told of a job before it is written. -/
theorem not_moves (h : Steady log) (he : .told e ∈ window id log) : ¬e.Moves id := by
  induction h with
  | nil => cases he
  | still hx _ ih =>
    rw [window_still hx] at he
    rcases List.mem_cons.1 he with rfl | he
    · exact hx.not_moves id
    · exact ih he
  | @untold job t r log _ _ ih =>
    by_cases hid : job = id
    · rw [hid, window_own] at he
      cases he
    · rw [window_write hid] at he
      rcases List.mem_cons.1 he with heq | he
      · cases heq
      · exact ih he
  | @told job t r between log e' _ hbetween he' _ ih =>
    by_cases hid : job = id
    · rw [hid, window_own] at he
      cases he
    · rw [window_write hid, window_stills hbetween, window_told] at he
      rcases List.mem_cons.1 he with heq | he
      · cases heq
      rcases List.mem_append.1 he with he | he
      · exact not_moves_of_stills hbetween he id
      rcases List.mem_cons.1 he with heq | he
      · cases heq
        exact fun hmoves => hid (he'.eq hmoves)
      · exact ih he

/-- A write is told of, before the next one to its job, exactly when its answer is taken for a
    change. -/
theorem told_iff (h : Steady log) {t : Transition} {r : Except StoreError Applied}
    {after : List LogEntry} (hw : .write id t r :: after <:+ log) :
    (∃ e, .told e ∈ window id after ∧ e.Moves id) ↔ TakenForChange t r := by
  induction h with
  | nil => cases List.suffix_nil.1 hw
  | still hx _ ih =>
    rcases List.suffix_cons_iff.1 hw with heq | hw
    · cases heq
      cases hx
    · exact ih hw
  | untold ht hlog ih =>
    rcases List.suffix_cons_iff.1 hw with heq | hw
    · cases heq
      exact iff_of_false (fun ⟨_, he, hmoves⟩ => hlog.not_moves he hmoves) ht
    · exact ih hw
  | @told job t' r' between log e ht hbetween he hlog ih =>
    rcases List.suffix_cons_iff.1 hw with heq | hw
    · cases heq
      refine iff_of_true ⟨e, ?_, he⟩ ht
      rw [window_stills hbetween, window_told]
      exact List.mem_append_right _ (List.mem_cons_self ..)
    · -- the write is not one of the entries between
      have hskip : ∀ xs : List LogEntry, (∀ x ∈ xs, x.Still ∨ x = .told e) →
          .write id t r :: after <:+ xs ++ log → .write id t r :: after <:+ log := by
        intro xs
        induction xs with
        | nil => exact fun _ h => h
        | cons x xs ihx =>
          intro hx h
          rcases List.suffix_cons_iff.1 h with heq | h
          · cases heq
            rcases hx _ (List.mem_cons_self ..) with hs | hs <;> cases hs
          · exact ihx (fun y hy => hx y (List.mem_cons_of_mem _ hy)) h
      refine ih (hskip (between ++ [.told e]) ?_ (by simpa using hw))
      intro x hx
      rcases List.mem_append.1 hx with hx | hx
      · exact .inl (hbetween x hx)
      · exact .inr (List.mem_singleton.1 hx)

end Steady

/-- An answer to a write of a job was taken for a change. -/
def Moved (id : JobId) (log : List LogEntry) : Prop := ∃ t r, .write id t r ∈ log ∧ TakenForChange t r

/-- Where a write is told of right away, and what sums up covers only what was taken for a change,
    the announcements are right exactly when what is taken for a change is one. -/
theorem announces_iff {log : List LogEntry} (h : Steady log)
    (hsums : ∀ id before e, before ++ [.told e] <+: log → e.SumsUp id → Moved id before) :
    Announces log ↔ Meets .each log := by
  constructor
  · intro ha id t hw
    by_contra hreason
    obtain ⟨after, hafter⟩ := mem_iff_suffix.1 hw
    obtain ⟨e, he, hmoves⟩ := (h.told_iff hafter).2 (.inr ⟨rfl, hreason⟩)
    exact ha.quiet id t _ after hafter nofun e he hmoves
  · intro hm
    have hreal : ∀ {id t r}, .write id t r ∈ log → TakenForChange t r → r = .ok .applied := by
      rintro id t r hw (rfl | ⟨rfl, hreason⟩)
      · rfl
      · exact absurd (hm id t hw) hreason
    refine ⟨fun id t after hw => .inl ((h.told_iff hw).2 (.inl rfl)), ?_, ?_⟩
    · intro id t r after hw hr e he hmoves
      exact hr (hreal (mem_iff_suffix.2 ⟨after, hw⟩) ((h.told_iff hw).1 ⟨e, he, hmoves⟩))
    · intro id before e hbefore hcovers _
      obtain ⟨t, r, hw, ht⟩ := hsums id before e hbefore hcovers
      have hmem : .write id t r ∈ log := hbefore.subset (List.mem_append_left _ hw)
      cases hreal hmem ht
      exact ⟨t, hw⟩

end SeedMedic
