/-
  What an operator is shown of a job's candidates, and what choosing one of them stores, with
  workers and other operators about.
-/
import SeedMedic.Repair.Snapshots
import SeedMedic.Web.ChooseCandidate

namespace SeedMedic

open Lib Prog SqliteRepairStore

/-! ## Looking and choosing -/

/-- Look at what was offered for a job, and choose from it at any time later. -/
def lookThenChoose (id : JobId) (path : String) (index : ℕ) : M Unit := do
  match ← M.store (.history id) with
  | .error _ => pure ()
  | .ok _ => chooseCandidateAction id path index >>= fun _ => pure ()

/-- Who runs a thread: anyone, or an operator who looks and then chooses. -/
inductive Role (κ : Type) where
  | anyone (k : κ)
  | chooser (k : κ) (id : JobId) (path : String) (index : ℕ)
  deriving DecidableEq

/-- The history of a job as it was read, and how long the audit trail was then. -/
structure Reading where
  id : JobId
  history : List TransitionRecord
  trail : ℕ

/-- The last readings, after a call was answered with a trail of that length. -/
def readAlso (readings : List Reading) (trail : ℕ) : (c : Call) → Ans c → List Reading
  | .store (.history id), .ok history => ⟨id, history, trail⟩ :: readings
  | _, _ => readings

/-- A plan has the candidate of a place in the list a history records for a path. -/
def Stores (history : List TransitionRecord) (path : String) (index : ℕ) (files : List PlannedFile) :
    Prop :=
  ∃ p, SafeRelativePath.parse path = .ok p ∧
    ∃ chosen, (ambiguousCandidates history p.asStr)[index]? = some chosen ∧
      ∃ f ∈ files, f.torrentPath = p ∧ f.source = some chosen.path

/-- A plan that is written holds the choice from the history read last. -/
def choosing {κ : Type} : Role κ → Rules Call Ans (List Reading)
  | .anyone _ =>
    { may := fun _ _ => True
      next := fun c r l l' => ∃ trail, l' = readAlso l trail c r }
  | .chooser _ id path index =>
    { may := fun c l => match c with
        | .store (.apply id' _ u) => id' = id ∧ u.patch.fileProgress = none ∧ ∀ files, u.patch.files = some files →
          ∃ last shown rest, l = last :: shown :: rest ∧ last.id = id ∧ shown.id = id ∧
            Stores last.history path index files
        | .store (.recordProgress ..) => True
        | .store (.job _) | .store (.history _) | .store (.plannedFiles _) => True
        | .publish _ | .panic => True
        | _ => False
      next := fun c r l l' => (∃ trail, l' = readAlso l trail c r) ∧
        match c, r with
        | .store (.job id'), .ok (some job) => job.id = id'
        | _, _ => True }

section
variable {κ : Type} {l : List Reading}

theorem anyone_obeys {k : κ} (p : M Unit) : p.Obeys (choosing (.anyone k)) l fun _ _ => True := by
  induction p generalizing l with
  | ret a => trivial
  | call c f ih => exact ⟨trivial, fun r l' _ => ih r⟩

theorem chooseIn_stores {path : SafeRelativePath} {chosen : CandidateSummary} {n : ℕ}
    {planned files : List PlannedFile} (h : chooseIn path chosen n planned = some files) :
    ∃ f ∈ files, f.torrentPath = path ∧ f.source = some chosen.path := by
  obtain ⟨i, hi, rfl⟩ := Option.map_eq_some_iff.1 h
  obtain ⟨hi, hp, -⟩ := List.findIdx?_eq_some_iff_getElem.1 hi
  refine ⟨choose chosen n planned[i], ?_, by simpa [choose] using hp, rfl⟩
  rw [List.mem_iff_getElem]
  exact ⟨i, by simpa using hi, by simp⟩

/-- Keeping a plan writes it under the job, once every file has a source. -/
theorem finishChoice_obeys {k : κ} {id : JobId} {path : String} {index : ℕ} {job : RepairJob}
    {detail : Json} {files : List PlannedFile} {last shown : Reading} {rest : List Reading}
    (hid : job.id = id) (hl : l = last :: shown :: rest) (hlast : last.id = id)
    (hshown : shown.id = id) (hstores : Stores last.history path index files) :
    (finishChoice job detail files).Obeys (choosing (.chooser k id path index)) l
      fun _ _ => True := by
  unfold finishChoice
  split_ifs
  · refine M.obeys_store trivial fun r l₁ _ => ?_
    split
    · trivial
    · exact M.obeys_publish trivial fun _ _ => trivial
  · refine Obeys.bind (Q := fun _ _ => True) ?_ fun r l₁ _ => ?_
    · unfold applyAction
      split
      · trivial
      · refine M.obeys_store ⟨hid, rfl, fun fs hfs => ?_⟩ fun r l₁ _ => ?_
        · obtain rfl := Option.some.inj hfs
          exact ⟨last, shown, rest, hl, hlast, hshown, hstores⟩
        · split
          · trivial
          · exact M.obeys_publish trivial fun _ _ => trivial
    · split <;> trivial

theorem lookThenChoose_obeys {k : κ} {id : JobId} {path : String} {index : ℕ} :
    (lookThenChoose id path index).Obeys (choosing (.chooser k id path index)) l fun _ _ => True := by
  refine M.obeys_store trivial fun r l₁ hn => ?_
  obtain ⟨⟨trail, hl₁⟩, -⟩ := hn
  split
  · trivial
  rename_i history
  refine Obeys.bind (Q := fun _ _ => True) ?_ fun _ _ _ => trivial
  refine M.obeys_store trivial fun r l₂ hn => ?_
  obtain ⟨⟨trail₂, hl₂⟩, hjob⟩ := hn
  split
  · trivial
  · trivial
  rename_i job
  split
  · trivial
  rename_i p hp
  refine M.obeys_store trivial fun r l₃ hn => ?_
  obtain ⟨⟨trail₃, hl₃⟩, -⟩ := hn
  split
  · trivial
  rename_i again
  simp only
  split
  · trivial
  rename_i chosen hchosen
  refine M.obeys_store trivial fun r l₄ hn => ?_
  obtain ⟨⟨trail₄, hl₄⟩, -⟩ := hn
  split
  · trivial
  rename_i planned
  split
  · trivial
  rename_i files hfiles
  obtain ⟨f, hf, hfp, hfs⟩ := chooseIn_stores hfiles
  have hstores : Stores again path index files := ⟨p, hp, chosen, hchosen, f, hf, hfp, hfs⟩
  have hexpect : ∀ o : Option Json, (M.expect o).Obeys (choosing (.chooser k id path index)) l₄
      fun _ l' => l' = l₄ := by
    intro o
    cases o with
    | none => exact ⟨trivial, fun e => nomatch e⟩
    | some j => rfl
  refine (hexpect _).bind fun j l₅ hl₅ => ?_
  have hl : l₅ = ⟨job.id, again, trail₃⟩ :: ⟨id, history, trail⟩ :: l := by
    rw [hl₅, hl₄, hl₃, hl₂, hl₁]
    rfl
  exact finishChoice_obeys hjob hl hjob rfl hstores

end

/-! ## Every run -/

/-- The store, the clock, and what each thread has read of histories. -/
structure Shelf (κ : Type) where
  store : SqliteRepairStore
  now : Time
  readings : Role κ → List Reading

namespace Shelf

variable {κ : Type}

/-- A world in which nothing was read yet. -/
def opening (s : SqliteRepairStore) (now : Time) : Shelf κ := ⟨s, now, fun _ => []⟩

/-- A reading says what the trail said. -/
def TrueReading (s : SqliteRepairStore) (rd : Reading) : Prop :=
  rd.trail ≤ s.transitions.length ∧
    rd.history = ((s.transitions.take rd.trail).filter fun r => r.jobId = rd.id).map readTransition

/-- The readings of every thread are true, the latest first. -/
def Truthful (w : Shelf κ) : Prop := ∀ i, (∀ rd ∈ w.readings i, TrueReading w.store rd) ∧
  (w.readings i).Pairwise fun later earlier => earlier.trail ≤ later.trail

theorem truthful_opening (s : SqliteRepairStore) (now : Time) : (opening s now : Shelf κ).Truthful :=
  fun _ => ⟨fun _ h => (by cases h), .nil⟩

theorem TrueReading.grows {s s' : SqliteRepairStore} {rd : Reading} (h : TrueReading s rd)
    (hgrows : s.transitions <+: s'.transitions) : TrueReading s' rd := by
  obtain ⟨added, hadded⟩ := hgrows
  refine ⟨h.1.trans (by simp [← hadded]), ?_⟩
  rw [h.2, ← hadded, List.take_append_of_le_length h.1]

variable [DecidableEq κ]

/-- The world after a call of a thread was answered. -/
def after (w : Shelf κ) (i : Role κ) (c : Call) (r : Ans c) (s : SqliteRepairStore) : Shelf κ :=
  { w with
    store := s
    readings := Function.update w.readings i
      (readAlso (w.readings i) w.store.transitions.length c r) }

end Shelf

/-- What a thread may run. -/
def RoleProgram {κ : Type} : Role κ → M Unit → Prop
  | .anyone _, p => AnyProgram p
  | .chooser _ id path index, p => p = lookThenChoose id path index

/-- Workers, reconciliations, operators and choosers side by side, on one store that may fail. -/
def offering (κ : Type) [DecidableEq κ] : System (Role κ) Call Ans (Shelf κ) where
  answers i c w r w' := ∃ s, w.store.Replies w.now c r s ∧ w' = w.after i c r s
  moves w w' := ∃ now s, w.now ≤ now ∧
    (s = w.store ∨ ∃ h d, w.store.recordDiscovery w.now h = .ok (d, s)) ∧
      w' = { w with store := s, now }
  starts := RoleProgram

section
variable {κ : Type} [DecidableEq κ]

/-- A job that is handed over is the one that was asked for. -/
theorem loaded_id {s s' : SqliteRepairStore} {now : Time} {id : JobId} {job : RepairJob}
    (h : s.Replies now (.store (.job id)) (.ok (some job)) s') : job.id = id := by
  rcases Answers.served_or_failed h with ⟨hr, -⟩ | ⟨detail, hr, -⟩
  · obtain ⟨row, hrow, rfl⟩ := Option.map_eq_some_iff.1 (Except.ok.inj hr).symm
    exact (Table.get?_some hrow).2
  · cases hr

/-- A reading just made is true. -/
theorem read_true {s s' : SqliteRepairStore} {now : Time} {id : JobId} {history : List TransitionRecord}
    (h : s.Replies now (.store (.history id)) (.ok history) s') :
    Shelf.TrueReading s ⟨id, history, s.transitions.length⟩ := by
  rcases Answers.served_or_failed h with ⟨hr, -⟩ | ⟨detail, hr, -⟩
  · refine ⟨le_rfl, ?_⟩
    rw [List.take_length]
    exact Except.ok.inj hr
  · cases hr

/-- A reading is one of before, or just made. -/
theorem readAlso_cases (readings : List Reading) (trail : ℕ) (c : Call) (r : Ans c) :
    readAlso readings trail c r = readings ∨ ∃ id history, c = .store (.history id) ∧
      HEq r (.ok history : Except StoreError (List TransitionRecord)) ∧
        readAlso readings trail c r = ⟨id, history, trail⟩ :: readings := by
  unfold readAlso
  split
  · exact .inr ⟨_, _, rfl, HEq.rfl, rfl⟩
  · exact .inl rfl

/-- Every run keeps the readings true. -/
theorem offering_sound : (offering κ).Sound choosing Shelf.Truthful fun i l w => l = w.readings i where
  start := by
    rintro i p w - hp
    refine ⟨_, rfl, ?_⟩
    cases i with
    | anyone k => exact anyone_obeys p
    | chooser k id path index =>
      obtain rfl := hp
      exact lookThenChoose_obeys
  call := by
    rintro i c w r w' l htrue rfl - ⟨s, hs, rfl⟩
    have hgrows : w.store.transitions <+: s.transitions := by
      rcases hs.wrote with ⟨c', rfl, hw⟩ | rfl
      · exact hw.grows
      · exact List.prefix_rfl
    refine ⟨fun j => ?_, ⟨readAlso (w.readings i) w.store.transitions.length c r, ?_,
      by simp [Shelf.after]⟩, fun j hj m hm => ?_⟩
    · by_cases hj : j = i
      · subst hj
        simp only [Shelf.after, Function.update_self]
        rcases readAlso_cases (w.readings j) w.store.transitions.length c r with
          hsame | ⟨id, history, rfl, hr, hnew⟩
        · rw [hsame]
          exact ⟨fun rd hrd => ((htrue j).1 rd hrd).grows hgrows, (htrue j).2⟩
        · obtain rfl := eq_of_heq hr
          rw [hnew]
          refine ⟨fun rd hrd => ?_, .cons (fun rd hrd => ((htrue j).1 rd hrd).1) (htrue j).2⟩
          rcases List.mem_cons.1 hrd with rfl | hrd
          · exact (read_true hs).grows hgrows
          · exact ((htrue j).1 rd hrd).grows hgrows
      · simp only [Shelf.after, Function.update_of_ne hj]
        exact ⟨fun rd hrd => ((htrue j).1 rd hrd).grows hgrows, (htrue j).2⟩
    · cases i with
      | anyone k => exact ⟨_, rfl⟩
      | chooser k id path index =>
        refine ⟨⟨_, rfl⟩, ?_⟩
        split
        · exact loaded_id hs
        · trivial
    · simp only [Shelf.after, Function.update_of_ne hj]
      exact hm
  move := by
    rintro w w' htrue ⟨now, s, -, hs, rfl⟩
    refine ⟨fun i => ⟨fun rd hrd => ?_, (htrue i).2⟩, fun _ _ hm => hm⟩
    rcases hs with rfl | ⟨h, d, hok⟩
    · exact (htrue i).1 rd hrd
    · refine ((htrue i).1 rd hrd).grows ?_
      rcases recordDiscovery_cases hok with rfl | ⟨id, row, -, htrail, -⟩
      · exact List.prefix_rfl
      · exact htrail ▸ List.prefix_append _ _

/-! ## What is stored -/

/-- The job was not parked between the last two readings of a thread. -/
def NotParkedBetween (w : Shelf κ) (i : Role κ) (id : JobId) : Prop :=
  ∀ last shown rest, w.readings i = last :: shown :: rest →
    ∀ row ∈ (w.store.transitions.take last.trail).drop shown.trail, row.jobId = id →
      row.reason ≠ "review"

/-- The file of a path has the candidate of a place in the list a history records for it. -/
def StoredFrom (s : SqliteRepairStore) (id : JobId) (history : List TransitionRecord) (path : String)
    (index : ℕ) : Prop :=
  ∃ p, SafeRelativePath.parse path = .ok p ∧
    ∃ chosen, (ambiguousCandidates history p.asStr)[index]? = some chosen ∧
      ∃ row ∈ s.fileRows id, row.torrentPath = p ∧ row.sourcePath = some chosen.path.toStringLossy

/-- Two readings without a parking between them offer the same. -/
theorem offers_same {s : SqliteRepairStore} {last shown : Reading}
    (hlast : Shelf.TrueReading s last) (hshown : Shelf.TrueReading s shown)
    (hid : last.id = shown.id) (hle : shown.trail ≤ last.trail)
    (hunparked : ∀ row ∈ (s.transitions.take last.trail).drop shown.trail, row.jobId = shown.id →
      row.reason ≠ "review") (path : String) :
    ambiguousCandidates last.history path = ambiguousCandidates shown.history path := by
  have hsplit : s.transitions.take last.trail =
      s.transitions.take shown.trail ++ (s.transitions.take last.trail).drop shown.trail := by
    conv_lhs => rw [← List.take_append_drop shown.trail (s.transitions.take last.trail)]
    rw [List.take_take, min_eq_left hle]
  have hfind : (last.history.reverse.find? fun r => r.reason = "review") =
      shown.history.reverse.find? fun r => r.reason = "review" := by
    rw [hlast.2, hshown.2, hid, hsplit, List.filter_append, List.map_append, List.reverse_append,
      List.find?_append, Option.or_eq_right_of_none]
    rw [List.find?_eq_none]
    intro record hrecord
    rw [List.mem_reverse, List.mem_map] at hrecord
    obtain ⟨row, hrow, rfl⟩ := hrecord
    obtain ⟨hrow, hjob⟩ := List.mem_filter.1 hrow
    rw [decide_eq_true_iff]
    exact hunparked row hrow (of_decide_eq_true hjob)
  unfold ambiguousCandidates
  rw [hfind]

omit [DecidableEq κ] in
/-- What a chooser may write of a job's files. -/
theorem stored_of_may {s s' : SqliteRepairStore} {now : Time} {k : κ} {id : JobId} {path : String}
    {index : ℕ} {l : List Reading} {c : StoreCall} {r : c.Ans}
    (hmay : (choosing (.chooser k id path index)).may (.store c) l) (h : s.Answers now c r s') :
    s'.fileRows id = s.fileRows id ∨ ∃ last shown rest, l = last :: shown :: rest ∧
      last.id = id ∧ shown.id = id ∧ StoredFrom s' id last.history path index := by
  rcases h.served_or_failed with ⟨-, rfl⟩ | ⟨detail, -, rfl⟩
  · cases c with
    | apply id' t u =>
      obtain ⟨rfl, hprogress, hfiles⟩ := hmay
      simp only [answer]
      cases happly : s.apply now id' t u with
      | error e => exact .inl rfl
      | ok a =>
        obtain ⟨a, s'⟩ := a
        obtain ⟨row, -, ⟨-, -, s₁, hs₁, rfl⟩ | ⟨-, -, -, rfl⟩⟩ := apply_ok happly
        · obtain ⟨-, s₂, hs₂, hrows⟩ := applyPatch_ok hs₁
          rw [hprogress] at hrows
          have hsame : s₁.fileRows id' = s₂.fileRows id' := by
            simp only [fileRows, hrows]
          cases hf : u.patch.files with
          | none =>
            rw [hf] at hs₂
            subst hs₂
            exact .inl hsame
          | some files =>
            rw [hf] at hs₂
            obtain ⟨last, shown, rest, hl, hlast, hshown, p, hp, chosen, hchosen, f, hf, hpath,
              hsource⟩ := hfiles files hf
            refine .inr ⟨last, shown, rest, hl, hlast, hshown, p, hp, chosen, hchosen,
              writePlannedFile id' f, ?_, hpath, by simp [writePlannedFile, hsource]⟩
            show _ ∈ s₁.fileRows id'
            rw [hsame, fileRows_replaceFiles hs₂]
            exact List.mem_map_of_mem hf
        · exact .inl rfl
    | recordProgress id' patch => exact .inl rfl
    | job id' => exact .inl rfl
    | history id' => exact .inl rfl
    | plannedFiles id' => exact .inl rfl
    | _ => exact hmay.elim
  · exact .inl rfl

/-- In every run, what an operator's choice stores is the candidate shown at that place for that
    path when the operator looked, unless the job was parked again between the look and the
    choice. -/
theorem stored_source_was_shown {s₀ : SqliteRepairStore} {now : Time}
    {s : Lib.Config (Role κ) Call Ans (Shelf κ)} {k : κ} {id : JobId} {path : String} {index : ℕ}
    {c : StoreCall} {next : c.Ans → M Unit} {r : c.Ans} {s' : SqliteRepairStore}
    (hreach : (offering κ).Reach (.opening s₀ now) s)
    (hcall : s.threads (.chooser k id path index) = some (.call (.store c) next))
    (hanswer : s.world.store.Answers s.world.now c r s')
    (hunparked : NotParkedBetween s.world (.chooser k id path index) id) :
    s'.fileRows id = s.world.store.fileRows id ∨ ∃ last shown rest,
      s.world.readings (.chooser k id path index) = last :: shown :: rest ∧
        StoredFrom s' id shown.history path index := by
  obtain ⟨htrue, l, rfl, hmay⟩ :=
    offering_sound.permitted (Shelf.truthful_opening s₀ now) hreach hcall
  rcases stored_of_may hmay hanswer with hkept | ⟨last, shown, rest, hl, hlast, hshown, hstored⟩
  · exact .inl hkept
  · refine .inr ⟨last, shown, rest, hl, ?_⟩
    obtain ⟨htrue, hsorted⟩ := htrue (.chooser k id path index)
    rw [hl] at htrue hsorted
    have hle : shown.trail ≤ last.trail := (List.pairwise_cons.1 hsorted).1 shown (by simp)
    have hsame := offers_same (htrue last (by simp)) (htrue shown (by simp)) (hlast.trans hshown.symm)
      hle (hshown ▸ hunparked last shown rest hl)
    obtain ⟨p, hp, chosen, hchosen, hrow⟩ := hstored
    exact ⟨p, hp, chosen, hsame _ ▸ hchosen, hrow⟩

end

/-! ## A library that has changed -/

/-- Answers with two other files in the library. -/
def restocked : (c : Call) → Shelf (Fin 3) → Option (Ans c × SqliteRepairStore)
  | .store c, w => some (w.store.answer w.now c)
  | .now, w => some (w.now, w.store)
  | .library (.findCandidates ..), w => some (.ok [
      ⟨.ofString "/m/w", 10, .filesystem (.ofString "/m")⟩,
      ⟨.ofString "/m/z", 10, .filesystem (.ofString "/m")⟩], w.store)
  | .shuttingDown, w => some (false, w.store)
  | .publish _, w | .notify _, w | .recordTick _, w | .enterStep _, w => some ((), w.store)
  | _, _ => none

/-- A call of a thread with its answer. -/
def restockedFor (i : Role (Fin 3)) (n : ℕ) (p : M Unit) (w : Shelf (Fin 3)) :
    M Unit × Shelf (Fin 3) :=
  System.drive (fun c w => (restocked c w).map fun r => (r.1, w.after i c r.1 r.2)) n p w

def libraryDeps : RepairDeps := { anyDeps with candidateSources := ["library"] }

def libraryTick : M Unit := tick libraryDeps ⟨"a", .fromSecs 60, 4⟩ >>= fun _ => pure ()

def retryFirst : M Unit := retryAction ⟨1⟩ >>= fun _ => pure ()

local instance three : NeZero 3 := ⟨Nat.succ_ne_zero 2⟩

/-- The first candidate for the first job's file, by an operator who looked first. -/
def firstChooser : Role (Fin 3) := .chooser 0 ⟨1⟩ "a" 0

def chooseFirst : M Unit := lookThenChoose ⟨1⟩ "a" 0

/-- The operator has looked. -/
def looked : M Unit × Shelf (Fin 3) := restockedFor firstChooser 1 chooseFirst (.opening oneFile 0)

/-- Then the job is retried and parked again. -/
def relisted : Shelf (Fin 3) :=
  (restockedFor (.anyone 2) 40 libraryTick (restockedFor (.anyone 1) 10 retryFirst looked.2).2).2

theorem restocked_replies {c : Call} {w : Shelf (Fin 3)} {r : Ans c × SqliteRepairStore}
    (h : restocked c w = some r) : w.store.Replies w.now c r.1 r.2 := by
  cases c with
  | store c => cases h; exact .served
  | now => cases h; exact ⟨rfl, rfl⟩
  | library c => cases c <;> cases h; rfl
  | client c => cases h
  | staging c => cases h
  | tracker c => cases h
  | panic => cases h
  | _ => cases h; rfl

theorem restocked_answers {i : Role (Fin 3)} (c : Call) (w : Shelf (Fin 3))
    (r : Ans c × Shelf (Fin 3))
    (h : (restocked c w).map (fun r => (r.1, w.after i c r.1 r.2)) = some r) :
    ∃ w', Relation.ReflTransGen (offering (Fin 3)).moves w w' ∧
      (offering (Fin 3)).answers i c w' r.1 r.2 := by
  obtain ⟨a, ha, rfl⟩ := Option.map_eq_some_iff.1 h
  exact ⟨w, .refl, _, restocked_replies ha, rfl⟩

theorem anyone_starts {k : Fin 3} {p : M Unit} (h : AnyProgram p) :
    (offering (Fin 3)).starts (.anyone k) p := h

/-- The run up to the operator's choice. -/
theorem relisted_reach : ∃ s, (offering (Fin 3)).Reach (.opening oneFile 0) s ∧
    s.threads firstChooser = some (restockedFor firstChooser 3 looked.1 relisted).1 ∧
    s.world = (restockedFor firstChooser 3 looked.1 relisted).2 := by
  obtain ⟨s₁, hs₁, hi₁, hw₁, ho₁⟩ := System.reach_next (S := offering (Fin 3)) (i := firstChooser)
    .refl rfl (p := chooseFirst) rfl restocked_answers 1
  obtain ⟨s₂, hs₂, -, hw₂, ho₂⟩ := System.reach_next hs₁ (i := Role.anyone 1) (p := retryFirst)
    (ho₁ _ (by decide)) (anyone_starts (.operator .retry)) restocked_answers 10
  obtain ⟨s₃, hs₃, -, hw₃, ho₃⟩ := System.reach_next hs₂ (i := Role.anyone 2) (p := libraryTick)
    ((ho₂ _ (by decide)).trans (ho₁ _ (by decide)))
    (anyone_starts (.tick libraryDeps ⟨"a", .fromSecs 60, 4⟩)) restocked_answers 40
  have hi₃ := ((ho₃ firstChooser (by decide)).trans (ho₂ firstChooser (by decide))).trans hi₁
  obtain ⟨s₄, hs₄, hi₄, hw₄, -⟩ := System.reach_drive restocked_answers 3 hs₃ hi₃
  have hworld : s₃.world = relisted := by
    rw [hw₃, hw₂, hw₁]
    rfl
  rw [hworld] at hi₄ hw₄
  exact ⟨s₄, hs₄, hi₄, hw₄⟩

/-- The candidate a history records first for the file, as it is stored. -/
def firstShown (history : List TransitionRecord) : Option String :=
  (ambiguousCandidates history "a")[0]?.map fun c => c.path.toStringLossy

theorem StoredFrom.first {s : SqliteRepairStore} {history : List TransitionRecord}
    (h : StoredFrom s ⟨1⟩ history "a" 0) :
    firstShown history ∈ (s.fileRows ⟨1⟩).map FileRow.sourcePath := by
  obtain ⟨p, hp, chosen, hchosen, row, hrow, -, hsource⟩ := h
  have hpath : p.asStr = "a" := by
    rw [Except.ok.inj (hp.symm.trans fileA.parse_asStr)]
    rfl
  rw [List.mem_map]
  refine ⟨row, hrow, ?_⟩
  rw [hsource, firstShown, ← hpath, hchosen]
  rfl

/-- An operator's choice stores a file that was not offered when the operator looked: the job was
    retried, and its list made anew, in between. -/
theorem stored_source_not_shown : ∃ s c next r s', (offering (Fin 3)).Reach (.opening oneFile 0) s ∧
    s.threads (.chooser 0 ⟨1⟩ "a" 0) = some (.call (.store c) next) ∧
    s.world.store.Answers s.world.now c r s' ∧
    s'.fileRows ⟨1⟩ ≠ s.world.store.fileRows ⟨1⟩ ∧
    ∀ last shown rest, s.world.readings (.chooser 0 ⟨1⟩ "a" 0) = last :: shown :: rest →
      ¬StoredFrom s' ⟨1⟩ shown.history "a" 0 := by
  obtain ⟨s, hs, hthread, hworld⟩ := relisted_reach
  obtain ⟨x, hx, hstored⟩ : ∃ x,
      applies (restockedFor firstChooser 3 looked.1 relisted).1 = some x ∧
        (((restockedFor firstChooser 3 looked.1 relisted).2.store.answer 0
          (.apply x.1 x.2.1 x.2.2)).2.fileRows ⟨1⟩).map FileRow.sourcePath = [some "/m/w"] :=
    Option.map_eq_some_iff.1 (by decide +kernel)
  obtain ⟨k, hk⟩ := applies_some hx
  have hnow : (restockedFor firstChooser 3 looked.1 relisted).2.now = 0 := by decide +kernel
  have hbefore : ((restockedFor firstChooser 3 looked.1 relisted).2.store.fileRows ⟨1⟩).map
      FileRow.sourcePath = [none] := by decide +kernel
  have hread : ((restockedFor firstChooser 3 looked.1 relisted).2.readings firstChooser).map
      (fun rd => firstShown rd.history) = [some "/m/w", some "/m/x"] := by decide +kernel
  refine ⟨s, _, k, _, _, hs, hthread.trans (congrArg some hk), .served, ?_, ?_⟩
  · rw [hworld, hnow]
    intro h
    rw [h, hbefore] at hstored
    cases hstored
  · rw [hworld, hnow]
    intro last shown rest hreadings hshown
    have hfirst := hshown.first
    rw [hstored] at hfirst
    rw [show (restockedFor firstChooser 3 looked.1 relisted).2.readings firstChooser = _ from
      hreadings] at hread
    simp only [List.map_cons, List.cons.injEq] at hread
    rw [hread.2.1] at hfirst
    revert hfirst
    decide

/-- The operator looks and chooses with nobody else about. -/
def choosesAlone : M Unit × Shelf (Fin 3) :=
  restockedFor firstChooser 4 chooseFirst (.opening oneFile 0)

/-- Its choice stores what was offered. -/
theorem stored_source_alone : ∃ s c next r s', (offering (Fin 3)).Reach (.opening oneFile 0) s ∧
    s.threads (.chooser 0 ⟨1⟩ "a" 0) = some (.call (.store c) next) ∧
    s.world.store.Answers s.world.now c r s' ∧
    s'.fileRows ⟨1⟩ ≠ s.world.store.fileRows ⟨1⟩ ∧ ∃ last shown rest,
      s.world.readings (.chooser 0 ⟨1⟩ "a" 0) = last :: shown :: rest ∧
        StoredFrom s' ⟨1⟩ shown.history "a" 0 := by
  obtain ⟨s, hs, hthread, hworld⟩ := System.reach_alone (offering (Fin 3)) (.opening oneFile 0)
    firstChooser (p := chooseFirst) rfl restocked_answers 4
  obtain ⟨x, hx, hstored⟩ : ∃ x, applies choosesAlone.1 = some x ∧
      ((choosesAlone.2.store.answer 0 (.apply x.1 x.2.1 x.2.2)).2.fileRows ⟨1⟩).map
        FileRow.sourcePath = [some "/m/x"] :=
    Option.map_eq_some_iff.1 (by decide +kernel)
  obtain ⟨k, hk⟩ := applies_some hx
  have hnow : choosesAlone.2.now = 0 := by decide +kernel
  have hbefore : (choosesAlone.2.store.fileRows ⟨1⟩).map FileRow.sourcePath = [none] := by
    decide +kernel
  have htrails : (choosesAlone.2.readings firstChooser).map Reading.trail = [1, 1] := by
    decide +kernel
  have hcall := hthread.trans (congrArg some hk)
  have hunparked : NotParkedBetween s.world firstChooser ⟨1⟩ := by
    intro last shown rest hreadings
    rw [hworld] at hreadings
    rw [show choosesAlone.2.readings firstChooser = _ from hreadings] at htrails
    simp only [List.map_cons, List.cons.injEq] at htrails
    rw [htrails.1, htrails.2.1]
    simp
  have hchanged : (s.world.store.answer s.world.now (.apply x.1 x.2.1 x.2.2)).2.fileRows ⟨1⟩ ≠
      s.world.store.fileRows ⟨1⟩ := by
    rw [hworld]
    intro h
    have hsources := congrArg (List.map FileRow.sourcePath) h
    rw [show (System.drive _ 4 chooseFirst (.opening oneFile 0)).2 = choosesAlone.2 from rfl, hnow,
      hstored, hbefore] at hsources
    cases hsources
  exact ⟨s, _, k, _, _, hs, hcall, .served, hchanged,
    (stored_source_was_shown hs hcall .served hunparked).resolve_left hchanged⟩

end SeedMedic
