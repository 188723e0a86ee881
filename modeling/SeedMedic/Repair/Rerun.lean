/-
  Two runs of the worker on a job, given the same answers.
-/
import SeedMedic.Lib.Lockstep
import SeedMedic.Repair.RowsAlike

namespace SeedMedic

open Lib Prog SqliteRepairStore

/-! ## What `apply` does to one job -/

namespace SqliteRepairStore

variable {s s' : SqliteRepairStore} {id : JobId} {now : Time}

/-- A plan is only refused for a path that comes twice. -/
theorem applyPatch_error {p : JobPatch} {st : Stamp} {e : StoreError}
    (h : s.applyPatch id p st = .error e) : e = .database uniqueFailed := by
  have hinsert : ∀ (files : List PlannedFile) (s : SqliteRepairStore) (e : StoreError),
      files.foldlM (fun s f => s.insertFile id f) s = .error e → e = .database uniqueFailed := by
    intro files
    induction files with
    | nil =>
      intro s e h
      cases h
    | cons f files ih =>
      intro s e h
      rw [List.foldlM_cons] at h
      cases hf : s.insertFile id f with
      | error e' =>
        rw [hf] at h
        cases h
        unfold insertFile at hf
        split at hf <;> cases hf
        rfl
      | ok s₁ =>
        rw [hf] at h
        exact ih _ _ h
  unfold applyPatch at h
  cases hf : p.files with
  | none =>
    rw [hf] at h
    cases hp : p.fileProgress <;> rw [hp] at h <;> cases h
  | some files =>
    rw [hf] at h
    cases hr : (s.updateJobFields id p st).replaceFiles id files with
    | error e' =>
      simp only [hr] at h
      cases h
      exact hinsert _ _ _ hr
    | ok s₁ =>
      simp only [hr] at h
      cases hp : p.fileProgress <;> rw [hp] at h <;> cases h

/-- The plan of a job after a transition. -/
def movedFiles (id : JobId) (patch : JobPatch) (rows : List FileRow) : List FileRow :=
  let rows := match patch.files with
    | some files => files.map (writePlannedFile id)
    | none => rows
  match patch.fileProgress with
  | some cs => rows.map (progressed id cs)
  | none => rows

theorem apply_movedFiles {t : Transition} {u : TransitionUpdate}
    (h : s.apply now id t u = .ok (.applied, s')) :
    s'.fileRows id = movedFiles id u.patch (s.fileRows id) := by
  obtain ⟨-, -, ⟨-, -, s₁, hs₁, rfl⟩ | ⟨hc, -⟩⟩ := apply_ok h
  · obtain ⟨-, s₂, hplan, hrows⟩ := applyPatch_ok hs₁
    have hplanned : s₂.fileRows id = match u.patch.files with
        | some files => files.map (writePlannedFile id)
        | none => s.fileRows id := by
      cases hf : u.patch.files with
      | none =>
        rw [hf] at hplan
        subst hplan
        rfl
      | some files =>
        rw [hf] at hplan
        exact fileRows_replaceFiles hplan
    unfold movedFiles
    rw [← hplanned]
    cases hp : u.patch.fileProgress with
    | none =>
      rw [hp] at hrows
      rw [fileRows, appendTransition_files, hrows]
      rfl
    | some cs =>
      rw [hp] at hrows
      have hid : ∀ r, (progressed id cs r).jobId = r.jobId := by
        intro r
        unfold progressed
        split_ifs <;> rfl
      rw [fileRows, appendTransition_files, hrows, List.filter_map]
      simp only [Function.comp_def, hid]
      rfl
  · cases hc

/-- What a transition comes to goes by the state of the job alone. -/
theorem apply_same {s₂ : SqliteRepairStore} {r r₂ : JobRow} (hr : s.jobs.get? id = some r)
    (hr₂ : s₂.jobs.get? id = some r₂) (hstate : r.state = r₂.state) (now : Time) (t : Transition)
    (u : TransitionUpdate) :
    (r.state = t.fromState ∧ ∃ s' s₂', s.apply now id t u = .ok (.applied, s') ∧
      s₂.apply now id t u = .ok (.applied, s₂')) ∨
    (s.apply now id t u = .ok (.alreadyInTargetState, s) ∧
      s₂.apply now id t u = .ok (.alreadyInTargetState, s₂)) ∨
    ∃ e, s.apply now id t u = .error e ∧ s₂.apply now id t u = .error e := by
  by_cases hfrom : r.state = t.fromState
  · by_cases hok : ∀ files, u.patch.files = some files → (files.map PlannedFile.torrentPath).Nodup
    · obtain ⟨s', hs'⟩ : ∃ s', s.apply now id t u = .ok (.applied, s') :=
        (apply_applied_iff hr hfrom).2 hok
      obtain ⟨s₂', hs₂'⟩ : ∃ s₂', s₂.apply now id t u = .ok (.applied, s₂') :=
        (apply_applied_iff hr₂ (hstate ▸ hfrom)).2 hok
      exact .inl ⟨hfrom, s', s₂', hs', hs₂'⟩
    · have hrefused : ∀ {s : SqliteRepairStore} {r : JobRow}, s.jobs.get? id = some r →
          r.state = t.fromState → s.apply now id t u = .error (.database uniqueFailed) := by
        intro s r hr hfrom
        unfold apply
        simp only [hr, if_pos hfrom]
        cases hp : (s.moveJob id t u.failureReason (timestamp now)).applyPatch id u.patch
            (timestamp now) with
        | error e =>
          rw [applyPatch_error hp]
          rfl
        | ok s₁ => exact absurd (applyPatch_ok_iff.1 ⟨s₁, hp⟩) hok
      exact .inr (.inr ⟨_, hrefused hr hfrom, hrefused hr₂ (hstate ▸ hfrom)⟩)
  · right
    unfold apply
    simp only [hr, hr₂, if_neg hfrom, ← hstate]
    split_ifs
    · exact .inl ⟨rfl, rfl⟩
    · exact .inr ⟨_, rfl, rfl⟩

end SqliteRepairStore

/-! ## A run of the worker on a job -/

/-- The calls so far with their answers, if any came: nothing is kept of those to the store, and
    of the span around a step. -/
abbrev Hearing := List (Option (Σ c, Option (Ans c)))

/-- A store, and what was heard of everything else. -/
structure Course where
  heard : Hearing
  store : SqliteRepairStore

namespace Course

/-- A call that nothing is kept of. -/
def pass (s : Course) : Course := { s with heard := s.heard ++ [none] }

/-- A call to the store. -/
def stored (s : Course) (store : SqliteRepairStore) : Course := ⟨s.heard ++ [none], store⟩

def hear (s : Course) (c : Call) (r : Option (Ans c)) : Course :=
  { s with heard := s.heard ++ [some ⟨c, r⟩] }

end Course

/-- All that surrounds the worker and its store: after what was heard, what time it is, whether
    the process is killed, whether the database fails, and what is answered. -/
structure Environs where
  clock : Hearing → Time
  killed : Hearing → Bool
  failing : Hearing → Option String
  answer : Hearing → (c : Call) → Option (Ans c)

/-- One call of the worker. -/
def Environs.handle (w : Environs) : (c : Call) → Course → Option (Ans c) × Course
  | .store c, s =>
    if w.killed s.heard then (none, s.pass)
    else match w.failing s.heard with
      | some detail => (some (c.fail (.database detail)), s.pass)
      | none =>
        let r := s.store.answer (w.clock s.heard) c
        (some r.1, s.stored r.2)
  | .enterStep _, s => (some (), s.pass)
  | c, s => (w.answer s.heard c, s.hear c (w.answer s.heard c))

/-- Whether the worker takes a job up, once no lease runs on it. -/
def isDue (now : Stamp) (r : JobRow) : Bool := claimable now { r with leaseExpiresAt := none }

section
variable (deps : RepairDeps) (config : WorkerConfig) (w : Environs) (id : JobId)

/-- The lease the worker takes on a job. -/
def Course.lease (s : Course) : Course :=
  s.stored { s.store with
    jobs := s.store.jobs.update (fun r => r.id = id)
      (leaseRow config.owner (leaseEnd (w.clock s.heard) config.lease)) fun _ => rfl }

/-- The next turn of the worker on a job: where it is due, it is leased and driven. -/
def Course.turn (s : Course) : Course :=
  match s.store.jobs.get? id with
  | none => s
  | some r =>
    if isDue (timestamp (w.clock s.heard)) r then
      ((driveAll deps config [readJob r] .default).carry w.handle (s.lease config w id)).2
    else s.pass

/-- The worker's run on a job, so many turns of it. -/
def Course.run : ℕ → Course → Course
  | 0, s => s
  | n + 1, s => Course.run n (s.turn deps config w id)

end

/-! ## Side by side -/

/-- Two runs on a job that have heard the same and written the same to the trail, the job's rows
    being `r` and `r'`. -/
structure Side (Served : InfoHash → Prop) (Unknown : Prop) (trail trail' : List TransitionRow)
    (id : JobId) (r r' : JobRow) (s s' : Course) : Prop where
  heard : s.heard = s'.heard
  wrote : ∃ rows, s.store.transitions = trail ++ rows ∧ s'.store.transitions = trail' ++ rows
  row : s.store.jobs.get? id = some r
  row' : s'.store.jobs.get? id = some r'
  alike : RowsAlike Served Unknown r r'
  files : RepairState.torrentFetched.since r.state = true →
    s.store.fileRows id = s'.store.fileRows id
  planned : RepairState.matched.since r.state = true → s.store.fileRows id ≠ []

section
variable {Served : InfoHash → Prop} {Unknown : Prop} {trail trail' : List TransitionRow}
  {id : JobId} {r r' : JobRow} {s s' : Course} {w : Environs} {R : Course → Course → Prop}

/-- Neither run hears anything. -/
theorem Side.pass (h : Side Served Unknown trail trail' id r r' s s') :
    Side Served Unknown trail trail' id r r' s.pass s'.pass :=
  { h with heard := congrArg (· ++ [none]) h.heard }

theorem Side.hear (h : Side Served Unknown trail trail' id r r' s s') (c : Call)
    (a : Option (Ans c)) :
    Side Served Unknown trail trail' id r r' (s.hear c a) (s'.hear c a) :=
  { h with heard := congrArg (fun heard : Hearing => heard ++ [some ⟨c, a⟩]) h.heard }

/-- What becomes of a call to the store is said by what was heard: it is cut off, fails, or is
    served. -/
theorem handle_store (w : Environs) (c : StoreCall) (heard : Hearing) :
    (∀ s : Course, s.heard = heard → w.handle (.store c) s = (none, s.pass)) ∨
    (∃ detail, ∀ s : Course, s.heard = heard →
      w.handle (.store c) s = (some (c.fail (.database detail)), s.pass)) ∨
    ∃ now, ∀ s : Course, s.heard = heard → w.handle (.store c) s =
      (some (s.store.answer now c).1, s.stored (s.store.answer now c).2) := by
  by_cases hkilled : w.killed heard = true
  · refine .inl fun s hs => ?_
    subst hs
    exact if_pos hkilled
  · right
    cases hfailing : w.failing heard with
    | some detail =>
      refine .inl ⟨detail, fun s hs => ?_⟩
      subst hs
      simp only [Environs.handle, if_neg hkilled, hfailing]
    | none =>
      refine .inr ⟨w.clock heard, fun s hs => ?_⟩
      subst hs
      simp only [Environs.handle, if_neg hkilled, hfailing]

/-- A call to the store, served alike where it is served. -/
theorem tied_store {c : StoreCall} (hheard : s.heard = s'.heard) (hfailed : R s.pass s'.pass)
    (hserved : ∀ now, (s.store.answer now c).1 = (s'.store.answer now c).1 ∧
      R (s.stored (s.store.answer now c).2) (s'.stored (s'.store.answer now c).2)) :
    Tied w.handle R (.store c) s s' := by
  unfold Tied
  rcases handle_store w c s.heard with hc | ⟨detail, hc⟩ | ⟨now, hc⟩
  · rw [hc s rfl, hc s' hheard.symm]
    exact ⟨rfl, hfailed⟩
  · rw [hc s rfl, hc s' hheard.symm]
    exact ⟨rfl, hfailed⟩
  · rw [hc s rfl, hc s' hheard.symm]
    exact ⟨congrArg some (hserved now).1, (hserved now).2⟩

/-- A call to neither the store nor the span of a step. -/
def Beyond : Call → Prop
  | .store _ | .enterStep _ => False
  | _ => True

theorem handle_beyond {c : Call} (hc : Beyond c) :
    w.handle c s = (w.answer s.heard c, s.hear c (w.answer s.heard c)) := by
  cases c with
  | store c => exact hc.elim
  | enterStep job => exact hc.elim
  | _ => rfl

/-- What is answered is what the store and the clock have it be. -/
theorem Environs.handle_replies {c : Call} {a : Ans c} (ha : w.handle c s = (some a, s')) :
    ∃ now, s.store.Replies now c a s'.store := by
  have houtside : Beyond c → s'.store = s.store := by
    intro hc
    obtain ⟨-, rfl⟩ := Prod.mk.inj ((handle_beyond hc).symm.trans ha)
    rfl
  cases c with
  | store c =>
    rcases handle_store w c s.heard with h | ⟨detail, h⟩ | ⟨now, h⟩ <;> rw [h s rfl] at ha
    · cases ha
    · cases ha
      exact ⟨0, .failed detail⟩
    · cases ha
      exact ⟨now, .served⟩
  | enterStep job =>
    cases ha
    exact ⟨0, rfl⟩
  | now => exact ⟨a, rfl, houtside trivial⟩
  | _ => exact ⟨0, houtside trivial⟩

theorem tied_beyond {c : Call} (hc : Beyond c) (hheard : s.heard = s'.heard)
    (hR : ∀ a, R (s.hear c a) (s'.hear c a)) : Tied w.handle R c s s' := by
  unfold Tied
  rw [handle_beyond hc, handle_beyond hc, ← hheard]
  exact ⟨rfl, hR _⟩

/-- One call outside in both runs. -/
theorem abreast_beyond {α : Type} {Q : α → α → Course → Course → Prop} {c : Call}
    {k k' : Ans c → M α} (hc : Beyond c) (hheard : s.heard = s'.heard)
    (hR : ∀ a, R (s.hear c a) (s'.hear c a))
    (hk : ∀ a, w.answer s.heard c = some a → Abreast R Q
      ((k a).carry w.handle (s.hear c (some a))) ((k' a).carry w.handle (s'.hear c (some a)))) :
    Abreast R Q ((Prog.call c k).carry w.handle s) ((Prog.call c k').carry w.handle s') := by
  have hsame := handle_beyond (w := w) (s := s) hc
  have hsame' := handle_beyond (w := w) (s := s') hc
  rw [← hheard] at hsame'
  cases ha : w.answer s.heard c with
  | none =>
    rw [ha] at hsame hsame'
    rw [carry_call_none hsame, carry_call_none hsame']
    exact hR none
  | some a =>
    rw [ha] at hsame hsame'
    rw [carry_call hsame, carry_call hsame']
    exact hk a ha

/-! ## What the worker writes -/

/-- Two runs on a job with a lease of the same owner. -/
def Level (Served : InfoHash → Prop) (Unknown : Prop) (trail trail' : List TransitionRow)
    (id : JobId) (s s' : Course) : Prop :=
  ∃ r r', Side Served Unknown trail trail' id r r' s s' ∧ r.leaseOwner = r'.leaseOwner

theorem Level.pass (h : Level Served Unknown trail trail' id s s') :
    Level Served Unknown trail trail' id s.pass s'.pass := by
  obtain ⟨r, r', h, hl⟩ := h
  exact ⟨r, r', h.pass, hl⟩

theorem Level.hear (h : Level Served Unknown trail trail' id s s') (c : Call)
    (a : Option (Ans c)) :
    Level Served Unknown trail trail' id (s.hear c a) (s'.hear c a) := by
  obtain ⟨r, r', h, hl⟩ := h
  exact ⟨r, r', h.hear c a, hl⟩

/-- A statement that changes the jobs' rows, but not the state of this one. -/
theorem Side.updated (h : Side Served Unknown trail trail' id r r' s s') {p p' : JobRow → Bool}
    {f f' : JobRow → JobRow} {hf : ∀ a, (f a).id = a.id} {hf' : ∀ a, (f' a).id = a.id}
    {q q' : JobRow} (hq : (if p r then f r else r) = q) (hq' : (if p' r' then f' r' else r') = q')
    (hstate : q.state = r.state) (halike : RowsAlike Served Unknown q q') :
    Side Served Unknown trail trail' id q q'
      (s.stored { s.store with jobs := s.store.jobs.update p f hf })
      (s'.stored { s'.store with jobs := s'.store.jobs.update p' f' hf' }) where
  heard := congrArg (· ++ [none]) h.heard
  wrote := h.wrote
  row := by
    show (s.store.jobs.update p f hf).get? id = _
    rw [Table.get?_update, h.row, Option.map_some, hq]
  row' := by
    show (s'.store.jobs.update p' f' hf').get? id = _
    rw [Table.get?_update, h.row', Option.map_some, hq']
  alike := halike
  files hm := h.files (hstate ▸ hm)
  planned hm := h.planned (hstate ▸ hm)

theorem Side.id_eq (h : Side Served Unknown trail trail' id r r' s s') : r.id = id ∧ r'.id = id :=
  ⟨(Table.get?_some h.row).2, (Table.get?_some h.row').2⟩

/-- A transition that writes what the next state goes by. -/
theorem tied_apply (h : Level Served Unknown trail trail' id s s') {t : Transition}
    {u : TransitionUpdate} (hbrings : u.patch.Brings t.fromState t.toState) :
    Tied w.handle (Level Served Unknown trail trail' id) (.store (.apply id t u)) s s' := by
  obtain ⟨r, r', hs, hl⟩ := h
  refine tied_store hs.heard (Level.pass ⟨r, r', hs, hl⟩) fun now => ?_
  simp only [answer]
  rcases apply_same hs.row hs.row' hs.alike.state now t u with
    ⟨hfrom, s₁, s₁', happly, happly'⟩ | ⟨happly, happly'⟩ | ⟨e, happly, happly'⟩
  · rw [happly, happly']
    refine ⟨rfl,
      patchRow u.patch (timestamp now) (transitionRow t u.failureReason (timestamp now) r),
      patchRow u.patch (timestamp now) (transitionRow t u.failureReason (timestamp now) r'),
      ⟨congrArg (· ++ [none]) hs.heard, ?_, ?_, ?_, ?_, ?_, ?_⟩, hl⟩
    · obtain ⟨rows, hrows, hrows'⟩ := hs.wrote
      refine ⟨rows ++
        [⟨id, t.fromState, t.toState, t.reason.asStr, u.detail, timestamp now⟩], ?_, ?_⟩
      · show s₁.transitions = _
        rw [apply_applied_transitions happly, hrows, List.append_assoc]
      · show s₁'.transitions = _
        rw [apply_applied_transitions happly', hrows', List.append_assoc]
    · show s₁.jobs.get? id = _
      rw [apply_applied_get happly, hs.row, Option.map_some, movedRow, if_pos hs.id_eq.1]
    · show s₁'.jobs.get? id = _
      rw [apply_applied_get happly', hs.row', Option.map_some, movedRow, if_pos hs.id_eq.2]
    · exact hs.alike.moved hfrom hbrings _
    · intro hm
      show s₁.fileRows id = s₁'.fileRows id
      rw [apply_movedFiles happly, apply_movedFiles happly']
      rcases hbrings.files hm with hsrc | hsome
      · rw [hs.files (hfrom ▸ hsrc)]
      · obtain ⟨files, hfiles⟩ := Option.isSome_iff_exists.1 hsome
        simp only [movedFiles, hfiles]
    · intro hm
      show s₁.fileRows id ≠ []
      rw [apply_movedFiles happly]
      have hrows : (match u.patch.files with
          | some files => files.map (writePlannedFile id)
          | none => s.store.fileRows id) ≠ [] := by
        rcases hbrings.planned hm with ⟨hsrc, hnone⟩ | ⟨files, hfiles, hne⟩
        · rw [hnone]
          exact hs.planned (hfrom ▸ hsrc)
        · rw [hfiles]
          simpa using hne
      unfold movedFiles
      cases u.patch.fileProgress with
      | none => exact hrows
      | some cs => simpa using hrows
  · rw [happly, happly']
    exact ⟨rfl, Level.pass ⟨r, r', hs, hl⟩⟩
  · rw [happly, happly']
    exact ⟨rfl, Level.pass ⟨r, r', hs, hl⟩⟩

theorem tied_recordProgress (h : Level Served Unknown trail trail' id s s') {patch : JobPatch} :
    Tied w.handle (Level Served Unknown trail trail' id)
      (.store (.recordProgress id patch)) s s' := by
  obtain ⟨r, r', hs, hl⟩ := h
  refine tied_store hs.heard (Level.pass ⟨r, r', hs, hl⟩) fun now =>
    ⟨rfl, patchRow patch (timestamp now) r, patchRow patch (timestamp now) r', ?_, hl⟩
  exact hs.updated (if_pos (decide_eq_true hs.id_eq.1)) (if_pos (decide_eq_true hs.id_eq.2)) rfl
    (hs.alike.patched patch _)

theorem tied_release (h : Level Served Unknown trail trail' id s s') {retryAt : Option Time}
    {countAttempt : Bool} : Tied w.handle (Level Served Unknown trail trail' id)
      (.store (.release id retryAt countAttempt)) s s' := by
  obtain ⟨r, r', hs, hl⟩ := h
  refine tied_store hs.heard (Level.pass ⟨r, r', hs, hl⟩) fun now =>
    ⟨rfl, releaseRow (retryAt.map timestamp) countAttempt (timestamp now) r,
      releaseRow (retryAt.map timestamp) countAttempt (timestamp now) r', ?_, rfl⟩
  refine hs.updated (if_pos (decide_eq_true hs.id_eq.1)) (if_pos (decide_eq_true hs.id_eq.2)) rfl ?_
  exact { hs.alike with
    attempts := congrArg (· + if countAttempt then 1 else 0) hs.alike.attempts
    nextAttemptAt := rfl }

/-- Whether a job's lease is held is said by its own row. -/
theorem renewLease_held {s : SqliteRepairStore} {r : JobRow} (hr : s.jobs.get? id = some r)
    (now : Time) (owner : String) (lease : Duration) :
    (s.renewLease now id owner lease).1 = decide (r.leaseOwner = some owner) := by
  obtain ⟨hmem, hid⟩ := Table.get?_some hr
  have hany : (s.renewLease now id owner lease).1 = true ↔
      ∃ q ∈ s.jobs.rows, decide (q.id = id ∧ q.leaseOwner = some owner) = true := List.any_eq_true
  rw [Bool.eq_iff_iff, hany]
  simp only [decide_eq_true_eq]
  constructor
  · rintro ⟨q, hq, hqid, howner⟩
    have hget := Table.get?_eq_some hq
    rw [hqid, hr] at hget
    cases hget
    exact howner
  · exact fun howner => ⟨r, hmem, hid, howner⟩

/-- The lease of one job is held in both runs or in neither. -/
theorem tied_renewLease (h : Level Served Unknown trail trail' id s s') {owner : String}
    {lease : Duration} : Tied w.handle (Level Served Unknown trail trail' id)
      (.store (.renewLease id owner lease)) s s' := by
  obtain ⟨r, r', hs, hl⟩ := h
  refine tied_store hs.heard (Level.pass ⟨r, r', hs, hl⟩) fun now => ⟨?_, ?_⟩
  · show Except.ok (s.store.renewLease now id owner lease).1 =
      Except.ok (s'.store.renewLease now id owner lease).1
    rw [renewLease_held hs.row, renewLease_held hs.row', hl]
  · by_cases hheld : r.leaseOwner = some owner
    · have hheld' : r'.leaseOwner = some owner := hl ▸ hheld
      refine ⟨{ r with leaseExpiresAt := some (leaseEnd now lease) },
        { r' with leaseExpiresAt := some (leaseEnd now lease) }, ?_, hl⟩
      exact hs.updated (if_pos (decide_eq_true ⟨hs.id_eq.1, hheld⟩))
        (if_pos (decide_eq_true ⟨hs.id_eq.2, hheld'⟩)) rfl hs.alike.leased
    · have hnot : ∀ {r : JobRow}, r.leaseOwner ≠ some owner →
          ¬decide (r.id = id ∧ r.leaseOwner = some owner) = true :=
        fun hne hd => hne (of_decide_eq_true hd).2
      refine ⟨r, r', ?_, hl⟩
      exact hs.updated (if_neg (hnot hheld)) (if_neg (hnot fun he => hheld (hl.trans he))) rfl
        hs.alike

/-! ## A step in both runs -/

/-- The info-hash of a torrent the tracker serves. -/
def Environs.Serves (w : Environs) (deps : RepairDeps) (hash : InfoHash) : Prop :=
  ∃ heard tracker torrent bytes m,
    w.answer heard (.tracker (.fetchTorrentFile tracker torrent)) = some (.ok bytes) ∧
      deps.inspect bytes = .ok m ∧ m.infoHash = hash

/-- The tracker answers that it does not know. -/
def Environs.Wavers (w : Environs) : Prop :=
  ∃ heard tracker torrent, w.answer heard (.tracker (.hitAndRunStatus tracker torrent)) =
    some (.ok .unknown)

/-- Staging leaves out no file of a plan. -/
def Environs.StagesAll (w : Environs) : Prop :=
  ∀ heard plan preference layout, w.answer heard (.staging (.materialize plan preference)) =
    some (.ok layout) → layout.files.length = plan.items.length

theorem tied_consult (h : Side Served Unknown trail trail' id r r' s s') {c : Call}
    (hc : Consults id (RepairState.torrentFetched.since r.state = true) c) :
    Tied w.handle (Side Served Unknown trail trail' id r r') c s s' := by
  cases c with
  | store c =>
    cases c with
    | torrentFile k =>
      obtain ⟨rfl, hfetched⟩ := hc
      refine tied_store h.heard h.pass fun now => ⟨?_, h.pass⟩
      show s.store.torrentFile k = s'.store.torrentFile k
      unfold torrentFile
      rw [h.row, h.row']
      exact congrArg Except.ok (h.alike.torrentFile hfetched)
    | plannedFiles k =>
      obtain ⟨rfl, hfetched⟩ := hc
      refine tied_store h.heard h.pass fun now => ⟨?_, h.pass⟩
      show Except.ok (s.store.plannedFiles k) = Except.ok (s'.store.plannedFiles k)
      unfold plannedFiles
      rw [h.files hfetched]
    | _ => exact hc.elim
  | enterStep job => exact hc.elim
  | _ => exact tied_beyond trivial h.heard fun a => h.hear _ a

/-- One program in both runs. -/
theorem abreast_consults {α : Type} {p : M α} (fetched : Prop) (hp : p.Only (Consults id fetched))
    (h : Side Served Unknown trail trail' id r r' s s')
    (hf : fetched → RepairState.torrentFetched.since r.state = true) :
    Abreast (Side Served Unknown trail trail' id r r')
      (fun a a' t t' => a = a' ∧ Side Served Unknown trail trail' id r r' t t')
      (p.carry w.handle s) (p.carry w.handle s') := by
  refine Only.abreast (hp.mono fun c hc => ?_) h fun c s s' hc hs => tied_consult hs hc
  cases c with
  | store c =>
    cases c with
    | torrentFile k => exact ⟨hc.1, hf hc.2⟩
    | plannedFiles k => exact ⟨hc.1, hf hc.2⟩
    | _ => exact hc
  | _ => exact hc

end

section
variable {deps : RepairDeps} {w : Environs} {trail trail' : List TransitionRow}
  {id : JobId} {r r' : JobRow} {s s' : Course}

/-- The torrent that is fetched is the same, and is taken or refused in both runs. -/
theorem fetchTorrent_abreast (h : Side (w.Serves deps) w.Wavers trail trail' id r r' s s') :
    Abreast (Side (w.Serves deps) w.Wavers trail trail' id r r')
      (fun a a' t t' => a = a' ∧ Side (w.Serves deps) w.Wavers trail trail' id r r' t t')
      ((fetchTorrent deps (readJob r)).carry w.handle s)
      ((fetchTorrent deps (readJob r')).carry w.handle s') := by
  have htracker : (readJob r).tracker = (readJob r').tracker := h.alike.trackerId
  have htorrent : (readJob r).torrentId = (readJob r').torrentId := h.alike.trackerTorrentId
  have hacquired : ∀ bytes, (∀ m, deps.inspect bytes = .ok m → w.Serves deps m.infoHash) →
      acquired deps (readJob r) bytes = acquired deps (readJob r') bytes := by
    intro bytes hserved
    unfold acquired
    cases hm : deps.inspect bytes with
    | error e => cases e <;> rfl
    | ok m =>
      rcases h.alike.infoHash with he | ⟨-, hexpected⟩
      · have hhash : (readJob r).infoHash = (readJob r').infoHash := he
        rw [hhash]
      · -- both expect what was served, or nothing
        obtain ⟨hr, hr'⟩ := hexpected _ (hserved m hm)
        have hnone : ∀ {o : Option InfoHash}, o.all (· = m.infoHash) = true →
            ¬(o.any fun expected => expected ≠ m.infoHash) = true := by
          intro o ho
          cases o <;> simp_all
        simp only [if_neg (hnone (show (readJob r).infoHash.all _ = true from hr)),
          if_neg (hnone (show (readJob r').infoHash.all _ = true from hr'))]
  unfold fetchTorrent trackerMissing
  rw [htracker, htorrent]
  split_ifs
  · refine abreast_beyond trivial h.heard (fun a => h.hear _ a) fun a ha => ?_
    cases a with
    | ok bytes => exact ⟨hacquired bytes fun m hm => ⟨_, _, _, bytes, m, ha, hm, rfl⟩, h.hear _ _⟩
    | error e => cases e <;> exact ⟨rfl, h.hear _ _⟩
  · exact ⟨rfl, h⟩

/-- A poll of the tracker while the torrent seeds. -/
theorem confirmWithTracker_abreast
    (h : Side (w.Serves deps) w.Wavers trail trail' id r r' s s') (hstate : r.state = .seeding) :
    Abreast (Side (w.Serves deps) w.Wavers trail trail' id r r')
      (fun a a' t t' => a = a' ∧ Side (w.Serves deps) w.Wavers trail trail' id r r' t t')
      ((confirmWithTracker deps (readJob r)).carry w.handle s)
      ((confirmWithTracker deps (readJob r')).carry w.handle s') := by
  have htracker : (readJob r).tracker = (readJob r').tracker := h.alike.trackerId
  have htorrent : (readJob r).torrentId = (readJob r').torrentId := h.alike.trackerTorrentId
  have hdeadline : (readJob r).deadline = (readJob r').deadline :=
    congrArg (Option.map parseTime) h.alike.deadline
  have hcheck := h.alike.check (by rw [hstate]; rfl)
  have hnote : ∀ a, (a = .ok .unknown → w.Wavers) →
      trackerNote deps (readJob r) a = trackerNote deps (readJob r') a := by
    intro a hwavers
    cases a with
    | error e => cases e <;> rfl
    | ok status =>
      cases status with
      | unknown =>
        -- the streak only counts where such an answer comes
        have hstreak : (readJob r).consecutiveUnknownTrackerStatus =
            (readJob r').consecutiveUnknownTrackerStatus :=
          congrArg asU32 (h.alike.unknown.resolve_right (not_not.2 (hwavers rfl)))
        simp only [trackerNote, hstreak]
      | _ => rfl
  have hpoll : ∀ note streak status now, seedingPoll deps (readJob r) note streak status now =
      seedingPoll deps (readJob r') note streak status now := by
    intro note streak status now
    unfold seedingPoll
    rw [hdeadline]
  unfold confirmWithTracker trackerMissing
  rw [htracker, htorrent]
  split_ifs
  · refine abreast_beyond trivial h.heard (fun a => h.hear _ a) fun a ha => ?_
    have hsame := hnote a fun he => ⟨_, _, _, he ▸ ha⟩
    simp only [Prog.bind, hsame]
    split
    · exact ⟨rfl, h.hear _ _⟩
    · simp only [hcheck.infoHash, checkClient_congr hcheck, hpoll]
      refine abreast_consults False ?_ (h.hear _ _) False.elim
      split
      · trivial
      · refine (checkClient_only trivial fun _ _ => trivial).bind fun a => ?_
        split
        · trivial
        · exact M.only_now trivial fun _ => trivial
  · exact ⟨rfl, h⟩

/-- Reading leaves the store as it is. -/
theorem handle_consults {c : Call} {fetched : Prop} (hc : Consults id fetched c) :
    (w.handle c s).2.store = s.store := by
  cases c with
  | store c =>
    rcases handle_store w c s.heard with h | ⟨detail, h⟩ | ⟨now, h⟩ <;> rw [h s rfl]
    · rfl
    · rfl
    · cases c with
      | torrentFile k => rfl
      | plannedFiles k => rfl
      | _ => exact hc.elim
  | enterStep job => exact hc.elim
  | _ => rfl

/-- Where staging leaves out no file, the plan of a job that has files is filled. -/
theorem fills_handle (hstages : w.StagesAll) (hrows : s.store.fileRows id ≠ []) {c : Call}
    {a : Ans c} (ha : (w.handle c s).1 = some a) : Fills id c a := by
  cases c with
  | store c =>
    rcases handle_store w c s.heard with h | ⟨detail, h⟩ | ⟨now, h⟩ <;> rw [h s rfl] at ha
    · cases ha
    · cases ha
      cases c <;> trivial
    · cases ha
      cases c with
      | plannedFiles k =>
        rintro rfl hnil
        refine hrows ?_
        have hlen : (s.store.plannedFiles k).length = (s.store.fileRows k).length := by
          simp [plannedFiles, List.length_insertionSort]
        rw [hnil] at hlen
        exact List.eq_nil_of_length_eq_zero hlen.symm
      | _ => trivial
  | staging c =>
    rw [handle_beyond (c := .staging c) trivial] at ha
    cases c with
    | materialize plan preference =>
      cases a with
      | error e => trivial
      | ok layout =>
        intro hitems hnil
        have hlen := hstages _ _ _ _ ha
        rw [hnil] at hlen
        exact hitems (List.eq_nil_of_length_eq_zero hlen.symm)
    | _ => trivial
  | _ => trivial

/-- A step concludes the same in both runs, and what it writes is what the next one goes by. -/
theorem step_abreast (hstages : w.StagesAll)
    (h : Side (w.Serves deps) w.Wavers trail trail' id r r' s s') :
    Abreast (Side (w.Serves deps) w.Wavers trail trail' id r r')
      (fun o o' t t' => (o = o' ∧ Side (w.Serves deps) w.Wavers trail trail' id r r' t t') ∧
        o.Brings r.state)
      ((step deps (readJob r)).carry w.handle s) ((step deps (readJob r')).carry w.handle s') := by
  have hid : (readJob r).id = id := h.id_eq.1
  have hids : (readJob r).id = (readJob r').id := h.alike.id
  have hstate' : (readJob r').state = r.state := h.alike.state.symm
  -- a step of a fetched torrent is the same program in both runs
  have hsame : ∀ (fetched : Prop) {p p' : M StepOutcome}, p = p' → p.Only (Consults id fetched) →
      (fetched → RepairState.torrentFetched.since r.state = true) →
        (∀ o, (p.carry w.handle s).1 = some o → o.Brings r.state) →
          Abreast (Side (w.Serves deps) w.Wavers trail trail' id r r')
            (fun o o' t t' => (o = o' ∧ Side (w.Serves deps) w.Wavers trail trail' id r r' t t') ∧
              o.Brings r.state) (p.carry w.handle s) (p'.carry w.handle s') := by
    rintro fetched p _ rfl hp hf hbrings
    exact (abreast_consults fetched hp h hf).and hbrings
  unfold step
  rw [show (readJob r).state = r.state from rfl, hstate']
  cases hstate : r.state with
  | discovered =>
    exact (fetchTorrent_abreast h).and fun o ho => fetchTorrent_brings.carry ho
  | torrentFetched =>
    rw [hstate] at hsame
    exact hsame True (matchMedia_congr hids h.alike.torrentName)
      (matchMedia_only (fun _ => trivial) ⟨hid, trivial⟩ ⟨hid, trivial⟩ trivial) (fun _ => rfl)
      fun o ho => matchMedia_brings.carry ho
  | matched =>
    have hdir : (readJob r).stagingDir = (readJob r').stagingDir :=
      h.alike.stagingDir (by rw [hstate]; rfl)
    rw [hstate] at hsame
    refine hsame True (stageFiles_congr hids hdir)
      (hid ▸ stageFiles_consults trivial) (fun _ => rfl) fun o ho => ?_
    have hreads : ∀ c (t : Course) (l : Unit) (a : Ans c) (t' : Course), t.store.fileRows id ≠ [] →
        (filling (readJob r).id).may c l → w.handle c t = (some a, t') →
          ∃ l', (filling (readJob r).id).next c a l l' ∧ t'.store.fileRows id ≠ [] := by
      intro c t l a t' hrows hmay ha
      refine ⟨(), fills_handle hstages (hid.symm ▸ hrows) (by rw [ha]), ?_⟩
      have hsame := handle_consults (w := w) (s := t) hmay
      rw [ha] at hsame
      rw [show t'.store = t.store from hsame]
      exact hrows
    obtain ⟨-, hbrings, -⟩ := stageFiles_brings.carry
      (I := fun (t : Course) (_ : Unit) => t.store.fileRows id ≠ [])
      (h.planned (by rw [hstate]; rfl)) hreads ho
    exact hbrings
  | staged =>
    have hdir : (readJob r).stagingDir = (readJob r').stagingDir :=
      h.alike.stagingDir (by rw [hstate]; rfl)
    have hhash : (readJob r).infoHash = (readJob r').infoHash :=
      h.alike.infoHash_eq (by rw [hstate]; rfl)
    rw [hstate] at hsame
    exact hsame True (inject_congr hids hhash hdir) (hid ▸ inject_consults trivial)
      (fun _ => rfl) fun o ho => brings_of_planless (inject_planless.carry ho) (by decide)
  | injected =>
    have hhash : (readJob r).infoHash = (readJob r').infoHash :=
      h.alike.infoHash_eq (by rw [hstate]; rfl)
    rw [hstate] at hsame
    exact hsame False (startRecheck_congr hhash)
      (startRecheck_only trivial (fun _ _ => trivial) fun _ _ => trivial) False.elim
      fun o ho => startRecheck_brings.carry ho
  | rechecking =>
    have hcheck := h.alike.check (by rw [hstate]; rfl)
    rw [hstate] at hsame
    exact hsame False (verify_congr hcheck)
      (verify_only trivial fun _ _ => trivial) False.elim
      fun o ho => brings_of_planless (verify_planless.carry ho) (by decide)
  | verified =>
    have hcheck := h.alike.check (by rw [hstate]; rfl)
    rw [hstate] at hsame
    exact hsame False (resume_congr hcheck)
      (resume_only trivial trivial (fun _ _ => trivial) fun _ _ _ _ => trivial) False.elim
      fun o ho => brings_of_planless (resume_planless.carry ho) (by decide)
  | seeding =>
    exact (confirmWithTracker_abreast h hstate).and
      fun o ho => brings_of_planless (confirmWithTracker_planless.carry ho) (by decide)
  | completed | awaitingReview | failed =>
    refine ⟨⟨rfl, h⟩, ?_⟩
    intro detail patch ho
    cases ho

/-! ## What follows a step in both runs -/

/-- A call that writes down what a step concluded, or tells of it. -/
def Notes (id : JobId) : Call → Prop
  | .store (.apply k t u) => k = id ∧ u.patch.Brings t.fromState t.toState
  | .store (.recordProgress k _) | .store (.renewLease k ..) | .store (.release k ..) => k = id
  | .store _ | .enterStep _ => False
  | _ => True

/-- One program that writes down a conclusion, in both runs. -/
theorem abreast_notes {Served : InfoHash → Prop} {Unknown : Prop} {α : Type} {p : M α}
    (hp : p.Only (Notes id)) (h : Level Served Unknown trail trail' id s s') :
    Abreast (Level Served Unknown trail trail' id)
      (fun a a' t t' => a = a' ∧ Level Served Unknown trail trail' id t t')
      (p.carry w.handle s) (p.carry w.handle s') := by
  refine Only.abreast hp h fun c s s' hc hs => ?_
  show Tied w.handle (Level Served Unknown trail trail' id) c s s'
  cases c with
  | store c =>
    cases c with
    | apply k t u =>
      obtain ⟨rfl, hbrings⟩ := hc
      exact tied_apply hs hbrings
    | recordProgress k patch =>
      obtain rfl : k = id := hc
      exact tied_recordProgress hs
    | renewLease k owner lease =>
      obtain rfl : k = id := hc
      exact tied_renewLease hs
    | release k retryAt countAttempt =>
      obtain rfl : k = id := hc
      exact tied_release hs
    | _ => exact hc.elim
  | enterStep job => exact hc.elim
  | _ =>
    have hheard : s.heard = s'.heard := by
      obtain ⟨r, r', hside, -⟩ := hs
      exact hside.heard
    exact tied_beyond trivial hheard fun a => hs.hear _ a

/-- Copies of the job that both runs have loaded, as its rows are. -/
def Loaded (Served : InfoHash → Prop) (Unknown : Prop) (trail trail' : List TransitionRow)
    (id : JobId) (job job' : RepairJob) (s s' : Course) : Prop :=
  ∃ r r', job = readJob r ∧ job' = readJob r' ∧ r.leaseOwner = r'.leaseOwner ∧
    Side Served Unknown trail trail' id r r' s s'

theorem Loaded.level {Served : InfoHash → Prop} {Unknown : Prop} {job job' : RepairJob}
    (h : Loaded Served Unknown trail trail' id job job' s s') :
    Level Served Unknown trail trail' id s s' := by
  obtain ⟨r, r', -, -, hl, hs⟩ := h
  exact ⟨r, r', hs, hl⟩

/-- Where both drives go after a step. -/
def Onward (Served : InfoHash → Prop) (Unknown : Prop) (trail trail' : List TransitionRow)
    (id : JobId) : Control → Control → Course → Course → Prop
  | .next job, .next job', s, s' => Loaded Served Unknown trail trail' id job job' s s'
  | .leave stop, .leave stop', s, s' =>
    stop = stop' ∧ Level Served Unknown trail trail' id s s'
  | _, _, _, _ => False

/-- The job as both runs load it again, unless the database fails. -/
theorem reload_abreast {Served : InfoHash → Prop} {Unknown : Prop}
    (h : Level Served Unknown trail trail' id s s') :
    Abreast (Level Served Unknown trail trail' id)
      (fun o o' t t' => (o = none ∧ o' = none ∧ Level Served Unknown trail trail' id t t') ∨
        ∃ job job', o = some job ∧ o' = some job' ∧
          Loaded Served Unknown trail trail' id job job' t t')
      ((reload id).carry w.handle s) ((reload id).carry w.handle s') := by
  obtain ⟨r, r', hs, hl⟩ := h
  have hjob : s.store.job id = some (readJob r) := by rw [job, hs.row]; rfl
  have hjob' : s'.store.job id = some (readJob r') := by rw [job, hs.row']; rfl
  unfold reload
  rw [M.store_bind]
  rcases handle_store w (.job id) s.heard with hc | ⟨detail, hc⟩ | ⟨now, hc⟩
  · rw [carry_call_none (hc s rfl), carry_call_none (hc s' hs.heard.symm)]
    exact ⟨r, r', hs.pass, hl⟩
  · rw [carry_call (hc s rfl), carry_call (hc s' hs.heard.symm)]
    exact .inl ⟨rfl, rfl, r, r', hs.pass, hl⟩
  · rw [carry_call (hc s rfl), carry_call (hc s' hs.heard.symm)]
    simp only [answer, hjob, hjob']
    exact .inr ⟨_, _, rfl, rfl, r, r', rfl, rfl, hl, hs.pass⟩

theorem proceed_abreast {Served : InfoHash → Prop} {Unknown : Prop} {config : WorkerConfig}
    (h : Level Served Unknown trail trail' id s s') :
    Abreast (Level Served Unknown trail trail' id) (Onward Served Unknown trail trail' id)
      ((proceed config id).carry w.handle s) ((proceed config id).carry w.handle s') := by
  have hrenew : (renewLease config id).Only (Notes id) := by
    refine M.only_store rfl fun r => ?_
    split <;> trivial
  refine (abreast_notes hrenew h).bind fun held held' t t' ht => ?_
  obtain ⟨rfl, ht⟩ := ht
  split_ifs
  · refine (reload_abreast ht).bind fun o o' t₁ t₁' ho => ?_
    rcases ho with ⟨rfl, rfl, ht₁⟩ | ⟨job, job', rfl, rfl, hloaded⟩
    · exact ⟨rfl, ht₁⟩
    · obtain ⟨r, r', rfl, rfl, hl, hs⟩ := hloaded
      have hstate : (readJob r').state = (readJob r).state := hs.alike.state.symm
      show Onward Served Unknown trail trail' id (if _ then _ else _) (if _ then _ else _) t₁ t₁'
      rw [hstate]
      split_ifs
      · exact ⟨r, r', rfl, rfl, hl, hs⟩
      · exact ⟨rfl, r, r', hs, hl⟩
  · exact ⟨rfl, ht⟩

/-- No transition of the worker's needs more than its step has written. -/
theorem brings_parked {job : RepairJob} {reason : ReviewReason} {t : Transition} {patch : JobPatch}
    (ht : job.planTransition .awaitingReview (.review reason) = .ok t) :
    patch.Brings t.fromState t.toState := by
  rw [(validateTransition_ok ht).2.1]
  exact brings_of_since (fun m _ hm => by cases m <;> cases hm) fun hm => by cases hm

theorem brings_rewound {job : RepairJob} {target : RepairState} {t : Transition}
    (ht : job.planTransition target .reconciliation = .ok t) :
    JobPatch.default.Brings t.fromState t.toState := by
  obtain ⟨hfrom, hto, -, hlegal⟩ := validateTransition_ok ht
  rw [hfrom, hto]
  simp only [objection] at hlegal
  split at hlegal
  · rename_i m n hm hn
    have hlt : n < m := by simpa using hlegal
    exact brings_of_since (fun k _ hk => RepairState.since_back hm hn hlt hk) fun _ => rfl
  · cases hlegal

/-- What a step concluded is carried out in both runs. -/
theorem settle_abreast {Served : InfoHash → Prop} {Unknown : Prop} {config : WorkerConfig}
    {job job' : RepairJob} {summary : TickSummary} {outcome : StepOutcome}
    (h : Loaded Served Unknown trail trail' id job job' s s') (hbrings : outcome.Brings job.state) :
    Abreast (Level Served Unknown trail trail' id)
      (fun a a' t t' => a.1 = a'.1 ∧ Onward Served Unknown trail trail' id a.2 a'.2 t t')
      ((settle deps config job summary outcome).carry w.handle s)
      ((settle deps config job' summary outcome).carry w.handle s') := by
  have hlevel := h.level
  obtain ⟨r, r', rfl, rfl, hl, hs⟩ := h
  have hid : (readJob r).id = id := hs.id_eq.1
  rw [← settle_congr hs.alike.standing]
  generalize readJob r = job at *
  have hpark : ∀ reason detail patch, (park job reason detail patch).Only (Notes id) := by
    intro reason detail patch
    unfold park
    split
    · trivial
    · rename_i t ht
      refine M.only_store ⟨hid, brings_parked ht⟩ fun r => ?_
      split
      · trivial
      · exact ⟨trivial, fun _ => ⟨trivial, fun _ => trivial⟩⟩
  cases outcome with
  | advance detail patch =>
    show Abreast _ _ ((settleAdvance deps config job summary detail patch).carry w.handle s)
      ((settleAdvance deps config job summary detail patch).carry w.handle s')
    unfold settleAdvance
    split
    · exact ⟨rfl, rfl, hlevel⟩
    · rename_i t ht
      obtain ⟨hfrom, hnext, -⟩ := RepairJob.advance_ok ht
      have hcall : Tied w.handle (Level Served Unknown trail trail' id)
          (.store (.apply job.id t ⟨detail, none, patch⟩)) s s' := by
        rw [hid]
        exact tied_apply hlevel (hfrom ▸ hbrings detail patch rfl _ hnext)
      refine hcall.abreast fun a t₁ t₁' _ ht₁ => ?_
      simp only [Prog.bind]
      split
      · refine (abreast_notes (recordAdvance_only (fun _ => trivial) fun _ => trivial) ht₁).bind
          fun _ _ t₂ t₂' ht₂ => ?_
        rw [hid]
        exact (proceed_abreast ht₂.2).bind fun control control' t₃ t₃' hc => ⟨rfl, hc⟩
      · rw [hid]
        exact (proceed_abreast ht₁).bind fun control control' t₃ t₃' hc => ⟨rfl, hc⟩
      · exact ⟨rfl, rfl, ht₁⟩
      · refine (abreast_notes (stopForRetry_only trivial) ht₁).bind fun stop stop' t₂ t₂' ht₂ => ?_
        exact ⟨rfl, congrArg some ht₂.1, ht₂.2⟩
  | rewind target note =>
    have hrewind : Abreast (Level Served Unknown trail trail' id)
        (Onward Served Unknown trail trail' id) ((settleRewind job target note).carry w.handle s)
        ((settleRewind job target note).carry w.handle s') := by
      unfold settleRewind
      split
      · exact ⟨rfl, hlevel⟩
      · rename_i t ht
        have hcall : ∀ detail, Tied w.handle (Level Served Unknown trail trail' id)
            (.store (.apply job.id t (.withDetail detail))) s s' := by
          intro detail
          rw [hid]
          exact tied_apply hlevel (brings_rewound ht)
        refine (hcall _).abreast fun a t₁ t₁' _ ht₁ => ?_
        simp only [Prog.bind]
        split
        · exact ⟨rfl, ht₁⟩
        · have hpublish : ∀ e, (M.publish e).Only (Notes id) := fun e => ⟨trivial, fun _ => trivial⟩
          refine (abreast_notes (hpublish _) ht₁).bind fun _ _ t₂ t₂' ht₂ => ?_
          rw [hid]
          refine (reload_abreast ht₂.2).bind fun o o' t₃ t₃' ho => ?_
          rcases ho with ⟨rfl, rfl, ht₃⟩ | ⟨next, next', rfl, rfl, hloaded⟩
          · exact ⟨rfl, ht₃⟩
          · exact hloaded
    exact hrewind.bind fun control control' t t' hc => ⟨rfl, hc⟩
  | review reason detail patch =>
    refine (abreast_notes (hpark _ _ _) hlevel).bind fun _ _ t t' ht => ?_
    exact ⟨rfl, rfl, ht.2⟩
  | wait after note patch =>
    refine (abreast_notes (settleWait_only trivial hid fun _ => trivial) hlevel).bind
      fun stop stop' t t' ht => ?_
    exact ⟨rfl, congrArg some ht.1, ht.2⟩
  | retry error =>
    show Abreast _ _ ((settleRetry deps job summary error).carry w.handle s)
      ((settleRetry deps job summary error).carry w.handle s')
    unfold settleRetry
    simp only
    split_ifs
    · refine (abreast_notes (hpark _ _ _) hlevel).bind fun _ _ t t' ht => ?_
      exact ⟨rfl, rfl, ht.2⟩
    · refine (abreast_notes (stopForRetry_only trivial) hlevel).bind fun stop stop' t t' ht => ?_
      exact ⟨rfl, congrArg some ht.1, ht.2⟩

/-! ## Drives and turns -/

section
variable {config : WorkerConfig} {job job' : RepairJob} {summary : TickSummary}

theorem driveRound_abreast (hstages : w.StagesAll)
    (h : Loaded (w.Serves deps) w.Wavers trail trail' id job job' s s') :
    Abreast (Level (w.Serves deps) w.Wavers trail trail' id)
      (fun a a' t t' => a.1 = a'.1 ∧
        Onward (w.Serves deps) w.Wavers trail trail' id a.2 a'.2 t t')
      ((driveRound deps config job summary).carry w.handle s)
      ((driveRound deps config job' summary).carry w.handle s') := by
  obtain ⟨r, r', rfl, rfl, hl, hs⟩ := h
  -- the span is entered with either copy, and nothing is kept of it
  show Abreast _ _ ((step deps (readJob r) >>= settle deps config (readJob r) summary).carry
      w.handle s.pass)
    ((step deps (readJob r') >>= settle deps config (readJob r') summary).carry w.handle s'.pass)
  have hstep := (step_abreast hstages hs.pass).mono (fun t t' ht => (⟨r, r', ht, hl⟩ :
    Level (w.Serves deps) w.Wavers trail trail' id t t')) fun _ _ _ _ h => h
  refine hstep.bind fun o o' t t' ho => ?_
  obtain ⟨⟨rfl, ht⟩, hbrings⟩ := ho
  exact settle_abreast ⟨r, r', rfl, rfl, hl, ht⟩ hbrings

theorem driveLoop_abreast (hstages : w.StagesAll) (bound : ℕ) :
    ∀ {job job' : RepairJob} {summary : TickSummary} {s s' : Course},
      Loaded (w.Serves deps) w.Wavers trail trail' id job job' s s' →
        Abreast (Level (w.Serves deps) w.Wavers trail trail' id)
          (fun a a' t t' => a = a' ∧ Level (w.Serves deps) w.Wavers trail trail' id t t')
          ((driveLoop deps config bound job summary).carry w.handle s)
          ((driveLoop deps config bound job' summary).carry w.handle s') := by
  induction bound with
  | zero => exact fun h => ⟨rfl, h.level⟩
  | succ bound ih =>
    intro job job' summary s s' h
    have hheard : s.heard = s'.heard := by
      obtain ⟨r, r', -, -, -, hs⟩ := h
      exact hs.heard
    refine abreast_beyond (c := .shuttingDown) trivial hheard (h.level.hear _) fun down _ => ?_
    have hdown : Loaded (w.Serves deps) w.Wavers trail trail' id job job'
        (s.hear .shuttingDown (some down)) (s'.hear .shuttingDown (some down)) := by
      obtain ⟨r, r', hr, hr', hl, hs⟩ := h
      exact ⟨r, r', hr, hr', hl, hs.hear _ _⟩
    simp only [Prog.bind]
    split_ifs
    · exact ⟨rfl, hdown.level⟩
    · refine (driveRound_abreast hstages hdown).bind fun a a' t t' ha => ?_
      obtain ⟨summary₁, control⟩ := a
      obtain ⟨summary₁', control'⟩ := a'
      obtain ⟨rfl, hc⟩ := ha
      cases control with
      | next next =>
        cases control' with
        | next next' => exact ih hc
        | leave stop' => exact hc.elim
      | leave stop =>
        cases control' with
        | next next' => exact hc.elim
        | leave stop' =>
          obtain ⟨rfl, hlevel⟩ := hc
          exact ⟨rfl, hlevel⟩

theorem drive_abreast (summary : TickSummary) (hstages : w.StagesAll)
    (h : Loaded (w.Serves deps) w.Wavers trail trail' id job job' s s') :
    Abreast (Level (w.Serves deps) w.Wavers trail trail' id)
      (fun a a' t t' => a = a' ∧ Level (w.Serves deps) w.Wavers trail trail' id t t')
      ((driveAll deps config [job] summary).carry w.handle s)
      ((driveAll deps config [job'] summary).carry w.handle s') := by
  obtain ⟨r, r', rfl, rfl, hl, hs⟩ := h
  have hid : (readJob r).id = id := hs.id_eq.1
  have hid' : (readJob r').id = id := hs.id_eq.2
  have hlevel : Level (w.Serves deps) w.Wavers trail trail' id s s' := ⟨r, r', hs, hl⟩
  refine abreast_beyond (c := .shuttingDown) trivial hs.heard (hlevel.hear _) fun down _ => ?_
  simp only [Prog.bind]
  split_ifs
  · exact ⟨rfl, hlevel.hear _ _⟩
  · have hdrive : Abreast (Level (w.Serves deps) w.Wavers trail trail' id)
        (fun a a' t t' => a = a' ∧ Level (w.Serves deps) w.Wavers trail trail' id t t')
        ((drive deps config (readJob r) summary).carry w.handle
          (s.hear .shuttingDown (some down)))
        ((drive deps config (readJob r') summary).carry w.handle
          (s'.hear .shuttingDown (some down))) := by
      refine (driveLoop_abreast hstages driveBound
        ⟨r, r', rfl, rfl, hl, hs.hear _ _⟩).bind fun a a' t t' ha => ?_
      obtain ⟨rfl, ht⟩ := ha
      obtain ⟨summary₁, stop⟩ := a
      cases stop with
      | none => exact ⟨rfl, ht⟩
      | some stop =>
        simp only [hid, hid']
        refine (abreast_notes ?_ ht).bind fun _ _ t₁ t₁' ht₁ => ⟨rfl, ht₁.2⟩
        exact M.only_store rfl fun _ => trivial
    exact hdrive.bind fun a a' t t' ha => by
      obtain ⟨rfl, ht⟩ := ha
      exact ⟨rfl, ht⟩

/-- Two runs with rows alike, whatever leases stand. -/
def Alongside (Served : InfoHash → Prop) (Unknown : Prop) (trail trail' : List TransitionRow)
    (id : JobId) (s s' : Course) : Prop :=
  ∃ r r', Side Served Unknown trail trail' id r r' s s'

/-- A turn keeps runs even. -/
theorem Alongside.turn (hstages : w.StagesAll)
    (h : Alongside (w.Serves deps) w.Wavers trail trail' id s s') :
    Alongside (w.Serves deps) w.Wavers trail trail' id (s.turn deps config w id)
      (s'.turn deps config w id) := by
  obtain ⟨r, r', hs⟩ := h
  have hdue : ∀ now, isDue now r = isDue now r' := by
    intro now
    unfold isDue claimable
    simp only [hs.alike.state, hs.alike.nextAttemptAt]
  unfold Course.turn
  simp only [hs.row, hs.row', hdue, hs.heard]
  split_ifs
  · have hleased : Loaded (w.Serves deps) w.Wavers trail trail' id (readJob r) (readJob r')
        (s.lease config w id) (s'.lease config w id) := by
      refine ⟨leaseRow config.owner (leaseEnd (w.clock s.heard) config.lease) r,
        leaseRow config.owner (leaseEnd (w.clock s'.heard) config.lease) r', rfl, rfl, rfl, ?_⟩
      exact hs.updated (if_pos (decide_eq_true hs.id_eq.1)) (if_pos (decide_eq_true hs.id_eq.2)) rfl
        hs.alike.leased
    obtain ⟨r₁, r₁', ht, -⟩ := (drive_abreast .default hstages hleased).states
      fun _ _ _ _ h => h.2
    exact ⟨r₁, r₁', ht⟩
  · exact ⟨r, r', hs.pass⟩

/-- Every run keeps on the level. -/
theorem Alongside.run (hstages : w.StagesAll) (n : ℕ) :
    ∀ {s s' : Course}, Alongside (w.Serves deps) w.Wavers trail trail' id s s' →
      Alongside (w.Serves deps) w.Wavers trail trail' id (s.run deps config w id n)
        (s'.run deps config w id n) := by
  induction n with
  | zero => exact fun h => h
  | succ n ih => exact fun h => ih (h.turn hstages)

end

end
end SeedMedic
