/-
  What a job's row says of its staged files is never safer than what is on disk.
-/
import SeedMedic.Repair.Conduct
import SeedMedic.Repair.Workshop

namespace SeedMedic

open Lib Prog

/-- Every call is safe, and the local state is the world as the last answer left it. -/
def recording : Rules Call Ans Site where
  may c l := l.Safe c
  next c r l l' := ∃ l₁, Relation.ReflTransGen Site.Moves l l₁ ∧ l₁.Recorded ∧ l₁.Trusting c ∧
    l₁.Answers c r l'

/-- A copy is what the row says of where its job stands, and of no directory but the job's own. -/
structure Site.Stored (w : Site) (job : RepairJob) : Prop where
  row : ∃ r, w.store.jobs.get? job.id = some r ∧ r.state = job.state ∧
    r.reviewFromState = job.reviewFromState
  home : ∀ dir, job.stagingDir = some dir → dir = job.id.home

/-- A call that changes where a job stands. -/
def Shifts : Call → JobId → Prop
  | .store (.apply id' _ _), id | .store (.setReviewResumePoint id' _), id => id' = id
  | _, _ => False

namespace Site

variable {l l' : Site} {c : Call} {job : RepairJob}

theorem Stored.moves (h : l.Stored job) (hm : Relation.ReflTransGen Moves l l') : l'.Stored job := by
  induction hm with
  | refl => exact h
  | tail _ hm ih =>
    cases hm with
    | pass later => exact ⟨ih.row, ih.home⟩
    | tamper tampered => exact ⟨ih.row, ih.home⟩
    | discovery recorded =>
      obtain ⟨⟨r, hr, hstate⟩, hhome⟩ := ih
      refine ⟨⟨r, ?_, hstate⟩, hhome⟩
      rcases SqliteRepairStore.recordDiscovery_cases recorded with rfl | ⟨id', -, hfree, -, -, hrows⟩
      · exact hr
      · rw [hrows, if_neg]
        · exact hr
        · rintro rfl
          rw [hfree] at hr
          cases hr

/-- An answer leaves a copy true that its call does not shift. -/
theorem Stored.answers (h : l.Stored job) (hc : ¬Shifts c job.id) {r : Ans c} (ha : l.Answers c r l') :
    l'.Stored job := by
  have hsame : l'.store = l.store → l'.Stored job := fun hs => ⟨hs ▸ h.row, h.home⟩
  cases c with
  | store c =>
    rcases SqliteRepairStore.Answers.served_or_failed ha.1 with ⟨-, hs⟩ | ⟨_, -, hs⟩
    · obtain ⟨r, hr, hstate, hfrom⟩ := h.row
      obtain ⟨r', hr', hchanged⟩ : ∃ r', (l.store.answer l.now c).2.jobs.get? job.id = some r' ∧
        SqliteRepairStore.Changed l.now c r r' := SqliteRepairStore.answer_changed hr
      have hid : r.id = job.id := (Table.get?_some hr).2
      refine ⟨⟨r', by rw [hs]; exact hr', ?_⟩, h.home⟩
      cases hchanged with
      | moved call =>
        subst call
        exact absurd hid hc
      | patched call => exact ⟨hstate, hfrom⟩
      | repointed call =>
        subst call
        exact absurd hid hc
      | rescheduled hr =>
        obtain ⟨_, _, _, _, _, rfl⟩ := hr
        exact ⟨hstate, hfrom⟩
    · exact hsame hs
  | staging c =>
    cases c with
    | materialize plan preference =>
      obtain ⟨_, _, -, hs, -⟩ := ha
      exact hsame hs
    | inspect plan => exact hsame (by rw [ha.2])
    | discard dir => exact hsame ha.2.1
  | now => exact hsame ha.1.2
  | _ => exact hsame ha.1

theorem Stored.next (h : l.Stored job) (hc : ¬Shifts c job.id) {r : Ans c}
    (hn : recording.next c r l l') : l'.Stored job := by
  obtain ⟨l₁, hm, -, -, ha⟩ := hn
  exact (h.moves hm).answers hc ha

/-- A copy that is shown is true of the row. -/
theorem stored_of_shows {r : Ans c} (hn : recording.next c r l l') (hd : Shows c r job)
    (hc : ¬Shifts c job.id) : l'.Stored job := by
  obtain ⟨l₁, -, hrecorded, -, ha⟩ := hn
  have hreplies : l₁.store.Replies l₁.now c r l'.store := by
    cases c with
    | store c => exact ha.1
    | staging c => exact hd.elim
    | _ => exact hd.elim
  obtain ⟨row, row', hrow, ⟨_, _, _, _, _, rfl⟩, rfl⟩ := hreplies.shows hd
  have hbefore : l₁.Stored (readJob _) := ⟨⟨row, hrow, rfl, rfl⟩, fun dir hdir =>
    hrecorded.home _ row dir hrow hdir⟩
  exact hbefore.answers hc ha

end Site

section
variable {l : Site} {job : RepairJob} {deps : RepairDeps} {config : WorkerConfig}
  {summary : TickSummary}

/-- A call that is safe wherever it is made, and shifts no job. -/
def StagesNothing : Call → Prop
  | .store (.apply ..) | .store (.recordProgress ..) | .store (.setReviewResumePoint ..) => False
  | .staging (.materialize ..) => False
  | _ => True

theorem StagesNothing.safe {c : Call} (h : StagesNothing c) : l.Safe c := by
  cases c with
  | store c => cases c <;> trivial
  | staging c => cases c <;> trivial
  | _ => trivial

theorem StagesNothing.shifts {c : Call} (h : StagesNothing c) (id : JobId) : ¬Shifts c id := by
  cases c with
  | store c => cases c <;> first | exact fun hs => hs | cases h
  | _ => exact fun hs => hs

/-- Every copy stays as true as it was. -/
def StoredKept (l l' : Site) : Prop := ∀ job, l.Stored job → l'.Stored job

theorem storedKept_of_next {c : Call} {r : Ans c} {l' : Site} (hn : recording.next c r l l')
    (hc : ∀ id, ¬Shifts c id) : StoredKept l l' := fun job hs => hs.next (hc job.id) hn

theorem obeys_of_stagesNothing {α : Type} {p : M α} (h : p.Only StagesNothing) :
    p.Obeys recording l fun _ l' => StoredKept l l' :=
  h.obeys (I := StoredKept l) (fun _ hs => hs) fun _ _ hc hl =>
    ⟨hc.safe, fun _ _ hn job hs => (hl job hs).next (hc.shifts _) hn⟩

theorem stagesNothing_of_reads {c : Call} (h : Reads c) : StagesNothing c := by
  cases c with
  | store c => cases c <;> trivial
  | staging c => cases h
  | _ => trivial

/-! ## What a step concludes -/

/-- A conclusion may be carried out: it says nothing of where and how a staged job is staged, and
    what it says of an attempt to stage is true of the disk. -/
structure Site.Fits (w : Site) (job : RepairJob) (outcome : StepOutcome) : Prop where
  homed : outcome.patch.Homed job.id
  planless : (∀ detail patch, outcome ≠ .advance detail patch) ∨ job.state.StagedOrLater →
    outcome.patch.Planless
  delivers : job.state = .matched → ∀ detail patch, outcome = .advance detail patch →
    w.Delivers job.id patch

theorem fits_of_planless {outcome : StepOutcome} (h : outcome.patch.Planless)
    (hstate : job.state ≠ .matched) : l.Fits job outcome :=
  ⟨h.homed _, fun _ => h, fun hm => absurd hm hstate⟩

/-- A step before staging. -/
theorem fits_of_plans {outcome : StepOutcome} (h : Plans job.id outcome)
    (hstate : ¬job.state.StagedOrLater ∧ job.state ≠ .matched) : l.Fits job outcome where
  homed := h.homed
  planless hor := h.else_planless (hor.resolve_right hstate.1)
  delivers hm := absurd hm hstate.2

theorem Site.Stored.dir (h : l.Stored job) : job.stagingDir.getD job.defaultStagingDir = job.id.home := by
  cases hd : job.stagingDir with
  | none => exact job.defaultStagingDir_eq
  | some dir => exact h.home dir hd

/-- An attempt to stage a job touches no staged job, and knows what it leaves on disk. -/
theorem stageFiles_records (h : l.Stored job) (hstate : job.state = .matched) :
    (stageFiles deps job).Obeys recording l fun outcome l' =>
      StoredKept l l' ∧ l'.Fits job outcome := by
  have hheld : ∀ {l : Site} {outcome : StepOutcome}, outcome.patch.Planless →
      (∀ detail patch, outcome ≠ .advance detail patch) → l.Fits job outcome :=
    fun hp hne => ⟨hp.homed _, fun _ => hp, fun _ _ _ he => absurd he (hne _ _)⟩
  refine M.obeys_store trivial fun r l₁ hn => ?_
  have hkept₁ : StoredKept l l₁ := storedKept_of_next hn fun _ hs => hs
  split
  · exact ⟨hkept₁, hheld planless_default fun _ _ he => (by cases he)⟩
  · rename_i planned
    split
    · exact ⟨hkept₁, hheld planless_default fun _ _ he => (by cases he)⟩
    · rename_i items hitems
      rw [h.dir] at hitems
      have hdestinations := stagingItems_ok hitems
      simp only
      split_ifs
      · exact ⟨hkept₁, hheld planless_default fun _ _ he => (by cases he)⟩
      · have hsafe : l₁.Safe (.staging (.materialize ⟨items⟩ deps.policy.materialization.preference)) := by
          intro id r f item hr hpast hf hitem he
          have hmem : item.destination ∈ items.map PlanItem.destination := List.mem_map_of_mem hitem
          rw [hdestinations] at hmem
          obtain ⟨g, -, hg⟩ := List.mem_map.1 hmem
          obtain rfl := JobId.home_apart (hg.trans he)
          -- the job's own row says it is not staged yet
          obtain ⟨r', hr', hs, -⟩ := (hkept₁ job h).row
          obtain rfl := Option.some.inj (hr.symm.trans hr')
          rcases hpast with hpast | ⟨hparked, -⟩
          · rw [hs, hstate] at hpast
            exact absurd hpast (by decide)
          · rw [hs, hstate] at hparked
            cases hparked
        refine M.obeys_staging hsafe fun r l₂ hn₂ => ?_
        have hkept₂ : StoredKept l l₂ := fun other ho =>
          storedKept_of_next hn₂ (fun _ hs => hs) other (hkept₁ other ho)
        obtain ⟨l₃, -, -, htrust, _, _, hmaterialize, -⟩ := hn₂
        split
        · rename_i e
          refine ⟨hkept₂, hheld (stagingRefused_planless _ e) fun detail patch he => ?_⟩
          cases e <;> cases he
        · rename_i layout
          refine ⟨hkept₂, ?_, fun hor => ?_, fun _ detail patch he => ?_⟩
          · intro dir hdir
            rw [h.dir] at hdir
            exact (Option.some.inj hdir).symm
          · rcases hor with hne | hlater
            · exact absurd rfl (hne _ _)
            · rw [hstate] at hlater
              exact absurd hlater (by decide)
          · cases he
            refine ⟨_, rfl, fun f hf ha => ?_⟩
            obtain ⟨g, hg, rfl⟩ := List.mem_map.1 hf
            have hmem : g.torrentPath.under job.id.home ∈ items.map PlanItem.destination := by
              rw [hdestinations]
              exact List.mem_map_of_mem hg
            obtain ⟨item, hitem, he⟩ := List.mem_map.1 hmem
            exact (LocalStaging.materialize_cases hmaterialize).2 htrust layout rfl item hitem
              (by rw [he]; exact ha)

/-- Every step concludes what may be carried out. -/
theorem step_records (h : l.Stored job) : (step deps job).Obeys recording l fun outcome l' =>
    StoredKept l l' ∧ l'.Fits job outcome := by
  have hreads : ∀ {p : M StepOutcome} {Q : StepOutcome → Prop}, p.Only StagesNothing → p.Returns Q →
      (∀ outcome (l' : Site), Q outcome → l'.Fits job outcome) →
        p.Obeys recording l fun outcome l' => StoredKept l l' ∧ l'.Fits job outcome :=
    fun honly hreturns hfits => ((obeys_of_stagesNothing honly).and hreturns).mono
      fun outcome l' ho => ⟨ho.1, hfits outcome l' ho.2⟩
  have hlate : ∀ {p : M StepOutcome}, p.Only StagesNothing →
      p.Returns (fun outcome => outcome.patch.Planless) → job.state ≠ .matched →
        p.Obeys recording l fun outcome l' => StoredKept l l' ∧ l'.Fits job outcome :=
    fun honly hreturns hstate => hreads honly hreturns fun _ _ ho => fits_of_planless ho hstate
  unfold step
  cases hstate : job.state with
  | discovered =>
    exact hreads (fetchTorrent_reads.mono fun _ => stagesNothing_of_reads) fetchTorrent_plans
      fun _ _ ho => fits_of_plans ho (by rw [hstate]; decide)
  | torrentFetched =>
    exact hreads (matchMedia_reads.mono fun _ => stagesNothing_of_reads) matchMedia_plans
      fun _ _ ho => fits_of_plans ho (by rw [hstate]; decide)
  | matched => exact stageFiles_records h hstate
  | staged =>
    exact hlate (inject_only (fun _ => stagesNothing_of_reads) fun _ _ _ _ _ => trivial) inject_planless
      (by rw [hstate]; decide)
  | injected =>
    exact hlate (startRecheck_only trivial (fun _ _ => trivial) fun _ _ => trivial)
      startRecheck_planless (by rw [hstate]; decide)
  | rechecking =>
    exact hlate (verify_only trivial fun _ _ => trivial) verify_planless (by rw [hstate]; decide)
  | verified =>
    exact hlate (resume_only trivial trivial (fun _ _ => trivial) fun _ _ _ _ => trivial)
      resume_planless (by rw [hstate]; decide)
  | seeding =>
    exact hlate (confirmWithTracker_only (fun _ => stagesNothing_of_reads) (fun _ _ => trivial)
      fun _ _ _ _ => trivial) confirmWithTracker_planless (by rw [hstate]; decide)
  | _ => exact ⟨fun _ hs => hs, fits_of_planless planless_default (by rw [hstate]; decide)⟩

/-! ## Settling -/

theorem Site.Stored.past {r : JobRow} (h : l.Stored job) (hr : l.store.jobs.get? job.id = some r)
    (hparked : r.state = .awaitingReview) {s : RepairState} (hs : job.reviewFromState = some s)
    (hrank : reconcileRank .staged ≤ reconcileRank s) : r.Past := by
  obtain ⟨r', hr', -, hfrom⟩ := h.row
  obtain rfl := Option.some.inj (hr.symm.trans hr')
  exact .inr ⟨hparked, s, hfrom.trans hs, hrank⟩

/-- A transition that is neither progress nor a retry may be written with any patch that says
    nothing of the plan. -/
theorem safe_apply_planless {id : JobId} {t : Transition} {u : TransitionUpdate}
    (hu : u.patch.Planless) (hprogress : t.reason ≠ .progress) (hretry : t.reason ≠ .operatorRetry) :
    l.Safe (.store (.apply id t u)) := by
  refine ⟨hu.homed id, fun r _ hfrom hpast => ?_⟩
  rcases hpast.cases with hs | ⟨hr, -⟩ | ⟨hr, -⟩
  · exact .inl ⟨.inl (by rw [hfrom]; exact hs), hu⟩
  · exact absurd hr hretry
  · exact absurd hr hprogress

/-- What a step concluded is safe to write. -/
theorem Site.Fits.safe {outcome : StepOutcome} (h : l.Fits job outcome) {c : StoreCall}
    (hc : Settling job outcome c) : l.Safe (.store c) := by
  cases hc with
  | advance ht =>
    obtain ⟨hfrom, -, hreason⟩ := RepairJob.advance_ok ht
    refine ⟨h.homed, fun r hr hstate hpast => ?_⟩
    rcases hpast.cases with hs | ⟨hretry, -⟩ | ⟨-, hs⟩
    · refine .inl ⟨.inl (by rw [hstate]; exact hs), h.planless (.inr ?_)⟩
      rw [← hfrom]
      exact hs
    · rw [hreason] at hretry
      cases hretry
    · exact .inr (h.delivers (hfrom.symm.trans hs) _ _ rfl)
  | rewind ht hu =>
    have hreason := (validateTransition_ok ht).2.2.1
    exact safe_apply_planless (by rw [hu]; exact planless_default) (by rw [hreason]; nofun)
      (by rw [hreason]; nofun)
  | review ht =>
    have hreason := (validateTransition_ok ht).2.2.1
    have hplanless := h.planless (.inl fun _ _ he => (by cases he))
    exact safe_apply_planless hplanless (by rw [hreason]; nofun) (by rw [hreason]; nofun)
  | exhausted ht =>
    have hreason := (validateTransition_ok ht).2.2.1
    exact safe_apply_planless planless_default (by rw [hreason]; nofun) (by rw [hreason]; nofun)
  | progress =>
    exact ⟨h.homed, (h.planless (.inl fun _ _ he => (by cases he))).materialization⟩

/-- The other copies stay as true as they were. -/
def OthersKept (id : JobId) (l l' : Site) : Prop :=
  ∀ other, other.id ≠ id → l.Stored other → l'.Stored other

theorem StoredKept.others {l l' : Site} {id : JobId} (h : StoredKept l l') : OthersKept id l l' :=
  fun other _ => h other

theorem OthersKept.trans {id : JobId} {l₁ l₂ l₃ : Site} (h : OthersKept id l₁ l₂)
    (h' : OthersKept id l₂ l₃) : OthersKept id l₁ l₃ :=
  fun other hne ho => h' other hne (h other hne ho)

/-- Writing to one job leaves the copies of the others true. -/
theorem othersKept_of_next {c : Call} {r : Ans c} {l' : Site} {id : JobId}
    (hn : recording.next c r l l') (hc : ∀ id', Shifts c id' → id' = id) : OthersKept id l l' :=
  fun _ hne ho => ho.next (fun hs => hne (hc _ hs)) hn

theorem shifts_settling {outcome : StepOutcome} {c : StoreCall} (h : Settling job outcome c)
    (id : JobId) (hs : Shifts (.store c) id) : id = job.id := by
  cases h with
  | progress => cases hs
  | _ => exact Eq.symm hs

theorem settleRules_recording (l₀ : Site) : SettleRules recording config job.id
    (fun l => OthersKept job.id l₀ l) fun l next => l.Stored next ∧ next.id = job.id where
  tells c l hc hl := by
    have hnothing : StagesNothing c := by
      cases c with
      | store c =>
        obtain rfl : c = .renewLease job.id config.owner config.lease := hc
        trivial
      | staging c => cases hc
      | _ => trivial
    exact ⟨hnothing.safe, fun r l' hn =>
      hl.trans (storedKept_of_next hn hnothing.shifts).others⟩
  load l hl := by
    refine ⟨trivial, fun r l' hn => ⟨hl.trans (storedKept_of_next hn fun _ hs => hs).others, ?_⟩⟩
    rintro next rfl
    refine ⟨Site.stored_of_shows hn rfl fun hs => hs, ?_⟩
    obtain ⟨l₁, -, -, -, ha⟩ := hn
    exact SqliteRepairStore.Replies.honest (c := .store (.job job.id)) ha.1

theorem settle_records {outcome : StepOutcome} (h : l.Fits job outcome) :
    (settle deps config job summary outcome).Obeys recording l fun r l' =>
      OthersKept job.id l l' ∧ ∀ next, r.2 = .next next → l'.Stored next ∧ next.id = job.id :=
  (settleRules_recording l).settle (fun _ _ ho => ho) fun _ hc =>
    ⟨h.safe hc, fun _ _ hn => othersKept_of_next hn (shifts_settling hc)⟩

theorem workerRules_recording :
    WorkerRules recording deps config Site.Stored fun other job => other.id ≠ job.id where
  idle c l hc := by
    have hnothing : StagesNothing c := by cases c <;> trivial
    exact ⟨hnothing.safe, fun r l' hn job hjob => hjob.next (hnothing.shifts _) hn⟩
  claim l := by
    refine ⟨trivial, fun jobs l' hn => ⟨?_, fun job hjob => ?_⟩⟩
    · obtain ⟨l₁, -, -, -, ha⟩ := hn
      have hnodup := SqliteRepairStore.Replies.honest
        (c := .store (.claim config.owner config.lease config.batchSize)) ha.1
      exact (List.pairwise_map.1 hnodup).imp Ne.symm
    · exact Site.stored_of_shows hn hjob fun hs => hs
  release l job stop count :=
    ⟨trivial, fun _ _ hn other _ ho => storedKept_of_next hn (fun _ hs => hs) other ho⟩
  round l job summary hjob := by
    refine M.obeys_enterStep trivial fun l₁ hn => ?_
    have hkept₁ : StoredKept l l₁ := storedKept_of_next hn fun _ hs => hs
    refine (step_records (hkept₁ job hjob)).bind fun outcome l₂ ho => ?_
    obtain ⟨hkept₂, hfits⟩ := ho
    refine (settle_records hfits).mono fun r l₃ hs => ⟨fun other hne ho => ?_, fun next hn => ?_⟩
    · exact hs.1 other hne (hkept₂ other (hkept₁ other ho))
    · obtain ⟨hstored, hid⟩ := hs.2 next hn
      exact ⟨hstored, fun other hne => by rw [hid]; exact hne⟩

/-! ## Reconciliation -/

theorem stagesNothing_of_asks {c : Call} (h : Asks c) : StagesNothing c := by
  cases c with
  | store c => cases c <;> trivial
  | staging c => cases c <;> trivial
  | _ => trivial

theorem reconcileActionableJob_records :
    (reconcileActionableJob job).Obeys recording l fun _ l' => OthersKept job.id l l' := by
  refine (obeys_of_stagesNothing (realityBackedTarget_asks.mono fun _ => stagesNothing_of_asks)).bind
    fun target l₁ hkept => ?_
  split_ifs
  · exact hkept.others
  · split
    · exact hkept.others
    · rename_i t ht
      have hreason := (validateTransition_ok ht).2.2.1
      refine M.obeys_store (safe_apply_planless planless_default (by rw [hreason]; nofun)
        (by rw [hreason]; nofun)) fun r l₂ hn => ?_
      have hothers := hkept.others.trans (othersKept_of_next hn fun _ hs => Eq.symm hs)
      split <;> exact hothers

/-- A resume point is only moved back. -/
theorem reconcileParkedJob_records (h : l.Stored job) :
    (reconcileParkedJob job).Obeys recording l fun _ l' => OthersKept job.id l l' := by
  unfold reconcileParkedJob
  split
  · exact fun _ _ ho => ho
  · rename_i starting hstarting
    refine ((obeys_of_stagesNothing (realityBackedTarget_asks.mono fun _ => stagesNothing_of_asks)).and
      realityBackedTarget_backwards).bind fun target l₁ hl => ?_
    obtain ⟨hkept, hback⟩ := hl
    split_ifs
    · exact hkept.others
    · refine M.obeys_store (fun r hr hparked hrank => ?_) fun r l₂ hn => ?_
      · exact (hkept job h).past hr hparked hstarting (hrank.trans hback)
      · have hothers := hkept.others.trans (othersKept_of_next hn fun _ hs => Eq.symm hs)
        split <;> exact hothers

theorem countMoved_records {action : RepairJob → M Bool}
    (h : ∀ job l, l.Stored job → (action job).Obeys recording l fun _ l' => OthersKept job.id l l') :
    ∀ {jobs : List RepairJob} {l : Site}, (jobs.map RepairJob.id).Nodup →
      (∀ job ∈ jobs, l.Stored job) → (countMoved action jobs).Obeys recording l fun _ _ => True
  | [], _, _, _ => trivial
  | job :: jobs, l, hnodup, hstored => by
    rw [List.map_cons, List.nodup_cons] at hnodup
    refine (h job l (hstored job (List.mem_cons_self ..))).bind fun moved l₁ hothers => ?_
    refine (countMoved_records h hnodup.2 fun other ho => ?_).bind fun _ _ _ => trivial
    refine hothers other (fun he => hnodup.1 ?_) (hstored other (List.mem_cons_of_mem _ ho))
    exact he ▸ List.mem_map_of_mem ho

/-- A list of the store names each job once. -/
theorem nodup_of_answers {s s' : SqliteRepairStore} {now : Time} {jobs : List RepairJob}
    (h : s.Answers now .unfinished (.ok jobs) s' ∨ s.Answers now .parked (.ok jobs) s') :
    (jobs.map RepairJob.id).Nodup := by
  rcases h with h | h
  · rcases h.served_or_failed with ⟨hr, -⟩ | ⟨_, hr, -⟩
    · cases hr
      exact SqliteRepairStore.nodup_listed _ _
    · cases hr
  · rcases h.served_or_failed with ⟨hr, -⟩ | ⟨_, hr, -⟩
    · cases hr
      exact SqliteRepairStore.nodup_listed _ _
    · cases hr

theorem reconcileOnStartup_records (owner : String) :
    (reconcileOnStartup owner).Obeys recording l fun _ _ => True := by
  have hafter : ∀ cleared l, (reconcileAfter cleared).Obeys recording l fun _ _ => True := by
    intro cleared l
    refine M.obeys_store trivial fun r l₁ hn => ?_
    split
    · trivial
    · rename_i jobs
      have hnodup : (jobs.map RepairJob.id).Nodup := by
        obtain ⟨l₂, -, -, -, ha⟩ := hn
        exact nodup_of_answers (.inl ha.1)
      refine (countMoved_records (fun job l _ => reconcileActionableJob_records) hnodup
        fun job hjob => Site.stored_of_shows hn hjob fun hs => hs).bind fun rewound l₂ _ => ?_
      have hparked : listParked.Obeys recording l₂ fun parked l' =>
          (parked.map RepairJob.id).Nodup ∧ ∀ job ∈ parked, l'.Stored job := by
        refine M.obeys_store trivial fun r l₃ hn => ?_
        split
        · refine ⟨?_, fun job hjob => Site.stored_of_shows hn hjob fun hs => hs⟩
          obtain ⟨l₄, -, -, -, ha⟩ := hn
          exact nodup_of_answers (.inr ha.1)
        · exact ⟨List.nodup_nil, fun _ hjob => by cases hjob⟩
      refine hparked.bind fun parked l₃ hl₃ => ?_
      refine (countMoved_records (fun job l => reconcileParkedJob_records) hl₃.1 hl₃.2).bind
        fun corrected l₄ _ => ?_
      exact M.obeys_now trivial fun now l₅ _ => M.obeys_publish trivial fun l₆ _ => trivial
  refine M.obeys_store trivial fun r l _ => ?_
  split <;> exact hafter _ _

/-! ## Operators -/

/-- A call that is safe in every world. -/
def AlwaysSafe (c : Call) : Prop := ∀ l : Site, l.Safe c

theorem obeys_of_alwaysSafe {α : Type} {p : M α} (h : p.Only AlwaysSafe) :
    p.Obeys recording l fun _ _ => True :=
  h.obeys (I := fun _ => True) trivial fun _ l hc _ => ⟨hc l, fun _ _ _ => trivial⟩

/-- What operators do, but for a retry, leaves no job staged. -/
theorem allows_alwaysSafe : AllowsOperators AlwaysSafe where
  job _ _ := trivial
  history _ _ := trivial
  plannedFiles _ _ := trivial
  recordProgress _ _ _ := ⟨fun _ hdir => (by cases hdir), rfl⟩
  apply id t u hr hu l := by
    obtain ⟨dir, files, hu, hhome⟩ := hu
    refine ⟨fun d hd => hhome d (by rw [hu] at hd; exact hd), fun r _ _ hpast => ?_⟩
    rcases hpast.cases with hs | ⟨hretry, -⟩ | ⟨hprogress, -⟩
    · have hfrom : t.fromState = .awaitingReview ∨ t.fromState = .failed := by
        rcases t.cases_reason with ⟨h, -⟩ | ⟨_, h, -⟩ | ⟨h, -⟩ | ⟨h, -⟩ | ⟨-, h, -⟩ | ⟨-, h, -⟩ |
          ⟨-, h, -⟩ | ⟨h, -⟩
        · rw [h] at hr
          simp at hr
        · rw [h] at hr
          simp at hr
        · rw [h] at hr
          simp at hr
        · rw [h] at hr
          simp at hr
        · exact .inl h
        · exact .inl h
        · exact h
        · rw [h] at hr
          simp at hr
      rcases hfrom with h | h
      · rw [h] at hs
        exact absurd hs (by decide)
      · rw [h] at hs
        exact absurd hs (by decide)
    · rw [hretry] at hr
      simp at hr
    · rw [hprogress] at hr
      simp at hr
  remove _ _ := trivial
  discard _ _ := trivial
  publish _ _ := trivial
  panic _ := trivial

/-- A retry takes a job back to where it stopped. -/
theorem retry_records (h : l.Stored job) {target : RepairState} {u : TransitionUpdate}
    (hu : u.patch.Planless) :
    (applyAction job target .operatorRetry u).Obeys recording l fun _ _ => True := by
  unfold applyAction
  split
  · trivial
  · rename_i t ht
    obtain ⟨-, htarget, -⟩ := RepairJob.retry_ok ht
    have hreason := (validateTransition_ok ht).2.2.1
    have hsafe : l.Safe (.store (.apply job.id t u)) := by
      refine ⟨hu.homed job.id, fun r hr hfrom hpast => ?_⟩
      rcases hpast.cases with hs | ⟨-, hparked, hrank⟩ | ⟨hprogress, -⟩
      · exact .inl ⟨.inl (by rw [hfrom]; exact hs), hu⟩
      · exact .inl ⟨h.past hr (hfrom.trans hparked) htarget hrank, hu⟩
      · rw [hreason] at hprogress
        cases hprogress
    refine M.obeys_store hsafe fun r l₁ _ => ?_
    split
    · trivial
    · exact M.obeys_publish trivial fun _ _ => trivial

theorem withJob_records {id : JobId} {action : RepairJob → M (Except WebError Unit)}
    (h : ∀ job l, l.Stored job → (action job).Obeys recording l fun _ _ => True) :
    (withJob id action).Obeys recording l fun _ _ => True := by
  refine M.obeys_store trivial fun r l₁ hn => ?_
  split
  · trivial
  · trivial
  · exact h _ _ (Site.stored_of_shows hn rfl fun hs => hs)

theorem OperatorProgram.records {id : JobId} {p : M Unit} (h : OperatorProgram id p) :
    p.Obeys recording l fun _ _ => True := by
  cases h with
  | retry =>
    refine (withJob_records fun job l hjob => ?_).bind fun _ _ _ => trivial
    split
    · trivial
    · exact retry_records hjob planless_default
  | approveResume =>
    refine (withJob_records fun job l hjob => ?_).bind fun _ _ _ => trivial
    split
    · trivial
    · split_ifs
      · trivial
      · exact retry_records hjob ⟨rfl, rfl, rfl, rfl⟩
  | chooseCandidate path index =>
    exact (obeys_of_alwaysSafe (chooseCandidateAction_only
      allows_alwaysSafe.toAllowsReviews)).bind fun _ _ _ => trivial
  | abandon =>
    exact (obeys_of_alwaysSafe (abandonAction_only
      allows_alwaysSafe.toAllowsReviews)).bind fun _ _ _ => trivial
  | abandonAndDiscard =>
    exact (obeys_of_alwaysSafe (withJob_only (allows_alwaysSafe.job id) fun _ =>
      discardThen_only allows_alwaysSafe (.inl rfl) (planOnly_default _))).bind fun _ _ _ => trivial
  | restart =>
    exact (obeys_of_alwaysSafe (withJob_only (allows_alwaysSafe.job id) fun _ =>
      discardThen_only allows_alwaysSafe (.inr rfl) (planOnly_default _))).bind fun _ _ _ => trivial

/-! ## Every run -/

theorem AnyProgram.records {p : M Unit} (h : AnyProgram p) : p.Obeys recording l fun _ _ => True := by
  cases h with
  | tick deps config => exact (workerRules_recording.tick l).bind fun _ _ _ => trivial
  | reconcile owner => exact (reconcileOnStartup_records owner).bind fun _ _ _ => trivial
  | operator h => exact h.records

/-- The runs of the workshop in which every attempt trusts what it may. -/
theorem workshop_sound : (workshop.restrict fun _ c w => w.Trusting c).Sound (fun _ => recording)
    Site.Recorded fun _ l w => Relation.ReflTransGen Site.Moves l w where
  start _ _ w _ hp := ⟨w, .refl, hp.records⟩
  call := by
    rintro i c w r w' l hw hl hmay ⟨htrust, ha⟩
    have hsafe : w.Safe c := by
      clear ha htrust hw
      induction hl with
      | refl => exact hmay
      | tail _ hm ih => exact ih.moves hm
    exact ⟨hw.answers hsafe ha, ⟨w', ⟨w, hl, hw, htrust, ha⟩, .refl⟩, fun j hj => absurd rfl hj⟩
  move w w' hw hm := ⟨hw.moves hm, fun _ _ hl => hl.tail hm⟩

end

/-- Nothing is recorded of an empty store. -/
theorem Site.recorded_new (now : Time) (disk : Disk) : Site.Recorded ⟨.new, now, disk⟩ where
  home _ _ _ hr := by cases hr
  hardlinks _ _ _ hr := by cases hr

/-- In every run whose attempts to stage find no hardlink of the right size at a destination whose
    row says otherwise, a job from the staged state on that has a file hardlinked to the library
    says so. -/
theorem hardlinks_recorded {w₀ : Site} (hw₀ : w₀.Recorded) {s : Lib.Config Unit Call Ans Site}
    (hs : (workshop.restrict fun _ c w => w.Trusting c).Reach w₀ s) {job : RepairJob}
    (hjob : s.world.store.job job.id = some job) (hstate : job.state.StagedOrLater) {f : PlannedFile}
    (hf : f ∈ s.world.store.plannedFiles job.id) {source : PathBuf}
    (hlink : s.world.disk.Hardlinked
      (f.torrentPath.under (job.stagingDir.getD job.defaultStagingDir)) source) :
    job.materialization = some .hardlink := by
  have hrecorded : s.world.Recorded := (workshop_sound.reach hw₀ hs).inv
  obtain ⟨r, hr, hread⟩ := Option.map_eq_some_iff.1 hjob
  subst hread
  obtain ⟨row, hrow, rfl⟩ := List.mem_map.1 hf
  rw [List.mem_insertionSort] at hrow
  have hdir : (readJob r).stagingDir.getD (readJob r).defaultStagingDir = (readJob r).id.home := by
    cases hd : r.stagingDir with
    | none =>
      rw [show (readJob r).stagingDir = none from hd]
      exact (readJob r).defaultStagingDir_eq
    | some dir =>
      rw [show (readJob r).stagingDir = some dir from hd]
      exact hrecorded.home _ r dir hr hd
  rw [hdir] at hlink
  exact hrecorded.hardlinks _ r row hr (.inl hstate) hrow ⟨source, hlink⟩

/-! ## An attempt that was cut short -/

namespace Site

/-- The staging area and the store, answering. -/
def reply (host : Host) (w : Site) : (c : Call) → Option (Ans c × Site)
  | .staging (.materialize plan preference) =>
    let r := LocalStaging.materialize ⟨.ofString "/staging", 0⟩ host plan preference w.disk
    some (r.1, { w with disk := r.2 })
  | .staging (.inspect plan) => some (.ok (LocalStaging.inspect plan w.disk), w)
  | .store c => some ((w.store.answer w.now c).1, { w with store := (w.store.answer w.now c).2 })
  | .now => some (w.now, w)
  | .shuttingDown => some (false, w)
  | .publish _ | .notify _ | .recordTick _ | .enterStep _ => some ((), w)
  | _ => none

theorem reply_answers {host : Host} {w : Site} {c : Call} {r : Ans c × Site}
    (h : w.reply host c = some r) : w.Answers c r.1 r.2 := by
  cases c with
  | store c =>
    cases h
    exact ⟨.served, rfl, rfl⟩
  | staging c =>
    cases c with
    | materialize plan preference =>
      cases h
      exact ⟨_, _, rfl, rfl, rfl⟩
    | inspect plan =>
      cases h
      exact ⟨.inl rfl, rfl⟩
    | discard dir => cases h
  | now =>
    cases h
    exact ⟨⟨rfl, rfl⟩, rfl, rfl⟩
  | client c => cases h
  | tracker c => cases h
  | library c => cases h
  | panic => cases h
  | _ =>
    cases h
    exact ⟨rfl, rfl, rfl⟩

/-- A call is answered at a time if it passes a check. -/
def serve (check : Call → Site → Bool) (host : Host) (time : Time) (c : Call) (w : Site) :
    Option (Ans c × Site) :=
  let w' := { w with now := time }
  if w.now ≤ time ∧ check c w' = true then w'.reply host c else none

/-- Programs are played one after the other, as far as their calls are answered. -/
theorem reach_played {check : Call → Site → Bool} {host : Host} {ok : Call → Site → Prop}
    (hok : ∀ c w, check c w = true → ok c w) {w₀ : Site} {s : Lib.Config Unit Call Ans Site}
    (hs : (workshop.restrict fun _ => ok).Reach w₀ s) {p : M Unit} (hp : AnyProgram p) (time : Time)
    (n : ℕ) :
    ∃ s', (workshop.restrict fun _ => ok).Reach w₀ s' ∧
      s'.world = (System.drive (serve check host time) n p s.world).2 := by
  have hserve : ∀ c w r, serve check host time c w = some r → ∃ w',
      Relation.ReflTransGen (workshop.restrict fun _ => ok).moves w w' ∧
        (workshop.restrict fun _ => ok).answers () c w' r.1 r.2 := by
    intro c w r hr
    unfold serve at hr
    simp only at hr
    split_ifs at hr with hcheck
    exact ⟨_, .single (.pass hcheck.1), hok _ _ hcheck.2, reply_answers hr⟩
  obtain ⟨s', hs', -, hworld⟩ := System.reach_again (i := ()) hs hp hserve n
  exact ⟨s', hs', hworld⟩

/-- Nothing lies where an attempt puts its files, or their rows say that they are hardlinks. -/
def trusts (c : Call) (w : Site) : Bool :=
  match c with
  | .staging (.materialize plan _) => plan.items.all fun item =>
    (w.disk.staged item.destination).isNone || item.previousStrategy.getD .hardlink = .hardlink
  | _ => true

theorem trusting_of_trusts {c : Call} {w : Site} (h : trusts c w = true) : w.Trusting c := by
  cases c with
  | staging c =>
    cases c with
    | materialize plan preference =>
      intro item hitem e he _ _ _
      have hor := List.all_eq_true.1 h item hitem
      rw [he] at hor
      simpa using hor
    | _ => trivial
  | _ => trivial

end Site

/-- A host on one device, where everything goes through and a copy has some length. -/
def oneDevice (length : ℕ) : Host where
  stagingDevice := .ok 1
  availableBytes := .ok (2 ^ 40)
  resolveUnder _ := none
  createDirectories _ := none
  deviceOf _ := 1
  followedDevice _ := some 1
  followed _ := .error "No such file or directory"
  probeReflinkCapability := .unsupported "operation not supported"
  removeFile _ := none
  reflink _ := .failed none "operation not supported"
  hardLink _ := none
  copy _ := .done length

def showPath : SafeRelativePath := .ofComponent "show.mkv" (by decide)

def showSource : PathBuf := .ofString "/media/show.mkv"

/-- A job that was matched, and its source in the library. -/
def matchedSite : Site where
  store := ⟨⟨[{ discoveredRow ⟨1⟩ 0 ⟨⟨"tracker"⟩, ⟨"7"⟩, "show", none, 10, none⟩ with
      state := .matched, infoHash := some sevens, torrentFile := some [0] }], List.nodup_singleton _⟩,
    ⟨[writePlannedFile ⟨1⟩ ⟨showPath, 10, some showSource, some .exact, none, none, none⟩],
      List.nodup_singleton _⟩, [], 1⟩
  now := 0
  disk :=
    { staged := fun _ => none
      library := fun p => if p = showSource then some ⟨.file, 0⟩ else none
      length := fun _ => 10
      unused := 1
      staged_used := fun h => by cases h
      library_used := fun h => by
        split_ifs at h
        cases h
        exact Nat.lt_succ_self _ }

theorem matchedSite_recorded : matchedSite.Recorded where
  home id r dir hr hdir := by
    obtain rfl := List.mem_singleton.1 (Table.get?_some hr).1
    cases hdir
  hardlinks id r f hr hpast := by
    obtain rfl := List.mem_singleton.1 (Table.get?_some hr).1
    exact absurd hpast (by rintro (h | ⟨h, -⟩) <;> revert h <;> decide)

/-- A worker that stages in one way only. -/
def stagingTick (allowHardlink allowCopy : Bool) : M Unit :=
  tick { anyDeps with policy := { SafetyPolicy.default with
    materialization := ⟨false, allowHardlink, allowCopy⟩ } } ⟨"a", .fromSecs 60, 4⟩ >>= fun _ => pure ()

def minute (n : ℕ) : Time := n * Duration.fromSecs 60

/-- The first `n` calls of a program, all at one time, on a host where everything goes through. -/
def Site.played (check : Call → Site → Bool) (minutes n : ℕ) (p : M Unit) (w : Site) : Site :=
  (System.drive (Site.serve check (oneDevice 10) (minute minutes)) n p w).2

/-- What a row and the disk say of the only job. -/
structure Site.StagedAs (w : Site) (materialization : MaterializationStrategy) : Prop where
  job : ((w.store.job ⟨1⟩).map fun job => (job.id, job.state, job.stagingDir, job.materialization)) =
    some (⟨1⟩, .staged, some (JobId.home ⟨1⟩), some materialization)
  files : ((w.store.plannedFiles ⟨1⟩).map fun f => (f.torrentPath, f.source)) =
    [(showPath, some showSource)]
  disk : w.disk.staged (showPath.under (JobId.home ⟨1⟩)) = some ⟨.file, 0⟩ ∧
    w.disk.library showSource = some ⟨.file, 0⟩

/-- A staged job with a file that is a hardlink of its source. -/
theorem Site.StagedAs.hardlinked {w : Site} {m : MaterializationStrategy} (h : w.StagedAs m) :
    ∃ job f, w.store.job job.id = some job ∧ job.state.StagedOrLater ∧
      f ∈ w.store.plannedFiles job.id ∧ f.source = some showSource ∧
        w.disk.Hardlinked (f.torrentPath.under (job.stagingDir.getD job.defaultStagingDir)) showSource ∧
          job.materialization = some m := by
  obtain ⟨job, hjob, he⟩ := Option.map_eq_some_iff.1 h.job
  simp only [Prod.mk.injEq] at he
  obtain ⟨hid, hstate, hdir, hm⟩ := he
  obtain ⟨f, hf, he⟩ := List.mem_map.1 (h.files ▸ List.mem_singleton_self _ :
    (showPath, some showSource) ∈ (w.store.plannedFiles ⟨1⟩).map fun f => (f.torrentPath, f.source))
  simp only [Prod.mk.injEq] at he
  obtain ⟨hpath, hsource⟩ := he
  refine ⟨job, f, by rw [hid]; exact hjob, by rw [hstate]; decide, by rw [hid]; exact hf, hsource, ?_, hm⟩
  rw [hdir, hpath]
  exact ⟨_, h.disk⟩

/-- A hardlink that an attempt left behind when it was cut short is recorded as the copy that the
    attempt before it had made. -/
theorem hardlink_recorded_as_copy : matchedSite.Recorded ∧ ∃ s job f,
    workshop.Reach matchedSite s ∧ s.world.store.job job.id = some job ∧ job.state.StagedOrLater ∧
      f ∈ s.world.store.plannedFiles job.id ∧ f.source = some showSource ∧
        s.world.disk.Hardlinked
          (f.torrentPath.under (job.stagingDir.getD job.defaultStagingDir)) showSource ∧
            job.materialization ≠ some .hardlink := by
  have hplay : ∀ {s p}, (workshop.restrict fun _ _ _ => True).Reach matchedSite s → AnyProgram p →
      ∀ minutes n, ∃ s', (workshop.restrict fun _ _ _ => True).Reach matchedSite s' ∧
        s'.world = s.world.played (fun _ _ => true) minutes n p :=
    fun hs hp minutes n => Site.reach_played (fun _ _ _ => trivial) hs hp (minute minutes) n
  have hreconcile : AnyProgram (reconcileOnStartup "a" >>= fun _ => pure ()) := .reconcile "a"
  obtain ⟨s₁, hs₁, hw₁⟩ := hplay .refl (.tick _ _ : AnyProgram (stagingTick false true)) 2 30
  have hdelete : s₁.world.disk.Tampered (s₁.world.disk.remove (showPath.under (JobId.home ⟨1⟩))) :=
    { staged := fun d => by
        by_cases hd : d = showPath.under (JobId.home ⟨1⟩)
        · exact .inl (hd ▸ Function.update_self ..)
        · exact .inr (Function.update_of_ne hd ..)
      library := fun p e he => .inr ⟨p, he⟩
      unused := le_rfl }
  have hs₂ := hs₁.tail (.move (.tamper hdelete))
  obtain ⟨s₃, hs₃, hw₃⟩ := hplay hs₂ hreconcile 4 30
  obtain ⟨s₄, hs₄, hw₄⟩ := hplay hs₃ (.tick _ _ : AnyProgram (stagingTick true false)) 6 8
  obtain ⟨s₅, hs₅, hw₅⟩ := hplay hs₄ (.tick _ _ : AnyProgram (stagingTick true false)) 8 30
  have hshows : s₅.world.StagedAs .copy := by
    rw [hw₅, hw₄, hw₃]
    simp only [hw₁]
    exact ⟨by decide +kernel, by decide +kernel, by decide +kernel⟩
  obtain ⟨job, f, hjob, hstate, hf, hsource, hlink, hcopy⟩ := hshows.hardlinked
  exact ⟨matchedSite_recorded, s₅, job, f, System.reach_of_within hs₅, hjob, hstate, hf, hsource, hlink,
    by rw [hcopy]; decide⟩

/-- A job staged by a hardlink says so. -/
theorem hardlinked_job_recorded : ∃ s job f,
    (workshop.restrict fun _ c w => w.Trusting c).Reach matchedSite s ∧
      s.world.store.job job.id = some job ∧ job.state.StagedOrLater ∧
        f ∈ s.world.store.plannedFiles job.id ∧ f.source = some showSource ∧
          s.world.disk.Hardlinked
            (f.torrentPath.under (job.stagingDir.getD job.defaultStagingDir)) showSource ∧
              job.materialization = some .hardlink := by
  have hplay : ∃ s, (workshop.restrict fun _ c w => w.Trusting c).Reach matchedSite s ∧
      s.world = matchedSite.played Site.trusts 2 30 (stagingTick true false) :=
    Site.reach_played (fun _ _ => Site.trusting_of_trusts) .refl (.tick _ _) (minute 2) 30
  obtain ⟨s, hs, hw⟩ := hplay
  have hshows : s.world.StagedAs .hardlink := by
    rw [hw]
    exact ⟨by decide +kernel, by decide +kernel, by decide +kernel⟩
  obtain ⟨job, f, hjob, hstate, hf, hsource, hlink, -⟩ := hshows.hardlinked
  exact ⟨s, job, f, hs, hjob, hstate, hf, hsource, hlink,
    hardlinks_recorded matchedSite_recorded hs hjob hstate hf hlink⟩

end SeedMedic
