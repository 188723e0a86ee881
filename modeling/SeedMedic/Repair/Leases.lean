/-
  Leases: what the store's rows say of them, and what each worker was granted.
-/
import SeedMedic.Repair.Serve

namespace SeedMedic

open Lib SqliteRepairStore

/-- Who holds a row, and until when. -/
def JobRow.lease (r : JobRow) : Option (String × Stamp) :=
  r.leaseOwner.bind fun owner => r.leaseExpiresAt.map fun t => (owner, t)

namespace SqliteRepairStore

variable {s s' : SqliteRepairStore} {id k : JobId} {now : Time}

/-- The lease on a job. -/
def leaseOf (s : SqliteRepairStore) (id : JobId) : Option (String × Stamp) :=
  (s.jobs.get? id).bind JobRow.lease

theorem leaseOf_eq_of_rows {f : JobRow → JobRow} (hid : ∀ r, (f r).id = r.id)
    (hlease : ∀ r, (f r).lease = r.lease) (h : s'.jobs.rows = s.jobs.rows.map f) :
    s'.leaseOf = s.leaseOf := by
  funext k
  rw [leaseOf, get?_of_rows_map hid h, leaseOf]
  cases s.jobs.get? k with
  | none => rfl
  | some r => exact hlease r

/-- What a write through `UPDATE` leaves of the lease on a job. -/
theorem leaseOf_update {p : JobRow → Bool} {f : JobRow → JobRow}
    (h : s'.jobs.rows = s.jobs.rows.map fun r => if p r then f r else r)
    (hf : ∀ r, (f r).id = r.id) (k : JobId) :
    s'.leaseOf k = (s.jobs.get? k).bind fun r => (if p r then f r else r).lease := by
  rw [leaseOf, get?_of_rows_map (fun r => by split_ifs <;> simp [hf]) h]
  cases s.jobs.get? k <;> rfl

theorem leaseOf_apply {t : Transition} {u : TransitionUpdate} {a : Applied}
    (h : s.apply now id t u = .ok (a, s')) : s'.leaseOf = s.leaseOf := by
  obtain ⟨r, hr, ⟨rfl, -⟩ | ⟨-, -, -, rfl⟩⟩ := apply_ok h
  · refine leaseOf_eq_of_rows (movedRow_id t u) (fun r => ?_) (apply_applied_jobs h)
    unfold movedRow
    split_ifs <;> rfl
  · rfl

theorem leaseOf_recordProgress (patch : JobPatch) :
    (s.recordProgress now id patch).leaseOf = s.leaseOf := by
  funext k
  rw [leaseOf_update rfl (by intro r; rfl), leaseOf]
  cases s.jobs.get? k with
  | none => rfl
  | some r => simp only [Option.bind_some]; split_ifs <;> rfl

theorem leaseOf_setReviewResumePoint {state : RepairState}
    (h : s.setReviewResumePoint now id state = .ok s') : s'.leaseOf = s.leaseOf := by
  have hmove : ((s.moveResumePoint (timestamp now) id state)).leaseOf = s.leaseOf := by
    funext k
    rw [leaseOf_update rfl (by intro r; rfl), leaseOf]
    cases s.jobs.get? k with
    | none => rfl
    | some r => simp only [Option.bind_some]; split_ifs <;> rfl
  unfold setReviewResumePoint at h
  split at h
  · cases h
  · split_ifs at h
    · cases h
      rfl
    · split at h
      · cases h
      · split_ifs at h
        · cases h
          rfl
        · cases h
          exact hmove

/-- A claim puts the lease on the jobs it takes, and on no others. -/
theorem leaseOf_claim (owner : String) (lease : Duration) (limit : ℤ) (k : JobId) :
    (s.claim now owner lease limit).2.leaseOf k =
      if k ∈ s.claimedIds (timestamp now) limit ∧ (s.jobs.get? k).isSome then
        some (owner, leaseEnd now lease)
      else s.leaseOf k := by
  rw [leaseOf_update rfl (by intro r; rfl), leaseOf]
  cases hr : s.jobs.get? k with
  | none => simp
  | some r =>
    have hid : r.id = k := (Table.get?_some hr).2
    by_cases hk : k ∈ s.claimedIds (timestamp now) limit
    · simp [hid, hk, JobRow.lease, leaseRow]
    · simp [hid, hk]

/-- Only jobs without a running lease are taken. -/
theorem leaseOf_claimed {limit : ℤ} (h : k ∈ s.claimedIds (timestamp now) limit) {owner : String}
    {t : Stamp} (hl : s.leaseOf k = some (owner, t)) : t ≤ timestamp now := by
  unfold claimedIds at h
  obtain ⟨r, hr, rfl⟩ := List.mem_map.1 h
  have hmem : r ∈ s.jobs.rows.filter (claimable (timestamp now)) := by
    refine (List.mem_insertionSort fun a b => claimBefore a b).1 ?_
    unfold limited at hr
    split_ifs at hr
    · exact hr
    · exact List.mem_of_mem_take hr
  obtain ⟨hrow, hclaimable⟩ := List.mem_filter.1 hmem
  rw [leaseOf, Table.get?_eq_some hrow, Option.bind_some] at hl
  simp only [claimable, Bool.and_eq_true, Option.all_eq_true] at hclaimable
  simp only [JobRow.lease, Option.bind_eq_some_iff, Option.map_eq_some_iff, Prod.mk.injEq] at hl
  obtain ⟨o, -, t', ht', -, rfl⟩ := hl
  simpa using hclaimable.2 t' ht'

/-- A renewal moves the end of the caller's own lease. -/
theorem leaseOf_renewLease (owner : String) (lease : Duration) (k : JobId) :
    (s.renewLease now id owner lease).2.leaseOf k =
      if k = id ∧ ((s.jobs.get? k).bind JobRow.leaseOwner) = some owner then
        some (owner, leaseEnd now lease)
      else s.leaseOf k := by
  rw [leaseOf_update rfl (by intro r; rfl), leaseOf]
  cases hr : s.jobs.get? k with
  | none => simp
  | some r =>
    have hid : r.id = k := (Table.get?_some hr).2
    by_cases hk : k = id ∧ r.leaseOwner = some owner
    · simp [hid, hk, JobRow.lease]
    · simp [hid, hk]

theorem leaseOwner_of_leaseOf {owner : String} {t : Stamp} (h : s.leaseOf k = some (owner, t)) :
    ((s.jobs.get? k).bind JobRow.leaseOwner) = some owner := by
  obtain ⟨r, hr, hl⟩ := Option.bind_eq_some_iff.1 h
  obtain ⟨o, ho, he⟩ := Option.bind_eq_some_iff.1 hl
  obtain ⟨e, -, he⟩ := Option.map_eq_some_iff.1 he
  cases he
  rw [hr, Option.bind_some, ho]

/-- A renewal tells whether the row was the caller's. -/
theorem renewLease_fst (owner : String) (lease : Duration) :
    (s.renewLease now id owner lease).1 = true ↔
      ((s.jobs.get? id).bind JobRow.leaseOwner) = some owner := by
  simp only [renewLease, List.any_eq_true, decide_eq_true_eq]
  constructor
  · rintro ⟨r, hr, rfl, ho⟩
    rw [Table.get?_eq_some hr, Option.bind_some, ho]
  · intro h
    obtain ⟨r, hr, ho⟩ := Option.bind_eq_some_iff.1 h
    obtain ⟨hmem, hid⟩ := Table.get?_some hr
    exact ⟨r, hmem, hid, ho⟩

/-- A release drops the lease of the job, whoever holds it. -/
theorem leaseOf_release (retryAt : Option Time) (countAttempt : Bool) (k : JobId) :
    (s.release now id retryAt countAttempt).leaseOf k = if k = id then none else s.leaseOf k := by
  rw [leaseOf_update rfl (by intro r; rfl), leaseOf]
  cases hr : s.jobs.get? k with
  | none => simp
  | some r =>
    have hid : r.id = k := (Table.get?_some hr).2
    by_cases hk : k = id
    · simp [hid, hk, JobRow.lease, releaseRow]
    · simp [hid, hk]

/-- Clearing stale leases drops the expired ones and the caller's own. -/
theorem leaseOf_clearStaleLeases (owner : String) (k : JobId) :
    (s.clearStaleLeases now owner).2.leaseOf k =
      (s.leaseOf k).filter fun l => decide (timestamp now < l.2 ∧ l.1 ≠ owner) := by
  rw [leaseOf_update rfl (by intro r; rfl), leaseOf]
  cases hr : s.jobs.get? k with
  | none => rfl
  | some r =>
    obtain ⟨o, ho⟩ : ∃ o, r.leaseOwner = o := ⟨_, rfl⟩
    obtain ⟨e, he⟩ : ∃ e, r.leaseExpiresAt = e := ⟨_, rfl⟩
    simp only [Option.bind_some, stale, he, ho]
    cases e with
    | none => simp [JobRow.lease, he]
    | some t =>
      cases o with
      | none =>
        simp only [JobRow.lease]
        split_ifs <;> simp [ho]
      | some o =>
        by_cases hlt : timestamp now < t <;> by_cases hoo : o = owner <;>
          simp [JobRow.lease, ho, he, hlt, hoo, not_le.2, not_lt.1, Option.filter]

end SqliteRepairStore

/-! ## What each worker was granted -/

/-- The end of the lease a worker was last granted on a job and has not given up. -/
abbrev Grants := String → JobId → Option Stamp

/-- What an answered call of a worker says about its grants. -/
def Grants.learn (owner : String) (now : Time) (g : Grants) : (c : StoreCall) → c.Ans → Grants
  | .claim _ lease _, .ok jobs => fun o id =>
    if o = owner ∧ id ∈ jobs.map RepairJob.id then some (leaseEnd now lease) else g o id
  | .renewLease id _ lease, .ok true => fun o k =>
    if o = owner ∧ k = id then some (leaseEnd now lease) else g o k
  | .release id _ _, .ok () => fun o k => if o = owner ∧ k = id then none else g o k
  | .clearStaleLeases _, .ok _ => fun o k => if o = owner then none else g o k
  | _, _ => g

/-- The store, the clock, and what the workers were granted. -/
structure LeaseWorld where
  store : SqliteRepairStore
  now : Time
  granted : Grants

namespace LeaseWorld

variable {w : LeaseWorld} {owner o : String} {id k : JobId} {t : Stamp}

/-- A worker was granted the job until after now. -/
def InForce (w : LeaseWorld) (owner : String) (id : JobId) : Prop :=
  ∃ t, w.granted owner id = some t ∧ timestamp w.now < t

/-- The row of a job carries an unexpired lease of `owner`. -/
def Holds (w : LeaseWorld) (owner : String) (id : JobId) : Prop :=
  ∃ t, w.store.leaseOf id = some (owner, t) ∧ timestamp w.now < t

/-- The unexpired leases on the rows are the unexpired grants. -/
def Agree (w : LeaseWorld) : Prop :=
  ∀ o id t, timestamp w.now < t → (w.granted o id = some t ↔ w.store.leaseOf id = some (o, t))

/-- A world in which nothing was granted but what the rows say. -/
def opening (s : SqliteRepairStore) (now : Time) : LeaseWorld where
  store := s
  now := now
  granted := fun o id => (s.leaseOf id).bind fun l => if l.1 = o then some l.2 else none

theorem agree_opening (s : SqliteRepairStore) (now : Time) : (opening s now).Agree := by
  intro o id t _
  simp only [opening]
  cases s.leaseOf id with
  | none => simp
  | some l =>
    obtain ⟨o', t'⟩ := l
    by_cases ho : o' = o <;> simp [ho]

/-- The world after a call of a worker that the store serves. -/
def serve (w : LeaseWorld) (owner : String) (c : StoreCall) : LeaseWorld where
  store := (w.store.answer w.now c).2
  now := w.now
  granted := w.granted.learn owner w.now c (w.store.answer w.now c).1

/-- The owner a call names, where it names one, is the worker's own. -/
def OwnName (owner : String) : StoreCall → Prop
  | .claim o _ _ | .renewLease _ o _ | .clearStaleLeases o => o = owner
  | _ => True

/-- No release is made while another worker's grant is in force. -/
def ReleasesOwn (w : LeaseWorld) (owner : String) : StoreCall → Prop
  | .release id _ _ => ∀ o, o ≠ owner → ¬w.InForce o id
  | _ => True

theorem Agree.holds_iff (h : w.Agree) : w.Holds o id ↔ w.InForce o id :=
  exists_congr fun t => and_congr_left fun ht => (h o id t ht).symm

/-- Later, what is still unexpired still agrees. -/
theorem Agree.later (h : w.Agree) {now : Time} (hnow : w.now ≤ now) :
    ({ w with now } : LeaseWorld).Agree :=
  fun o id t ht => h o id t (lt_of_le_of_lt (timestamp_mono hnow) ht)

/-- A write that leaves the leases alone. -/
theorem Agree.write (h : w.Agree) {s : SqliteRepairStore} (hs : s.leaseOf = w.store.leaseOf) :
    ({ w with store := s } : LeaseWorld).Agree := by
  intro o id t ht
  rw [show ({ w with store := s } : LeaseWorld).store.leaseOf = w.store.leaseOf from hs]
  exact h o id t ht

/-- The jobs a claim returns are those it takes. -/
theorem claim_ids (s : SqliteRepairStore) (now : Time) (lease : Duration) (limit : ℤ) :
    k ∈ (s.claim now owner lease limit).1.map RepairJob.id ↔
      k ∈ s.claimedIds (timestamp now) limit ∧ (s.jobs.get? k).isSome := by
  set f : JobRow → JobRow := fun r =>
    if decide (r.id ∈ s.claimedIds (timestamp now) limit) then
      leaseRow owner (leaseEnd now lease) r else r with hf
  have hid : ∀ r, (f r).id = r.id := fun r => by simp only [hf]; split_ifs <;> rfl
  have hrows : (s.claim now owner lease limit).1 =
      ((s.jobs.rows.map f).filter fun r => r.id ∈ s.claimedIds (timestamp now) limit).map readJob := rfl
  rw [hrows]
  constructor
  · intro h
    obtain ⟨j, hj, rfl⟩ := List.mem_map.1 h
    obtain ⟨r', hr', rfl⟩ := List.mem_map.1 hj
    obtain ⟨hmem, htaken⟩ := List.mem_filter.1 hr'
    obtain ⟨r, hr, rfl⟩ := List.mem_map.1 hmem
    rw [decide_eq_true_eq, hid] at htaken
    have hk : (readJob (f r)).id = r.id := hid r
    rw [hk, Table.get?_eq_some hr]
    exact ⟨htaken, rfl⟩
  · rintro ⟨htaken, hsome⟩
    obtain ⟨r, hr⟩ := Option.isSome_iff_exists.1 hsome
    obtain ⟨hmem, rfl⟩ := Table.get?_some hr
    refine List.mem_map.2 ⟨readJob (f r), List.mem_map_of_mem (List.mem_filter.2
      ⟨List.mem_map_of_mem hmem, ?_⟩), hid r⟩
    rw [decide_eq_true_eq, hid]
    exact htaken

theorem nodup_claim (s : SqliteRepairStore) (now : Time) (owner : String) (lease : Duration)
    (limit : ℤ) : ((s.claim now owner lease limit).1.map RepairJob.id).Nodup := by
  unfold claim
  simp only [List.map_map]
  exact (s.jobs.update _ _ _).nodup.sublist (List.filter_sublist.map JobRow.id)

/-- Serving a call keeps rows and grants in agreement, unless it is a release of another
    worker's job. -/
theorem Agree.serve (h : w.Agree) {c : StoreCall} (hown : OwnName owner c)
    (hrel : w.ReleasesOwn owner c) : (w.serve owner c).Agree := by
  have hkeep : ∀ s : SqliteRepairStore, s.leaseOf = w.store.leaseOf →
      ({ w with store := s } : LeaseWorld).Agree := fun s hs => h.write hs
  cases c with
  | job id => exact h
  | torrentFile id => exact h
  | plannedFiles id => exact h
  | history id => exact h
  | unfinished => exact h
  | parked => exact h
  | apply id tr u =>
    refine hkeep _ ?_
    simp only [answer]
    cases ha : w.store.apply w.now id tr u with
    | error e => rfl
    | ok r =>
      obtain ⟨a, s'⟩ := r
      exact leaseOf_apply ha
  | recordProgress id patch => exact hkeep _ (leaseOf_recordProgress patch)
  | setReviewResumePoint id state =>
    refine hkeep _ ?_
    simp only [answer]
    cases ha : w.store.setReviewResumePoint w.now id state with
    | error e => rfl
    | ok s' => exact leaseOf_setReviewResumePoint ha
  | claim o lease limit =>
    cases hown
    intro o' k t ht
    have hids : (k ∈ ((w.store.claim w.now owner lease limit).1.map RepairJob.id)) ↔ _ :=
      claim_ids w.store w.now lease limit
    simp only [LeaseWorld.serve, answer, Grants.learn, leaseOf_claim]
    by_cases htaken : k ∈ w.store.claimedIds (timestamp w.now) limit ∧ (w.store.jobs.get? k).isSome
    · rw [if_pos htaken]
      by_cases ho : o' = owner
      · rw [if_pos ⟨ho, hids.2 htaken⟩, ho]
        simp
      · rw [if_neg (fun hc => ho hc.1), h o' k t ht]
        constructor
        · intro hl
          exact absurd (leaseOf_claimed htaken.1 hl) (not_le.2 ht)
        · intro he
          cases he
          exact absurd rfl ho
    · rw [if_neg htaken, if_neg (fun hc => htaken (hids.1 hc.2))]
      exact h o' k t ht
  | release id retryAt countAttempt =>
    intro o' k t ht
    simp only [LeaseWorld.serve, answer, Grants.learn, leaseOf_release]
    by_cases hk : k = id
    · rw [if_pos hk]
      by_cases ho : o' = owner
      · rw [if_pos ⟨ho, hk⟩]
        simp
      · rw [if_neg (fun hc => ho hc.1)]
        subst hk
        exact ⟨fun hg => absurd ⟨t, hg, ht⟩ (hrel o' ho), fun hn => by cases hn⟩
    · rw [if_neg hk, if_neg (fun hc => hk hc.2)]
      exact h o' k t ht
  | renewLease id o lease =>
    cases hown
    intro o' k t ht
    have hfst : (w.store.renewLease w.now id owner lease).1 = true ↔ _ := renewLease_fst owner lease
    have ht : timestamp w.now < t := ht
    simp only [LeaseWorld.serve, answer, leaseOf_renewLease]
    cases hb : (w.store.renewLease w.now id owner lease).1 with
    | false =>
      have hnot : ¬(k = id ∧ ((w.store.jobs.get? k).bind JobRow.leaseOwner) = some owner) := by
        rintro ⟨rfl, ho⟩
        rw [hfst.2 ho] at hb
        cases hb
      rw [if_neg hnot]
      exact h o' k t ht
    | true =>
      have howner := hfst.1 hb
      simp only [Grants.learn]
      by_cases hk : k = id
      · subst hk
        by_cases ho : o' = owner
        · rw [if_pos ⟨ho, rfl⟩, if_pos ⟨rfl, howner⟩, ho]
          simp
        · rw [if_neg (fun hc => ho hc.1), if_pos ⟨rfl, howner⟩, h o' k t ht]
          constructor
          · intro hl
            exact absurd (Option.some.inj ((leaseOwner_of_leaseOf hl).symm.trans howner)) ho
          · intro he
            cases he
            exact absurd rfl ho
      · rw [if_neg (fun hc => hk hc.2), if_neg (fun hc => hk hc.1)]
        exact h o' k t ht
  | clearStaleLeases o =>
    cases hown
    intro o' k t ht
    have ht : timestamp w.now < t := ht
    simp only [LeaseWorld.serve, answer, Grants.learn, leaseOf_clearStaleLeases]
    by_cases ho : o' = owner
    · rw [if_pos ho]
      simp [Option.filter_eq_some_iff, ho]
    · rw [if_neg ho, h o' k t ht, Option.filter_eq_some_iff]
      simp [ho, ht]

end LeaseWorld

/-! ## Runs of the lease statements -/

/-- The three statements workers keep leases with. -/
inductive LeaseOp where
  | claim (lease : Duration) (limit : ℤ)
  | renewLease (id : JobId) (lease : Duration)
  | release (id : JobId) (retryAt : Option Time) (countAttempt : Bool)

def LeaseOp.toCall (owner : String) : LeaseOp → StoreCall
  | claim lease limit => .claim owner lease limit
  | renewLease id lease => .renewLease id owner lease
  | release id retryAt countAttempt => .release id retryAt countAttempt

/-- What may happen to the leases: time passes, a worker runs a statement, or the jobs are
    written to without touching a lease. -/
inductive LeaseEvent where
  | pass (time : Duration)
  | run (owner : String) (op : LeaseOp)
  | write (f : SqliteRepairStore → SqliteRepairStore) (keeps : ∀ s, (f s).leaseOf = s.leaseOf)

namespace LeaseWorld

variable {w : LeaseWorld} {e : LeaseEvent}

def after (w : LeaseWorld) : LeaseEvent → LeaseWorld
  | .pass time => { w with now := w.now + time }
  | .run owner op => w.serve owner (op.toCall owner)
  | .write f _ => { w with store := f w.store }

/-- A release leaves the row of another worker's unexpired lease as it is, and a claim takes
    no job another worker was granted and still holds. -/
def Exclusive (w : LeaseWorld) : LeaseEvent → Prop
  | .run owner (.release id retryAt countAttempt) =>
    (∃ o, o ≠ owner ∧ w.Holds o id) →
      (w.store.release w.now id retryAt countAttempt).jobs.get? id = w.store.jobs.get? id
  | .run owner (.claim lease limit) =>
    ∀ id ∈ (w.store.claim w.now owner lease limit).1.map RepairJob.id,
      ∀ o, o ≠ owner → ¬w.InForce o id
  | _ => True

/-- The condition on a step: a release is not made while another worker's grant is in force. -/
def OwnRelease (w : LeaseWorld) : LeaseEvent → Prop
  | .run owner op => w.ReleasesOwn owner (op.toCall owner)
  | _ => True

/-- Something holds at every step of a run. -/
def Throughout (P : LeaseWorld → LeaseEvent → Prop) : List LeaseEvent → LeaseWorld → Prop
  | [], _ => True
  | e :: es, w => P w e ∧ Throughout P es (w.after e)

theorem Agree.after (h : w.Agree) (hrel : w.OwnRelease e) : (w.after e).Agree := by
  cases e with
  | pass time => exact h.later (Nat.le_add_right _ _)
  | run owner op =>
    refine h.serve ?_ hrel
    cases op <;> first | rfl | trivial
  | write f keeps => exact h.write (keeps _)

/-- A release always touches the row it finds. -/
theorem release_changes {s : SqliteRepairStore} {now : Time} {id : JobId} {owner : String}
    {t : Stamp} {retryAt : Option Time} {countAttempt : Bool} (h : s.leaseOf id = some (owner, t)) :
    (s.release now id retryAt countAttempt).jobs.get? id ≠ s.jobs.get? id := by
  intro heq
  have hlease : (s.release now id retryAt countAttempt).leaseOf id = s.leaseOf id := by
    rw [leaseOf, heq, leaseOf]
  rw [leaseOf_release, if_pos rfl, h] at hlease
  cases hlease

/-- While rows and grants agree, a step is exclusive exactly when it is no release of a job
    that is another's. -/
theorem Agree.exclusive_iff (h : w.Agree) : w.Exclusive e ↔ w.OwnRelease e := by
  cases e with
  | pass time => exact Iff.rfl
  | write f keeps => exact Iff.rfl
  | run owner op =>
    cases op with
    | renewLease id lease => exact Iff.rfl
    | claim lease limit =>
      refine ⟨fun _ => trivial, fun _ id hid o ho hforce => ?_⟩
      obtain ⟨t, hl, ht⟩ := h.holds_iff.2 hforce
      exact absurd (leaseOf_claimed ((claim_ids _ _ _ _).1 hid).1 hl) (not_le.2 ht)
    | release id retryAt countAttempt =>
      constructor
      · intro hex o ho hforce
        obtain ⟨t, hl, ht⟩ := h.holds_iff.2 hforce
        exact release_changes hl (hex ⟨o, ho, t, hl, ht⟩)
      · rintro hown ⟨o, ho, hholds⟩
        exact absurd (h.holds_iff.1 hholds) (hown o ho)

/-- In a run from agreement, every step is exclusive exactly when no release is made while
    another worker's grant is in force. -/
theorem Agree.throughout_iff (events : List LeaseEvent) :
    ∀ {w : LeaseWorld}, w.Agree →
      (Throughout Exclusive events w ↔ Throughout OwnRelease events w) := by
  induction events with
  | nil => exact fun _ => Iff.rfl
  | cons e es ih =>
    intro w h
    constructor
    · rintro ⟨he, hes⟩
      have hown := h.exclusive_iff.1 he
      exact ⟨hown, (ih (h.after hown)).1 hes⟩
    · rintro ⟨hown, hes⟩
      exact ⟨h.exclusive_iff.2 hown, (ih (h.after hown)).2 hes⟩

/-- One job, unleased. -/
def oneJob : SqliteRepairStore where
  jobs := ⟨[discoveredRow ⟨1⟩ 0 ⟨⟨"tracker"⟩, ⟨"7"⟩, "show", none, 10, none⟩], by simp⟩
  files := .empty
  transitions := []
  jobSeq := 1

/-- One worker's lease runs out, another claims, and the first releases. -/
def lateRelease : List LeaseEvent :=
  [.run "a" (.claim 10000 1), .pass 20000, .run "b" (.claim 10000 1), .pass 1000,
    .run "a" (.release ⟨1⟩ none false)]

end LeaseWorld

end SeedMedic
