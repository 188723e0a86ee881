/-
  Which hash check a verified job was judged by.
-/
import SeedMedic.Lib.Pool
import SeedMedic.Repair.Client
import SeedMedic.Repair.Programs
import SeedMedic.Repair.ResumeSafety

namespace SeedMedic

open Lib Prog SqliteRepairStore

/-! ## States past a recheck -/

/-- A state a job only comes to once a recheck of its torrent was accepted. -/
def RepairState.pastRecheck : RepairState → Bool
  | rechecking | verified | seeding | completed => true
  | _ => false

/-- A job that is past its recheck, or will be when it is taken up again. -/
def PastRecheck (state : RepairState) (reviewFrom : Option RepairState) : Prop :=
  state.pastRecheck = true ∨ ∃ resumeTo, reviewFrom = some resumeTo ∧ resumeTo.pastRecheck = true

/-- A transition leads past the recheck from past it, by the recheck itself, or by a retry of a
    job that was. -/
theorem pastRecheck_toState {job : RepairJob} {t : Transition}
    (hplan : job.planTransition t.toState t.reason = .ok t) (hpast : t.toState.pastRecheck = true) :
    t.fromState.pastRecheck = true ∨ (t.reason = .progress ∧ t.fromState = .injected) ∨
      PastRecheck job.state job.reviewFromState := by
  obtain ⟨hfrom, -, -, hlegal⟩ := validateTransition_ok hplan
  rcases t.cases_reason with ⟨hr, hnext⟩ | ⟨r, hr, -, hto⟩ | ⟨hr, -, hto⟩ | ⟨hr, -⟩ | ⟨hr, -, hto⟩ |
    ⟨hr, -, hto⟩ | ⟨hr, -, hto⟩ | ⟨hr, m, n, hm, hn, hlt⟩
  · -- one step on
    generalize t.fromState = src at *
    generalize t.toState = dst at *
    cases src <;> cases hnext <;> first | exact .inr (.inl ⟨hr, rfl⟩) | exact .inl rfl | cases hpast
  · rw [hto] at hpast
    cases hpast
  · rw [hto] at hpast
    cases hpast
  · -- a retry leads where the copy was parked from
    rw [hr, objection] at hlegal
    split_ifs at hlegal with hparked hresume
    exact .inr (.inr (.inr ⟨_, not_not.1 hresume, hpast⟩))
  · rw [hto] at hpast
    cases hpast
  · rw [hto] at hpast
    cases hpast
  · rw [hto] at hpast
    cases hpast
  · -- backwards only
    left
    generalize t.fromState = src at *
    generalize t.toState = dst at *
    cases dst <;> cases hpast <;> cases hn <;> cases src <;> cases hm <;>
      first | rfl | exact absurd hlt (by decide)

/-! ## The client's checks and the jobs that asked for them -/

/-- The store, the client, and what is known of the checks. -/
structure CheckWorld (W O : Type) where
  store : SqliteRepairStore
  now : Time
  desks : W ⊕ O → Desk
  torrents : Torrents
  /-- The events so far. -/
  events : ℕ
  /-- When a recheck was last accepted in a step of a job. -/
  requested : JobId → Option ℕ
  /-- The check that found what a thread was last told of a torrent. -/
  foundBy : W ⊕ O → Option ℕ

namespace CheckWorld

variable {W O : Type} [DecidableEq W] [DecidableEq O] (w : CheckWorld W O) (i : W ⊕ O)

/-- The requests after a call of a thread: an accepted recheck is one of its current job. -/
def requestedAfter : (c : Call) → Ans c → JobId → Option ℕ
  | .client (.recheck _), .ok () =>
    match (w.desks i).current with
    | some job => Function.update w.requested job.id (some w.events)
    | none => w.requested
  | _, _ => w.requested

/-- The origin of what each thread was told, after a call. -/
def foundByAfter : (c : Call) → Ans c → W ⊕ O → Option ℕ
  | .client (.status h), _ => Function.update w.foundBy i ((w.torrents h).bind HeldTorrent.foundBy)
  | _, _ => w.foundBy

/-- The world after a call of a thread. -/
def after (c : Call) (r : Ans c) (s : SqliteRepairStore) (ts : Torrents) : CheckWorld W O where
  store := s
  now := w.now
  desks := Function.update w.desks i ((w.desks i).record c r)
  torrents := ts
  events := w.events + 1
  requested := w.requestedAfter i c r
  foundBy := w.foundByAfter i c r

/-- What the client does at a call. -/
def ClientServes : (c : Call) → Ans c → Torrents → Prop
  | .client c, r, ts => w.torrents.Serves c r ts
  | _, _, ts => ts = w.torrents

omit [DecidableEq W] [DecidableEq O] in
/-- Nothing was loaded and no check was seen to start yet; a job past its recheck had one. -/
structure Opening : Prop where
  desks : ∀ i, w.desks i = .bare
  torrents : ∀ h t, w.torrents h = some t → ∃ completeness paused, t = .fresh completeness paused
  rows : ∀ id r, w.store.jobs.get? id = some r → PastRecheck r.state r.reviewFromState →
    (w.requested id).isSome

/-- The condition on a call: a verification asks for the status of its torrent only once a check
    of it has started after the last request, and left the torrent paused since; and no recheck
    is requested of a job that another thread is verifying. -/
def CheckStarted (i : W ⊕ O) (c : Call) (w : CheckWorld W O) : Prop :=
  match c with
  | .client (.status h) => ∀ job, (w.desks i).current = some job → job.state = .rechecking →
    ∀ t r, w.torrents h = some t → w.requested job.id = some r →
      t.quiet = true ∧ ∃ started, t.started = some started ∧ r < started
  | .client (.recheck _) => ∀ job, (w.desks i).current = some job → ∀ j, j ≠ i → ∀ other,
    (w.desks j).current = some other → other.id = job.id → other.state ≠ .rechecking
  | _ => True

/-- What is known of the checks in every run that meets the condition. -/
structure Traced : Prop where
  settled : w.torrents.Settled
  rows : ∀ id r, w.store.jobs.get? id = some r → PastRecheck r.state r.reviewFromState →
    (w.requested id).isSome
  copies : ∀ i, ∀ job ∈ (w.desks i).loaded, PastRecheck job.state job.reviewFromState →
    (w.requested job.id).isSome
  current : ∀ i job, (w.desks i).current = some job → (w.desks i).requested = true →
    (w.requested job.id).isSome
  polled : ∀ i job status, (w.desks i).current = some job → job.state = .rechecking →
    (w.desks i).seen = some status → status.state ≠ .checking →
      ∀ r, w.requested job.id = some r → ∃ found, w.foundBy i = some found ∧ r < found

end CheckWorld

/-! ## What one call changes -/

section
variable {policies : SafetyPolicy → Prop} {d : Desk} {job : RepairJob}

/-- A recheck that is accepted. -/
def Accepts : (c : Call) → Ans c → Prop
  | .client (.recheck _), .ok () => True
  | _, _ => False

/-- A step has its recheck accepted before the call, or by it. -/
theorem Desk.requested_record {c : Call} {r : Ans c} (hcurrent : (d.record c r).current = some job)
    (hrequested : (d.record c r).requested = true) :
    d.current = some job ∧ (d.requested = true ∨ Accepts c r) := by
  cases c with
  | store c =>
    cases c with
    | claim owner lease limit =>
      cases r with
      | error e => exact ⟨hcurrent, .inl hrequested⟩
      | ok jobs => cases hcurrent
    | job id =>
      cases r with
      | error e => exact ⟨hcurrent, .inl hrequested⟩
      | ok next => cases next <;> exact ⟨hcurrent, .inl hrequested⟩
    | unfinished => cases r <;> exact ⟨hcurrent, .inl hrequested⟩
    | parked => cases r <;> exact ⟨hcurrent, .inl hrequested⟩
    | apply id t u => cases hcurrent
    | release id retryAt countAttempt => cases hcurrent
    | clearStaleLeases owner => cases hcurrent
    | _ => exact ⟨hcurrent, .inl hrequested⟩
  | client c =>
    cases c with
    | recheck h =>
      cases r with
      | error e => exact ⟨hcurrent, .inl hrequested⟩
      | ok u => exact ⟨hcurrent, .inr trivial⟩
    | _ => exact ⟨hcurrent, .inl hrequested⟩
  | enterStep job => cases hrequested
  | _ => exact ⟨hcurrent, .inl hrequested⟩

/-- What a step has seen it saw before any call but a status. -/
theorem Desk.seen_record {c : Call} {r : Ans c} {status : TorrentStatus}
    (hc : ∀ h, c ≠ .client (.status h)) (hcurrent : (d.record c r).current = some job)
    (hseen : (d.record c r).seen = some status) : d.current = some job ∧ d.seen = some status := by
  cases c with
  | store c =>
    cases c with
    | claim owner lease limit =>
      cases r with
      | error e => exact ⟨hcurrent, hseen⟩
      | ok jobs => cases hcurrent
    | job id =>
      cases r with
      | error e => exact ⟨hcurrent, hseen⟩
      | ok next => cases next <;> exact ⟨hcurrent, hseen⟩
    | unfinished => cases r <;> exact ⟨hcurrent, hseen⟩
    | parked => cases r <;> exact ⟨hcurrent, hseen⟩
    | apply id t u => cases hcurrent
    | release id retryAt countAttempt => cases hcurrent
    | clearStaleLeases owner => cases hcurrent
    | _ => exact ⟨hcurrent, hseen⟩
  | client c =>
    cases c with
    | recheck h => cases r <;> exact ⟨hcurrent, hseen⟩
    | status h => exact absurd rfl (hc h)
    | _ => exact ⟨hcurrent, hseen⟩
  | enterStep job => cases hseen
  | _ => exact ⟨hcurrent, hseen⟩

/-- A row is past its recheck after a write only where a row, a copy or the step that wrote
    it was. -/
theorem pastRecheck_wrote (known : JobId → Prop) {s s' : SqliteRepairStore} {now : Time}
    {c : StoreCall} (h : s.Wrote now c s') (hmay : (conduct policies).may (.store c) d)
    (hrows : ∀ id r, s.jobs.get? id = some r → PastRecheck r.state r.reviewFromState → known id)
    (hcopies : ∀ job ∈ d.loaded, PastRecheck job.state job.reviewFromState → known job.id)
    (hcurrent : ∀ job, d.current = some job → d.requested = true → known job.id)
    {id : JobId} {r' : JobRow} (hr' : s'.jobs.get? id = some r')
    (hpast : PastRecheck r'.state r'.reviewFromState) : known id := by
  cases h with
  | @moved id' t u r s' found left applied =>
    rw [apply_applied_get applied] at hr'
    obtain ⟨r₀, hr₀, rfl⟩ := Option.map_eq_some_iff.1 hr'
    unfold movedRow at hpast
    split_ifs at hpast with hid
    · have hid : id' = id := hid.symm.trans (Table.get?_some hr₀).2
      subst hid
      cases found.symm.trans hr₀
      obtain ⟨⟨job, hjob, hjobid, hplan⟩, hstepped, hrequested, -, -⟩ := hmay
      have hfromPast : t.fromState.pastRecheck = true → known id' :=
        fun hf => hrows id' r found (.inl (left ▸ hf))
      rcases hpast with hpast | ⟨resumeTo, hresume, hpast⟩
      · rcases pastRecheck_toState hplan hpast with hf | ⟨hprogress, hinjected⟩ | hjobPast
        · exact hfromPast hf
        · obtain ⟨current, hc, hcid, -⟩ := hstepped hprogress
          exact hcid ▸ hcurrent current hc (hrequested hprogress hinjected)
        · exact hjobid ▸ hcopies job hjob hjobPast
      · simp only [patchRow, transitionRow] at hresume
        split_ifs at hresume
        cases hresume
        exact hfromPast hpast
    · exact hrows id r₀ hr₀ hpast
  | @patched id' patch =>
    rw [recordProgress, updateJobFields_get] at hr'
    obtain ⟨r₀, hr₀, rfl⟩ := Option.map_eq_some_iff.1 hr'
    refine hrows id r₀ hr₀ ?_
    split_ifs at hpast <;> exact hpast
  | @repointed id' state previous r detail found parked recorded =>
    rw [appendTransition_jobs, moveResumePoint_get] at hr'
    obtain ⟨r₀, hr₀, rfl⟩ := Option.map_eq_some_iff.1 hr'
    refine hrows id r₀ hr₀ ?_
    split_ifs at hpast
    · rcases hpast with hpast | ⟨resumeTo, hresume, hpast⟩
      · exact .inl hpast
      · cases hresume
        rcases hmay.2 with hstate | hstate
        · rw [hstate] at hpast
          cases hpast
        · rw [hstate] at hpast
          cases hpast
    · exact hpast
  | rescheduled trail rows =>
    obtain ⟨r₀, hr₀, _, _, _, _, _, rfl⟩ := rows _ _ hr'
    exact hrows id r₀ hr₀ hpast

end

/-! ## Every run -/

section
variable (W O : Type) [DecidableEq W] [DecidableEq O]

/-- Workers and operators on one store and one client. -/
def checks : System (W ⊕ O) Call Ans (CheckWorld W O) where
  answers i c w r w' := ∃ s ts, w.store.Replies w.now c r s ∧ w.ClientServes c r ts ∧
    w' = w.after i c r s ts
  moves w w' :=
    (∃ now, w.now ≤ now ∧ w' = { w with now }) ∨
    (∃ h d s, w.store.recordDiscovery w.now h = .ok (d, s) ∧ w' = { w with store := s }) ∨
    ∃ h t, Torrents.Changes w.events (w.torrents h) t ∧
      w' = { w with torrents := Function.update w.torrents h t, events := w.events + 1 }
  starts := Acting fun _ => True

end

namespace CheckWorld

variable {W O : Type} [DecidableEq W] [DecidableEq O] {w : CheckWorld W O} {i : W ⊕ O}

omit [DecidableEq W] [DecidableEq O]

/-- Only an accepted recheck changes the requests, and only that of the current job. -/
theorem requestedAfter_cases (c : Call) (r : Ans c) (id : JobId) :
    w.requestedAfter i c r id = w.requested id ∨
      (Accepts c r ∧ w.requestedAfter i c r id = some w.events ∧
        ∃ job, (w.desks i).current = some job ∧ job.id = id) := by
  cases c with
  | client c =>
    cases c with
    | recheck h =>
      cases r with
      | error e => exact .inl rfl
      | ok u =>
        unfold requestedAfter
        simp only
        cases hcurrent : (w.desks i).current with
        | none => exact .inl rfl
        | some job =>
          by_cases hid : id = job.id
          · subst hid
            exact .inr ⟨trivial, Function.update_self .., job, rfl, rfl⟩
          · exact .inl (Function.update_of_ne hid ..)
    | _ => exact .inl rfl
  | _ => exact .inl rfl

/-- A request once accepted stays on record. -/
theorem requestedAfter_isSome {c : Call} {r : Ans c} {id : JobId} (h : (w.requested id).isSome) :
    (w.requestedAfter i c r id).isSome := by
  rcases requestedAfter_cases c r id with he | ⟨-, he, -⟩
  · rw [he]
    exact h
  · rw [he]
    rfl

theorem requestedAfter_current {c : Call} {r : Ans c} {job : RepairJob} (ha : Accepts c r)
    (hcurrent : (w.desks i).current = some job) : (w.requestedAfter i c r job.id).isSome := by
  cases c with
  | client c =>
    cases c with
    | recheck h =>
      cases r with
      | error e => cases ha
      | ok u =>
        unfold requestedAfter
        simp only [hcurrent, Function.update_self]
        rfl
    | _ => cases ha
  | _ => cases ha

/-- What is on record of a torrent that a check settled, when its status is told truthfully. -/
theorem foundBy_of_reported {t : Option HeldTorrent} {r : Except ClientError (Option TorrentStatus)}
    {status : TorrentStatus} (hreported : HeldTorrent.Reported t r)
    (hanswered : answeredTorrent r = some status) (hchecking : status.state ≠ .checking)
    (hsettled : ∀ held, t = some held → held.Settled) {after : ℕ}
    (hstarted : ∀ held, t = some held →
      held.quiet = true ∧ ∃ started, held.started = some started ∧ after < started) :
    ∃ found, t.bind HeldTorrent.foundBy = some found ∧ after < found := by
  cases r with
  | error e => cases hanswered
  | ok answer =>
    cases t with
    | none =>
      cases (show answer = none from hreported)
      cases hanswered
    | some held =>
      obtain ⟨status', rfl, hrunning, -⟩ := hreported
      cases hanswered
      obtain ⟨hquiet, started, hs, hlt⟩ := hstarted held rfl
      have hidle : held.running = false := by
        cases hr : held.running with
        | false => rfl
        | true => exact absurd (hrunning hr) hchecking
      exact ⟨started, (hsettled held rfl hidle hquiet).trans hs, hlt⟩

/-- A job that is being verified has no recheck accepted meanwhile. -/
theorem requestedAfter_rechecking {policies : SafetyPolicy → Prop} {c : Call} {r : Ans c}
    (hmay : (conduct policies).may c (w.desks i)) (hcheck : CheckStarted i c w) {j : W ⊕ O}
    {job : RepairJob} (hcurrent : (w.desks j).current = some job) (hstate : job.state = .rechecking) :
    w.requestedAfter i c r job.id = w.requested job.id := by
  rcases requestedAfter_cases c r job.id with he | ⟨ha, -, other, hother, hid⟩
  · exact he
  · exfalso
    cases c with
    | client c =>
      cases c with
      | recheck h =>
        by_cases hj : j = i
        · subst hj
          obtain ⟨current, hc, hinjected, -⟩ := hmay
          cases hc.symm.trans hcurrent
          cases hstate.symm.trans hinjected
        · exact hcheck other hother j hj job hcurrent hid.symm hstate
      | _ => cases ha
    | _ => cases ha

variable [DecidableEq W] [DecidableEq O]

/-- One call keeps the trace. -/
theorem Traced.after (h : w.Traced) {c : Call} {r : Ans c} {s : SqliteRepairStore} {ts : Torrents}
    {policies : SafetyPolicy → Prop} (hmay : (conduct policies).may c (w.desks i))
    (hcheck : CheckStarted i c w) (hs : w.store.Replies w.now c r s)
    (hclient : w.ClientServes c r ts) : (w.after i c r s ts).Traced where
  settled := by
    cases c with
    | client c => exact h.settled.serves hclient
    | _ => exact (show ts = w.torrents from hclient) ▸ h.settled
  rows id r' hr' hpast := by
    refine requestedAfter_isSome ?_
    rcases hs.wrote with ⟨c', rfl, hw⟩ | hw
    · exact pastRecheck_wrote (fun id => (w.requested id).isSome) hw hmay h.rows
        (h.copies i) (h.current i) hr' hpast
    · exact h.rows id r' (hw ▸ hr') hpast
  copies j job hjob hpast := by
    refine requestedAfter_isSome ?_
    by_cases hj : j = i
    · subst hj
      simp only [CheckWorld.after, Function.update_self] at hjob
      rcases Desk.loaded_record hjob with hold | hnew
      · exact h.copies j job hold hpast
      · obtain ⟨row, row', hrow, ⟨_, _, _, _, _, rfl⟩, rfl⟩ := hs.shows hnew
        exact h.rows _ row hrow hpast
    · simp only [CheckWorld.after, Function.update_of_ne hj] at hjob
      exact h.copies j job hjob hpast
  current j job hcurrent hrequested := by
    by_cases hj : j = i
    · subst hj
      simp only [CheckWorld.after, Function.update_self] at hcurrent hrequested
      obtain ⟨hc, hr | ha⟩ := Desk.requested_record hcurrent hrequested
      · exact requestedAfter_isSome (h.current j job hc hr)
      · exact requestedAfter_current ha hc
    · simp only [CheckWorld.after, Function.update_of_ne hj] at hcurrent hrequested
      exact requestedAfter_isSome (h.current j job hcurrent hrequested)
  polled j job status hcurrent hstate hseen hchecking after hafter := by
    by_cases hj : j = i
    · subst hj
      simp only [CheckWorld.after, Function.update_self] at hcurrent hseen
      by_cases hstatus : ∃ h', c = .client (.status h')
      · -- the step is told something new
        obtain ⟨h', rfl⟩ := hstatus
        obtain ⟨-, hreported⟩ : ts = w.torrents ∧ HeldTorrent.Reported (w.torrents h') r := by
          cases hclient with
          | nothing hno => exact absurd rfl (hno h')
          | reports hr => exact ⟨rfl, hr⟩
        simp only [CheckWorld.after, foundByAfter, Function.update_self]
        exact foundBy_of_reported hreported hseen hchecking (h.settled h')
          fun held hheld => hcheck job hcurrent hstate held after hheld hafter
      · -- what it was told before still stands
        obtain ⟨hc, hold⟩ := Desk.seen_record (not_exists.1 hstatus) hcurrent hseen
        have hsame : w.requestedAfter j c r job.id = w.requested job.id :=
          requestedAfter_rechecking hmay hcheck hc hstate
        have hfound : w.foundByAfter j c r = w.foundBy := by
          unfold foundByAfter
          split
          · exact absurd ⟨_, rfl⟩ hstatus
          · rfl
        simp only [CheckWorld.after, hsame] at hafter
        simp only [CheckWorld.after, hfound]
        exact h.polled j job status hc hstate hold hchecking after hafter
    · simp only [CheckWorld.after, Function.update_of_ne hj] at hcurrent hseen
      have hsame : w.requestedAfter i c r job.id = w.requested job.id :=
        requestedAfter_rechecking hmay hcheck hcurrent hstate
      have hfound : w.foundByAfter i c r j = w.foundBy j := by
        unfold foundByAfter
        split
        · exact Function.update_of_ne hj ..
        · rfl
      simp only [CheckWorld.after, hsame] at hafter
      simp only [CheckWorld.after, hfound]
      exact h.polled j job status hcurrent hstate hseen hchecking after hafter

omit [DecidableEq W] [DecidableEq O] in
/-- What is discovered has had no recheck. -/
theorem Traced.discover (h : w.Traced) {hr : HitAndRun} {d : Discovered} {s : SqliteRepairStore}
    (hok : w.store.recordDiscovery w.now hr = .ok (d, s)) :
    ({ w with store := s } : CheckWorld W O).Traced := by
  refine ⟨h.settled, fun id r hrow hpast => ?_, h.copies, h.current, h.polled⟩
  rcases recordDiscovery_cases hok with rfl | ⟨k, row, -, -, -, hrows⟩
  · exact h.rows id r hrow hpast
  · rw [hrows] at hrow
    split_ifs at hrow
    · cases hrow
      rcases hpast with hpast | ⟨resumeTo, hresume, -⟩
      · cases hpast
      · cases hresume
    · exact h.rows id r hrow hpast

omit [DecidableEq W] [DecidableEq O] in
theorem Opening.traced (h : w.Opening) : w.Traced where
  settled k t ht := by
    obtain ⟨completeness, paused, rfl⟩ := h.torrents k t ht
    exact HeldTorrent.settled_fresh _ _
  rows := h.rows
  copies j job hjob := by
    rw [h.desks j] at hjob
    exact hjob.elim
  current j job hcurrent := by
    rw [h.desks j] at hcurrent
    cases hcurrent
  polled j job status hcurrent := by
    rw [h.desks j] at hcurrent
    cases hcurrent

end CheckWorld

section
variable {W O : Type} [DecidableEq W] [DecidableEq O]

theorem checks_sound : ((checks W O).restrict CheckWorld.CheckStarted).Sound
    (fun i => conduct (slotPolicies (fun _ => True) i)) CheckWorld.Traced
    fun i d w => d = w.desks i where
  start := fun i p w _ hp => ⟨_, rfl, hp.conducts⟩
  call := by
    rintro i c w r w' d htraced rfl hmay ⟨hcheck, s, ts, hs, hclient, rfl⟩
    refine ⟨htraced.after hmay hcheck hs hclient, ⟨_, ⟨hs.honest, rfl⟩, by simp [CheckWorld.after]⟩,
      fun j hj m hm => ?_⟩
    simp only [CheckWorld.after, Function.update_of_ne hj]
    exact hm
  move := by
    rintro w w' htraced (⟨now, -, rfl⟩ | ⟨h, d, s, hok, rfl⟩ | ⟨h, t, hchange, rfl⟩)
    · exact ⟨⟨htraced.settled, htraced.rows, htraced.copies, htraced.current, htraced.polled⟩,
        fun j m hm => hm⟩
    · exact ⟨htraced.discover hok, fun j m hm => hm⟩
    · exact ⟨⟨htraced.settled.changes hchange, htraced.rows, htraced.copies, htraced.current,
        htraced.polled⟩, fun j m hm => hm⟩

/-- In every run that meets the condition, what a job is verified by was found by a check that
    started after the last recheck accepted for it. -/
theorem verified_by_later_check {w₀ : CheckWorld W O} (hopening : w₀.Opening)
    {s : Lib.Config (W ⊕ O) Call Ans (CheckWorld W O)} {i : W ⊕ O} {id : JobId} {t : Transition}
    {u : TransitionUpdate} {k : Ans (.store (.apply id t u)) → M Unit}
    (hreach : ((checks W O).restrict CheckWorld.CheckStarted).Reach w₀ s)
    (happly : s.threads i = some (.call (.store (.apply id t u)) k))
    (hprogress : t.reason = .progress) (hfrom : t.fromState = .rechecking) :
    ∃ request found, s.world.requested id = some request ∧ s.world.foundBy i = some found ∧
      request < found := by
  obtain ⟨htraced, d, rfl, ⟨copy, hcopy, hcopyid, hplan⟩, hstepped, -, hsettled, -⟩ :=
    checks_sound.permitted hopening.traced hreach happly
  obtain ⟨job, hcurrent, hid, hstate⟩ := hstepped hprogress
  obtain ⟨status, hseen, -, hchecking⟩ := hsettled hprogress hfrom
  have hpast : copy.state.pastRecheck = true := by
    rw [← (validateTransition_ok hplan).1, hfrom]
    rfl
  obtain ⟨request, hrequest⟩ :=
    Option.isSome_iff_exists.1 (hcopyid ▸ htraced.copies i copy hcopy (.inl hpast))
  obtain ⟨found, hfound, hlt⟩ := htraced.polled i job status hcurrent (hstate.trans hfrom) hseen
    hchecking request (hid ▸ hrequest)
  exact ⟨request, found, hrequest, hfound, hlt⟩

end

/-! ## A torrent that was already there -/

/-- A job whose torrent the client has. -/
def injectedStore : SqliteRepairStore where
  jobs := ⟨[{ discoveredRow ⟨1⟩ 0 ⟨⟨"tracker"⟩, ⟨"7"⟩, "show", none, 10, none⟩ with
    state := .injected, infoHash := some sevens }], by decide⟩
  files := .empty
  transitions := []
  jobSeq := 1

/-- The client holds the torrent complete, from before. -/
def heldBefore : CheckWorld Unit Unit where
  store := injectedStore
  now := 0
  desks _ := .bare
  torrents h := if h = sevens then some (.fresh .complete true) else none
  events := 0
  requested _ := none
  foundBy _ := none

theorem heldBefore_opening : heldBefore.Opening where
  desks _ := rfl
  torrents h t ht := by
    simp only [heldBefore] at ht
    split_ifs at ht
    cases ht
    exact ⟨_, _, rfl⟩
  rows id r hr hpast := by
    have hrow : r ∈ injectedStore.jobs.rows := (Table.get?_some hr).1
    rw [List.mem_singleton.1 hrow] at hpast
    rcases hpast with hpast | ⟨resumeTo, hresume, -⟩
    · cases hpast
    · cases hresume

/-- The transition a program is about to write. -/
def writes : M Unit → Option (JobId × RepairState × RepairState × TransitionReason)
  | .call (.store (.apply id t _)) _ => some (id, t.fromState, t.toState, t.reason)
  | _ => none

theorem writes_some {p : M Unit} {id : JobId} {src dst : RepairState} {reason : TransitionReason}
    (h : writes p = some (id, src, dst, reason)) :
    ∃ t u k, p = .call (.store (.apply id t u)) k ∧ t.fromState = src ∧ t.toState = dst ∧
      t.reason = reason := by
  unfold writes at h
  split at h
  · cases h
    exact ⟨_, _, _, rfl, rfl, rfl, rfl⟩
  · cases h

/-- What a client answers that reports its torrent as it is. -/
def checkReply (w : CheckWorld Unit Unit) : (c : Call) → Option (Ans c × SqliteRepairStore)
  | .store c => some (w.store.answer w.now c)
  | .now => some (w.now, w.store)
  | .client (.status h) => some (.ok ((w.torrents h).map fun t =>
      { completeTorrent with
        completeness := t.completeness, state := if t.running then .checking else .paused }),
      w.store)
  | .client (.recheck _) => some (.ok (), w.store)
  | .shuttingDown => some (false, w.store)
  | .publish _ | .notify _ | .recordTick _ | .enterStep _ => some ((), w.store)
  | _ => none

theorem checkReply_replies {w : CheckWorld Unit Unit} {c : Call} {r : Ans c × SqliteRepairStore}
    (h : checkReply w c = some r) :
    w.store.Replies w.now c r.1 r.2 ∧ w.ClientServes c r.1 w.torrents := by
  cases c with
  | store c => cases h; exact ⟨.served, rfl⟩
  | now => cases h; exact ⟨⟨rfl, rfl⟩, rfl⟩
  | client c =>
    cases c with
    | status hash =>
      cases h
      refine ⟨rfl, .reports ?_⟩
      cases w.torrents hash with
      | none => rfl
      | some t =>
        refine ⟨_, rfl, fun hrunning => ?_, fun _ => rfl⟩
        simp only [hrunning, if_true]
    | recheck hash => cases h; exact ⟨rfl, .nothing (by nofun)⟩
    | _ => cases h
  | tracker c => cases h
  | library c => cases h
  | staging c => cases h
  | panic => cases h
  | _ => cases h; exact ⟨rfl, rfl⟩

/-- The world after a worker's call was answered. -/
def afterCheckReply {c : Call} (w : CheckWorld Unit Unit) (r : Ans c × SqliteRepairStore) :
    Ans c × CheckWorld Unit Unit := (r.1, w.after (.inl ()) c r.1 r.2 w.torrents)

def checkTick : M Unit := tick anyDeps ⟨"a", .fromSecs 60, 4⟩ >>= fun _ => pure ()

/-- The client reports what it found before the job asked for a recheck, and the job is verified
    by that. -/
theorem old_data_verified : heldBefore.Opening ∧ ∃ s id t u k,
    (checks Unit Unit).Reach heldBefore s ∧
      s.threads (.inl ()) = some (.call (.store (.apply id t u)) k) ∧ t.reason = .progress ∧
        t.fromState = .rechecking ∧ ¬∃ request found, s.world.requested id = some request ∧
          s.world.foundBy (.inl ()) = some found ∧ request < found := by
  let h : (c : Call) → CheckWorld Unit Unit → Option (Ans c × CheckWorld Unit Unit) :=
    fun c w => (checkReply w c).map (afterCheckReply w)
  obtain ⟨s, hs, hthread, hworld⟩ := System.reach_alone (checks Unit Unit) heldBefore (.inl ())
    (h := h) (.tick anyDeps ⟨"a", .fromSecs 60, 4⟩ trivial) (fun c w r hr => by
      obtain ⟨a, ha, rfl⟩ := Option.map_eq_some_iff.1 hr
      obtain ⟨hreplies, hclient⟩ := checkReply_replies ha
      exact ⟨w, .refl, _, _, hreplies, hclient, rfl⟩) 17
  obtain ⟨t, u, k, hk, hfrom, -, hreason⟩ := writes_some (by decide +kernel :
    writes (System.drive h 17 checkTick heldBefore).1 = some (⟨1⟩, .rechecking, .verified, .progress))
  refine ⟨heldBefore_opening, s, ⟨1⟩, t, u, k, hs, hthread.trans (congrArg some hk), hreason, hfrom, ?_⟩
  rintro ⟨request, found, -, hfound, -⟩
  rw [hworld] at hfound
  have hnone : (System.drive h 17 checkTick heldBefore).2.foundBy (.inl ()) = none := by
    decide +kernel
  cases hnone.symm.trans hfound

/-- A client that checks a torrent as soon as it is asked to. -/
def checkedAtOnce (w : CheckWorld Unit Unit) : CheckWorld Unit Unit :=
  match w.torrents sevens with
  | some ⟨completeness, foundBy, none, false, quiet⟩ =>
    if (w.requested ⟨1⟩).isSome then
      { w with
        torrents := Function.update (Function.update w.torrents sevens
          (some (HeldTorrent.start ⟨completeness, foundBy, none, false, quiet⟩ w.events true)))
          sevens (some ((HeldTorrent.start ⟨completeness, foundBy, none, false, quiet⟩ w.events
            true).finish .complete))
        events := w.events + 1 + 1 }
    else w
  | _ => w

theorem moves_checkedAtOnce (w : CheckWorld Unit Unit) :
    Relation.ReflTransGen (checks Unit Unit).moves w (checkedAtOnce w) := by
  unfold checkedAtOnce
  split
  · rename_i completeness foundBy quiet ht
    split_ifs
    · refine .tail (.single (.inr (.inr ⟨sevens, _, ?_, rfl⟩))) (.inr (.inr ⟨sevens, _, ?_, rfl⟩))
      · rw [ht]
        exact .starts _ true rfl
      · simp only [Function.update_self]
        exact .finishes _ .complete rfl
    · exact .refl
  · exact .refl

/-- Whether a world meets the condition on a call of the worker. -/
def checkStarted (w : CheckWorld Unit Unit) : Call → Bool
  | .client (.status h) =>
    match (w.desks (.inl ())).current with
    | some job => match w.torrents h, w.requested job.id with
      | some t, some r => t.quiet && t.started.any fun started => r < started
      | _, _ => true
    | none => true
  | .client (.recheck _) => (w.desks (.inr ())).current.isNone
  | _ => true

theorem checkStarted_sound {w : CheckWorld Unit Unit} {c : Call} (h : checkStarted w c = true) :
    w.CheckStarted (.inl ()) c := by
  unfold checkStarted at h
  split at h
  · intro job hcurrent _ t r ht hr
    rw [hcurrent] at h
    simp only [ht, hr, Bool.and_eq_true, Option.any_eq_true, decide_eq_true_eq] at h
    exact h
  · intro job _ j hj other hother
    cases j with
    | inl j => exact absurd rfl hj
    | inr j =>
      rw [hother] at h
      cases h
  · unfold CheckWorld.CheckStarted
    split
    · rename_i hc _
      exact absurd rfl (hc _)
    · rename_i hc
      exact absurd rfl (hc _)
    · trivial

/-- A job is verified by the check it asked for. -/
theorem checked_job_verified : ∃ s id t u k,
    ((checks Unit Unit).restrict CheckWorld.CheckStarted).Reach heldBefore s ∧
      s.threads (.inl ()) = some (.call (.store (.apply id t u)) k) ∧ t.reason = .progress ∧
        t.fromState = .rechecking ∧ ∃ request found, s.world.requested id = some request ∧
          s.world.foundBy (.inl ()) = some found ∧ request < found := by
  let h : (c : Call) → CheckWorld Unit Unit → Option (Ans c × CheckWorld Unit Unit) :=
    fun c w => if checkStarted (checkedAtOnce w) c then
      (checkReply (checkedAtOnce w) c).map (afterCheckReply (checkedAtOnce w)) else none
  obtain ⟨s, hs, hthread, -⟩ := System.reach_alone
    ((checks Unit Unit).restrict CheckWorld.CheckStarted) heldBefore (.inl ())
    (h := h) (.tick anyDeps ⟨"a", .fromSecs 60, 4⟩ trivial) (fun c w r hr => by
      simp only [h] at hr
      split_ifs at hr with hcheck
      obtain ⟨a, ha, rfl⟩ := Option.map_eq_some_iff.1 hr
      obtain ⟨hreplies, hclient⟩ := checkReply_replies ha
      exact ⟨_, moves_checkedAtOnce w, checkStarted_sound hcheck, _, _, hreplies, hclient, rfl⟩) 17
  obtain ⟨t, u, k, hk, hfrom, -, hreason⟩ := writes_some (by decide +kernel :
    writes (System.drive h 17 checkTick heldBefore).1 = some (⟨1⟩, .rechecking, .verified, .progress))
  have happly := hthread.trans (congrArg some hk)
  exact ⟨s, ⟨1⟩, t, u, k, hs, happly, hreason, hfrom,
    verified_by_later_check heldBefore_opening hs happly hreason hfrom⟩

end SeedMedic
