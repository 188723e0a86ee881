/-
  Tasks of one qBittorrent client side by side: who logs in when, and whose cookies the requests
  carry.
-/
import SeedMedic.Lib.Pool
import SeedMedic.Repair.ResumeSafety
import SeedMedic.Seeding.QBittorrent
import SeedMedic.Tracker.Listing

namespace SeedMedic

open Lib Prog

namespace QBittorrent

/-! ## Tasks that may be dropped -/

/-- Whether the lock is held after a call. -/
def holdsAfter : Call → Bool → Bool
  | .lock, _ => true
  | .unlock, _ => false
  | _, holds => holds

/-- A task that is dropped where a call goes unanswered; it then lets go of the lock, if it holds
    it. -/
def dropping {α : Type} (holds : Bool) : Q α → Prog Call (fun c => Option (Ans c)) Unit
  | .ret _ => .ret ()
  | .call c k => .call c fun
    | some r => dropping (holdsAfter c holds) (k r)
    | none => if holds then .call .unlock fun _ => .ret () else .ret ()

/-! ## The session the tasks share -/

/-- The lock and what is behind it, with a record of what the server was asked and said. -/
structure Shared (ι : Type) where
  holder : Option ι
  cookie : Option String
  /-- The cookies of the logins the server accepted. -/
  issued : List String
  /-- The last of them is not kept yet. -/
  pending : Bool
  /-- The logins accepted while no cookie was kept. -/
  founded : ℕ
  /-- The answers to a task that its session has expired. -/
  lapses : ι → ℕ
  /-- The logins a task asked for while a cookie was kept. -/
  renewals : ι → ℕ

namespace Shared

variable {ι : Type} [DecidableEq ι]

/-- Nobody has logged in yet. -/
def opening : Shared ι := ⟨none, none, [], false, 0, fun _ => 0, fun _ => 0⟩

variable (w : Shared ι) (i : ι)

/-- A login was asked for. -/
def asked : Shared ι :=
  if w.cookie.isSome then { w with renewals := Function.update w.renewals i (w.renewals i + 1) }
  else w

/-- The server accepted a login. -/
def accepted (cookie : String) : Shared ι :=
  { w with
    issued := w.issued ++ [cookie]
    pending := true
    founded := if w.cookie.isSome then w.founded else w.founded + 1 }

def lapsed : Shared ι := { w with lapses := Function.update w.lapses i (w.lapses i + 1) }

/-- The record of a request and its answer. -/
def answered (request : Request) (answer : Except String Response) : Shared ι :=
  if request.cookie.isNone then
    match loginResult answer with
    | .ok cookie => (w.asked i).accepted cookie
    | .error _ => w.asked i
  else if answer.toOption.any fun response => response.status = 403 then w.lapsed i
  else w

/-- How a call may be answered; a task can be dropped while it waits for the lock or for the
    server. -/
def Answers : (c : Call) → Option (Ans c) → Shared ι → Prop
  | .lock, some (), w' => w.holder = none ∧ w' = { w with holder := some i }
  | .lock, none, w' => w' = w
  | .held, some cookie, w' => cookie = w.cookie ∧ w' = w
  | .keep cookie, some (), w' => w' = { w with cookie := some cookie, pending := false }
  | .unlock, some (), w' => w' = { w with holder := none }
  | .send request, some answer, w' => w' = w.answered i request answer
  | .send request, none, w' => w' = if request.cookie.isNone then w.asked i else w
  | _, none, _ => False

end Shared

/-- Tasks that each make a call of the port, or ask for the summary. -/
def tasks (ι : Type) [DecidableEq ι] (urls : UrlLibrary) (client : QBittorrentClient) :
    System ι Call (fun c => Option (Ans c)) (Shared ι) where
  answers i c w r w' := w.Answers i c r w'
  moves _ _ := False
  starts _ p := (∃ c, p = dropping false (client.perform urls c)) ∨
    p = dropping false (client.summary urls)

/-! ## What a task knows -/

/-- What a task knows of the session. -/
structure Desk where
  holds : Bool
  /-- What was kept when it looked, as long as it holds the lock. -/
  seen : Option (Option String)
  /-- The cookie it was given last. -/
  known : Option String
  /-- The cookie of its login, which it has still to keep. -/
  fresh : Option String
  /-- It was told that its session has expired. -/
  owed : Bool

namespace Desk

def opening : Desk := ⟨false, none, none, none, false⟩

/-- Between two requests. -/
def Idle (d : Desk) : Prop := d.holds = false ∧ d.fresh = none

/-- What a task knows after a call. -/
def record (d : Desk) : (c : Call) → Ans c → Desk
  | .lock, _ => { d with holds := true, seen := none }
  | .held, cookie => { d with seen := some cookie, known := cookie <|> d.known }
  | .keep _, _ => { d with fresh := none, seen := none }
  | .unlock, _ => { d with holds := false, seen := none }
  | .send request, answer =>
    if request.cookie.isNone then
      { d with
        fresh := (loginResult answer).toOption
        known := (loginResult answer).toOption <|> d.known
        owed := false }
    else { d with owed := answer.toOption.any fun response => response.status = 403 }

end Desk

variable (urls : UrlLibrary) (client : QBittorrentClient)

/-- When a task may ask for what. -/
def May (d : Desk) : Call → Prop
  | .lock => d.holds = false
  | .held => d.holds = true
  | .keep cookie => d.holds = true ∧ d.fresh = some cookie
  | .unlock => d.holds = true ∧ d.fresh = none
  | .send request =>
    (∃ url, client.url urls "api/v2/auth/login" = .ok url ∧ request = client.loginRequest url ∧
      d.holds = true ∧ d.fresh = none ∧ (d.seen = some none ∨ d.owed = true)) ∨
    (∃ cookie, request.cookie = some cookie ∧ d.known = some cookie ∧ d.Idle)

/-- The rules of a task. -/
def manners : Rules Call Ans Desk where
  may c d := May urls client d c
  next c r d d' := d' = d.record c r

/-- The same where it may be dropped. -/
def lastingManners : Rules Call (fun c => Option (Ans c)) Desk where
  may c d := May urls client d c
  next c r d d' := match r with
    | some r => d' = d.record c r
    | none => d' = { d with owed := false } ∧ (c = .lock ∨ ∃ request, c = .send request)

variable {urls client}

theorem Desk.record_holds (d : Desk) (c : Call) (r : Ans c) :
    (d.record c r).holds = holdsAfter c d.holds := by
  cases c with
  | send request =>
    simp only [Desk.record]
    split_ifs <;> rfl
  | _ => rfl

/-- A task keeps its manners when it may be dropped. -/
theorem dropping_obeys {α : Type} {p : Q α} {d : Desk} {P : α → Desk → Prop}
    (hp : p.Obeys (manners urls client) d P) :
    (dropping d.holds p).Obeys (lastingManners urls client) d fun _ _ => True := by
  induction p generalizing d with
  | ret a => trivial
  | call c k ih =>
    rw [dropping, obeys_call]
    refine ⟨hp.1, fun r d' hn => ?_⟩
    cases r with
    | some r =>
      obtain rfl : d' = d.record c r := hn
      have hk := ih r (hp.2 r _ rfl)
      rw [Desk.record_holds] at hk
      exact hk
    | none =>
      obtain ⟨rfl, hc⟩ := hn
      show (if d.holds = true then _ else _ : Prog Call _ Unit).Obeys _ _ _
      split_ifs with hholds
      · refine ⟨⟨hholds, ?_⟩, fun _ _ _ => trivial⟩
        rcases hc with rfl | ⟨request, rfl⟩
        · rw [show d.holds = false from hp.1] at hholds
          cases hholds
        · rcases hp.1 with ⟨-, -, -, -, hfresh, -⟩ | ⟨-, -, -, hidle⟩
          · exact hfresh
          · exact hidle.2
      · trivial

/-! ## The adapter keeps its manners -/

section
variable {d : Desk}

/-- One call of a task, and what it knows then. -/
theorem Q.obeys_ask {α : Type} {c : Call} {f : Ans c → Q α} {P : α → Desk → Prop}
    (hmay : May urls client d c) (hf : ∀ r, (f r).Obeys (manners urls client) (d.record c r) P) :
    (Q.ask c >>= f).Obeys (manners urls client) d P :=
  ⟨hmay, fun r d' hn => by obtain rfl : d' = d.record c r := hn; exact hf r⟩

/-- A login behind the lock, where one is due. -/
theorem loginLocked_obeys (hholds : d.holds = true) (hfresh : d.fresh = none)
    (hdue : d.seen = some none ∨ d.owed = true) :
    (client.loginLocked urls).Obeys (manners urls client) d fun r d' =>
      d'.Idle ∧ ∀ cookie, r = .ok cookie → d'.known = some cookie := by
  unfold QBittorrentClient.loginLocked QBittorrentClient.performLogin
  cases hurl : client.url urls "api/v2/auth/login" with
  | error e =>
    exact Q.obeys_ask ⟨hholds, hfresh⟩ fun _ => ⟨⟨rfl, hfresh⟩, fun _ hr => by cases hr⟩
  | ok url =>
    simp only [bind_assoc]
    refine Q.obeys_ask (.inl ⟨url, hurl, rfl, hholds, hfresh, hdue⟩) fun answer => ?_
    simp only [pure_eq, ret_bind, Desk.record, QBittorrentClient.loginRequest, Option.isNone_none,
      if_true]
    cases loginResult answer with
    | error e =>
      exact Q.obeys_ask ⟨hholds, rfl⟩ fun _ => ⟨⟨rfl, rfl⟩, fun _ hr => by cases hr⟩
    | ok cookie =>
      refine Q.obeys_ask ⟨hholds, rfl⟩ fun _ => Q.obeys_ask ⟨hholds, rfl⟩ fun _ => ?_
      refine ⟨⟨rfl, rfl⟩, fun _ hr => ?_⟩
      cases hr
      rfl

theorem cookie_obeys (hidle : d.Idle) :
    (client.cookie urls).Obeys (manners urls client) d fun r d' =>
      d'.Idle ∧ ∀ cookie, r = .ok cookie → d'.known = some cookie := by
  refine Q.obeys_ask hidle.1 fun _ => Q.obeys_ask rfl fun held => ?_
  cases held with
  | some cookie =>
    refine Q.obeys_ask ⟨rfl, hidle.2⟩ fun _ => ⟨⟨rfl, hidle.2⟩, fun _ hr => ?_⟩
    cases hr
    rfl
  | none => exact loginLocked_obeys rfl hidle.2 (.inl rfl)

theorem relogin_obeys (hidle : d.Idle) (howed : d.owed = true) :
    (client.relogin urls).Obeys (manners urls client) d fun r d' =>
      d'.Idle ∧ ∀ cookie, r = .ok cookie → d'.known = some cookie :=
  Q.obeys_ask hidle.1 fun _ => loginLocked_obeys rfl hidle.2 (.inr howed)

/-- A request goes out with a cookie the task was given, and once more only after a login that
    was due. -/
theorem sendAuthenticated_obeys {build : String → Request}
    (hbuild : ∀ cookie, (build cookie).cookie = some cookie) (hidle : d.Idle) :
    (client.sendAuthenticated urls build).Obeys (manners urls client) d fun _ d' => d'.Idle := by
  have hsent : ∀ (d : Desk) cookie answer, d.record (.send (build cookie)) answer =
      { d with owed := answer.toOption.any fun response => response.status = 403 } := by
    intro d cookie answer
    simp [Desk.record, hbuild]
  refine (cookie_obeys hidle).bind fun r d₁ hr => ?_
  obtain ⟨hidle₁, hknown⟩ := hr
  cases r with
  | error e => exact hidle₁
  | ok cookie =>
    refine Q.obeys_ask (.inr ⟨cookie, hbuild cookie, hknown cookie rfl, hidle₁⟩) fun answer => ?_
    rw [hsent]
    cases answer with
    | error source => exact hidle₁
    | ok response =>
      simp only
      split_ifs with hstatus
      · exact hidle₁
      · have howed : decide (response.status = 403) = true := decide_eq_true (not_not.1 hstatus)
        have hidle₁ : ({ d₁ with owed := decide (response.status = 403) } : Desk).Idle := hidle₁
        refine (relogin_obeys hidle₁ howed).bind fun r d₂ hr => ?_
        obtain ⟨hidle₂, hknown₂⟩ := hr
        cases r with
        | error e => exact hidle₂
        | ok cookie =>
          refine Q.obeys_ask (.inr ⟨cookie, hbuild cookie, hknown₂ cookie rfl, hidle₂⟩)
            fun answer => ?_
          rw [hsent]
          cases answer with
          | error source => exact hidle₂
          | ok response =>
            simp only
            split_ifs <;> exact hidle₂

theorem request_obeys {path : String} {build : Url → String → Request}
    (hbuild : ∀ url cookie, (build url cookie).cookie = some cookie) (hidle : d.Idle) :
    (client.request urls path build).Obeys (manners urls client) d fun _ d' => d'.Idle := by
  unfold QBittorrentClient.request
  split
  · exact hidle
  · exact sendAuthenticated_obeys (hbuild _) hidle

theorem status_obeys {infoHash : InfoHash} (hidle : d.Idle) :
    (client.status urls infoHash).Obeys (manners urls client) d fun _ d' => d'.Idle := by
  refine (request_obeys (fun _ _ => rfl) hidle).bind fun r d₁ hidle₁ => ?_
  split
  · exact hidle₁
  · split
    · exact hidle₁
    · split
      · exact hidle₁
      · split_ifs
        · exact hidle₁
        · refine Obeys.bind (Q := fun _ d' => d'.Idle) ?_ fun r d₂ hidle₂ => ?_
          · refine (request_obeys (fun _ _ => rfl) hidle₁).bind fun r d₂ hidle₂ => ?_
            split
            · exact hidle₂
            · split
              · exact hidle₂
              · split <;> exact hidle₂
          · split <;> exact hidle₂

theorem perform_obeys (c : ClientCall) (hidle : d.Idle) :
    (client.perform urls c).Obeys (manners urls client) d fun _ d' => d'.Idle := by
  cases c with
  | addPaused request =>
    refine (status_obeys hidle).bind fun r d₁ hidle₁ => ?_
    split
    · exact hidle₁
    · exact hidle₁
    · refine (request_obeys (fun _ _ => rfl) hidle₁).bind fun r d₂ hidle₂ => ?_
      split
      · exact hidle₂
      · split_ifs <;> exact hidle₂
  | status infoHash => exact status_obeys hidle
  | recheck infoHash =>
    refine (request_obeys (fun _ _ => rfl) hidle).bind fun r d₁ hidle₁ => ?_
    split <;> exact hidle₁
  | resume infoHash =>
    refine (request_obeys (fun _ _ => rfl) hidle).bind fun r d₁ hidle₁ => ?_
    split
    · exact hidle₁
    · split_ifs
      · exact hidle₁
      · refine (request_obeys (fun _ _ => rfl) hidle₁).bind fun r d₂ hidle₂ => ?_
        split <;> exact hidle₂
  | remove infoHash deleteFiles =>
    show (client.remove urls infoHash deleteFiles).Obeys _ d _
    unfold QBittorrentClient.remove
    split_ifs
    · exact hidle
    · refine (request_obeys (fun _ _ => rfl) hidle).bind fun r d₁ hidle₁ => ?_
      split <;> exact hidle₁

theorem summary_obeys (hidle : d.Idle) :
    (client.summary urls).Obeys (manners urls client) d fun _ d' => d'.Idle := by
  refine (request_obeys (fun _ _ => rfl) hidle).bind fun r d₁ hidle₁ => ?_
  split <;> exact hidle₁

end

/-! ## What the tasks keep of the session -/

section
variable {ι : Type} {w w' : Shared ι} {i j : ι} {d : Desk}

/-- What every run keeps. -/
structure Shared.Orderly (w : Shared ι) : Prop where
  kept : ∀ cookie, w.cookie = some cookie → cookie ∈ w.issued
  free : w.holder = none → w.pending = false
  founding : w.cookie = none → w.founded = if w.pending then 1 else 0
  founded : w.founded ≤ 1
  renewals : ∀ i, w.renewals i ≤ w.lapses i

/-- What a task knows is so. -/
structure Desk.Apt (d : Desk) (i : ι) (w : Shared ι) : Prop where
  holds : d.holds = true → w.holder = some i
  pending : d.holds = true → w.pending = d.fresh.isSome
  seen : d.holds = true → ∀ held, d.seen = some held → w.cookie = held
  known : ∀ cookie, d.known = some cookie → cookie ∈ w.issued
  fresh : ∀ cookie, d.fresh = some cookie → d.holds = true ∧ cookie ∈ w.issued
  owed : d.owed = true → w.renewals i < w.lapses i

/-- What a task knows stays so where another one acts: behind a lock it holds nothing changes, and
    what is counted of it is its own. -/
theorem Desk.Apt.other (h : d.Apt j w) (hissued : ∀ cookie ∈ w.issued, cookie ∈ w'.issued)
    (hlocked : w.holder = some j →
      w'.holder = some j ∧ w'.cookie = w.cookie ∧ w'.pending = w.pending)
    (hcounts : w'.renewals j = w.renewals j ∧ w'.lapses j = w.lapses j) : d.Apt j w' where
  holds hd := (hlocked (h.holds hd)).1
  pending hd := (hlocked (h.holds hd)).2.2.trans (h.pending hd)
  seen hd held hs := (hlocked (h.holds hd)).2.1.trans (h.seen hd held hs)
  known cookie hk := hissued _ (h.known cookie hk)
  fresh cookie hf := (h.fresh cookie hf).imp_right (hissued _)
  owed ho := by
    rw [hcounts.1, hcounts.2]
    exact h.owed ho

/-- What a step of a task keeps. -/
def Keeps (i : ι) (d' : Desk) (w w' : Shared ι) : Prop :=
  w'.Orderly ∧ d'.Apt i w' ∧ ∀ j, j ≠ i → ∀ d : Desk, d.Apt j w → d.Apt j w'

theorem keeps_held (hw : w.Orderly) (hd : d.Apt i w) :
    Keeps i (d.record .held w.cookie) w w := by
  refine ⟨hw, { hd with
    seen := fun _ held h => by cases h; rfl
    known := fun cookie h => ?_ }, fun j _ e he => he⟩
  change (w.cookie <|> d.known) = some cookie at h
  cases hc : w.cookie with
  | none =>
    rw [hc] at h
    exact hd.known cookie h
  | some kept =>
    rw [hc] at h
    cases h
    exact hw.kept _ hc

theorem keeps_lock (hw : w.Orderly) (hd : d.Apt i w) (hmay : d.holds = false)
    (hfree : w.holder = none) : Keeps i (d.record .lock ()) w { w with holder := some i } := by
  have hfresh : d.fresh = none := by
    cases hf : d.fresh with
    | none => rfl
    | some cookie =>
      rw [(hd.fresh cookie hf).1] at hmay
      cases hmay
  refine ⟨{ hw with free := fun h => by cases h }, ⟨fun _ => rfl, fun _ => ?_, ?_, hd.known, ?_,
    hd.owed⟩, fun j _ e he => he.other (fun _ h => h) (fun h => ?_) ⟨rfl, rfl⟩⟩
  · show w.pending = d.fresh.isSome
    rw [hw.free hfree, hfresh]
    rfl
  · exact fun _ _ h => by cases h
  · exact fun cookie h => ⟨rfl, (hd.fresh cookie h).2⟩
  · rw [hfree] at h
    cases h

theorem keeps_keep (hw : w.Orderly) (hd : d.Apt i w) {cookie : String} (hholds : d.holds = true)
    (hfresh : d.fresh = some cookie) : Keeps i (d.record (.keep cookie) ()) w
      { w with cookie := some cookie, pending := false } := by
  refine ⟨⟨fun c h => ?_, fun _ => rfl, fun h => (by cases h), hw.founded, hw.renewals⟩,
    ⟨hd.holds, fun _ => rfl, fun _ _ h => (by cases h), hd.known, fun _ h => (by cases h), hd.owed⟩,
    fun j hj e he => he.other (fun _ h => h) (fun h => ?_) ⟨rfl, rfl⟩⟩
  · cases h
    exact (hd.fresh cookie hfresh).2
  · rw [hd.holds hholds] at h
    exact absurd (Option.some.inj h).symm hj

theorem keeps_unlock (hw : w.Orderly) (hd : d.Apt i w) (hholds : d.holds = true)
    (hfresh : d.fresh = none) : Keeps i (d.record .unlock ()) w { w with holder := none } := by
  refine ⟨{ hw with free := fun _ => ?_ }, ⟨fun h => (by cases h), fun h => (by cases h),
    fun h => (by cases h), hd.known, fun cookie h => ?_, hd.owed⟩,
    fun j hj e he => he.other (fun _ h => h) (fun h => ?_) ⟨rfl, rfl⟩⟩
  · show w.pending = false
    rw [hd.pending hholds, hfresh]
    rfl
  · rw [show (d.record .unlock ()).fresh = d.fresh from rfl, hfresh] at h
    cases h
  · rw [hd.holds hholds] at h
    exact absurd (Option.some.inj h).symm hj

theorem keeps_accepted (hw : w.Orderly) (hd : d.Apt i w) (hholds : d.holds = true)
    (hfresh : d.fresh = none) (cookie : String) :
    Keeps i { d with fresh := some cookie, known := some cookie } w (w.accepted cookie) := by
  have hpending : w.pending = false := by
    rw [hd.pending hholds, hfresh]
    rfl
  have hissued : ∀ c ∈ w.issued, c ∈ (w.accepted cookie).issued := fun c h =>
    List.mem_append_left _ h
  have hmem : cookie ∈ (w.accepted cookie).issued := List.mem_append_right _ (by simp)
  refine ⟨⟨fun c h => hissued c (hw.kept c h), fun h => ?_, fun h => ?_, ?_, hw.renewals⟩,
    ⟨hd.holds, fun _ => rfl, hd.seen, fun c h => ?_, fun c h => ?_, hd.owed⟩,
    fun j hj e he => he.other hissued (fun h => ?_) ⟨rfl, rfl⟩⟩
  · rw [show (w.accepted cookie).holder = w.holder from rfl, hd.holds hholds] at h
    cases h
  · -- the first that is accepted
    change w.cookie = none at h
    have hzero : w.founded = 0 := by simpa [hpending] using hw.founding h
    simp [Shared.accepted, h, hzero]
  · show (if w.cookie.isSome then w.founded else w.founded + 1) ≤ 1
    split_ifs with hkept
    · exact hw.founded
    · have hnone : w.cookie = none := by simpa using hkept
      have hzero : w.founded = 0 := by simpa [hpending] using hw.founding hnone
      exact hzero ▸ le_rfl
  · cases h
    exact hmem
  · cases h
    exact ⟨hholds, hmem⟩
  · rw [hd.holds hholds] at h
    exact absurd (Option.some.inj h).symm hj

variable [DecidableEq ι]

/-- A login that is due is counted, and nothing else is touched. -/
theorem keeps_asked (hw : w.Orderly) (hd : d.Apt i w) (hholds : d.holds = true)
    (hdue : d.seen = some none ∨ d.owed = true) :
    Keeps i { d with owed := false } w (w.asked i) := by
  unfold Shared.asked
  split_ifs with hkept
  · have howed : w.renewals i < w.lapses i := by
      refine hd.owed (hdue.resolve_left fun hseen => ?_)
      rw [hd.seen hholds none hseen] at hkept
      cases hkept
    refine ⟨{ hw with renewals := fun j => ?_ }, { hd with owed := fun h => by cases h },
      fun j hj e he => he.other (fun _ h => h) (fun h => ⟨h, rfl, rfl⟩) ⟨?_, rfl⟩⟩
    · show Function.update w.renewals i _ j ≤ w.lapses j
      by_cases hj : j = i
      · subst hj
        rw [Function.update_self]
        exact howed
      · rw [Function.update_of_ne hj]
        exact hw.renewals j
    · exact Function.update_of_ne hj _ _
  · exact ⟨hw, { hd with owed := fun h => by cases h }, fun j _ e he => he⟩

/-- Somebody is told that the session has expired. -/
theorem keeps_lapsed (hw : w.Orderly) (hd : d.Apt i w) :
    Keeps i { d with owed := true } w (w.lapsed i) := by
  refine ⟨{ hw with renewals := fun j => ?_ }, { hd with owed := fun _ => ?_ },
    fun j hj e he => he.other (fun _ h => h) (fun h => ⟨h, rfl, rfl⟩) ⟨rfl, ?_⟩⟩
  · show w.renewals j ≤ Function.update w.lapses i _ j
    by_cases hj : j = i
    · subst hj
      rw [Function.update_self]
      exact (hw.renewals j).trans (Nat.le_succ _)
    · rw [Function.update_of_ne hj]
      exact hw.renewals j
  · show w.renewals i < Function.update w.lapses i _ i
    rw [Function.update_self]
    exact Nat.lt_succ_of_le (hw.renewals i)
  · exact Function.update_of_ne hj _ _

/-- A request that was answered. -/
theorem keeps_answered {urls : UrlLibrary} {client : QBittorrentClient} (hw : w.Orderly)
    (hd : d.Apt i w) {request : Request} (hmay : May urls client d (.send request))
    (answer : Except String Response) :
    Keeps i (d.record (.send request) answer) w (w.answered i request answer) := by
  unfold Shared.answered
  simp only [Desk.record]
  rcases hmay with ⟨url, -, rfl, hholds, hfresh, hdue⟩ | ⟨cookie, hcookie, -, hidle⟩
  · simp only [QBittorrentClient.loginRequest, Option.isNone_none, if_true]
    have hasked := keeps_asked hw hd hholds hdue
    cases loginResult answer with
    | error e =>
      have hsame : ({ d with fresh := none, known := none <|> d.known, owed := false } : Desk) =
          { d with owed := false } := by
        cases d
        cases hfresh
        rfl
      exact hsame ▸ hasked
    | ok cookie =>
      obtain ⟨hw₁, hd₁, hothers⟩ := hasked
      obtain ⟨hw₂, hd₂, hothers₂⟩ := keeps_accepted hw₁ hd₁ hholds hfresh cookie
      exact ⟨hw₂, hd₂, fun j hj e he => hothers₂ j hj e (hothers j hj e he)⟩
  · simp only [hcookie, Option.isNone_some, Bool.false_eq_true, if_false]
    split_ifs with hlapsed
    · rw [hlapsed]
      exact keeps_lapsed hw hd
    · rw [Bool.eq_false_iff.2 hlapsed]
      exact ⟨hw, { hd with owed := fun h => by cases h }, fun j _ e he => he⟩

/-- The session stays orderly, whatever the tasks do and the server says. -/
theorem tasks_sound (urls : UrlLibrary) (client : QBittorrentClient) :
    (tasks ι urls client).Sound (fun _ => lastingManners urls client) Shared.Orderly
      fun i d w => d.Apt i w where
  start i p w hw hp := by
    have hapt : Desk.opening.Apt i w := by
      refine ⟨fun h => ?_, fun h => ?_, fun h => ?_, fun _ h => ?_, fun _ h => ?_, fun h => ?_⟩ <;>
        cases h
    refine ⟨.opening, hapt, ?_⟩
    rcases hp with ⟨c, rfl⟩ | rfl
    · exact dropping_obeys (d := .opening) (perform_obeys c ⟨rfl, rfl⟩)
    · exact dropping_obeys (d := .opening) (summary_obeys ⟨rfl, rfl⟩)
  call i c w r w' d hw hd hmay ha := by
    have hdone : ∀ d' w', Keeps i d' w w' → (lastingManners urls client).next c r d d' →
        w'.Orderly ∧ (∃ d', (lastingManners urls client).next c r d d' ∧ d'.Apt i w') ∧
          ∀ j, j ≠ i → ∀ e : Desk, e.Apt j w → e.Apt j w' :=
      fun d' w' hk hn => ⟨hk.1, ⟨d', hn, hk.2.1⟩, hk.2.2⟩
    cases c with
    | lock =>
      cases r with
      | none =>
        obtain rfl : w' = w := ha
        exact hdone { d with owed := false } _
          ⟨hw, { hd with owed := fun h => by cases h }, fun j _ e he => he⟩ ⟨rfl, .inl rfl⟩
      | some r =>
        obtain ⟨hfree, rfl⟩ := ha
        exact hdone _ _ (keeps_lock hw hd hmay hfree) rfl
    | held =>
      cases r with
      | none => exact ha.elim
      | some r =>
        obtain ⟨rfl, rfl⟩ := ha
        exact hdone _ _ (keeps_held hw hd) rfl
    | keep cookie =>
      cases r with
      | none => exact ha.elim
      | some r =>
        obtain rfl : w' = _ := ha
        exact hdone _ _ (keeps_keep hw hd hmay.1 hmay.2) rfl
    | unlock =>
      cases r with
      | none => exact ha.elim
      | some r =>
        obtain rfl : w' = _ := ha
        exact hdone _ _ (keeps_unlock hw hd hmay.1 hmay.2) rfl
    | send request =>
      cases r with
      | some answer =>
        obtain rfl : w' = _ := ha
        exact hdone _ _ (keeps_answered hw hd hmay answer) rfl
      | none =>
        -- a login may have been asked for, and the task is gone
        obtain rfl : w' = _ := ha
        refine hdone { d with owed := false } _ ?_ ⟨rfl, .inr ⟨request, rfl⟩⟩
        split_ifs with hlogin
        · rcases hmay with ⟨-, -, -, hholds, -, hdue⟩ | ⟨cookie, hcookie, -, -⟩
          · exact keeps_asked hw hd hholds hdue
          · rw [hcookie] at hlogin
            cases hlogin
        · exact ⟨hw, { hd with owed := fun h => by cases h }, fun j _ e he => he⟩
  move w w' _ h := h.elim

/-- Whatever any number of tasks do at once, and wherever one is dropped: a login is asked for
    behind the lock, and only where nobody is logged in or that task was told that its session has
    expired; every other request carries the cookie of a login the server accepted. One login at
    most is accepted where nobody is logged in, and each other one is matched by an expiry. -/
theorem session_shared {urls : UrlLibrary} {client : QBittorrentClient}
    {s : Lib.Config ι Call (fun c => Option (Ans c)) (Shared ι)}
    (hs : (tasks ι urls client).Reach .opening s) :
    (∀ i request k, s.threads i = some (.call (.send request) k) →
      (∃ url, client.url urls "api/v2/auth/login" = .ok url ∧ request = client.loginRequest url ∧
        s.world.holder = some i ∧
        (s.world.cookie = none ∨ s.world.renewals i < s.world.lapses i)) ∨
      ∃ cookie ∈ s.world.issued, request.cookie = some cookie) ∧
    s.world.founded ≤ 1 ∧ ∀ i, s.world.renewals i ≤ s.world.lapses i := by
  have hopening : (Shared.opening : Shared ι).Orderly :=
    ⟨fun _ h => (by cases h), fun _ => rfl, fun _ => rfl, Nat.zero_le 1, fun _ => le_rfl⟩
  have horderly := ((tasks_sound urls client).reach hopening hs).inv
  refine ⟨fun i request k hi => ?_, horderly.founded, horderly.renewals⟩
  obtain ⟨-, d, hd, hmay⟩ := (tasks_sound urls client).permitted hopening hs hi
  rcases hmay with ⟨url, hurl, hrequest, hholds, -, hdue⟩ | ⟨cookie, hcookie, hknown, -⟩
  · exact .inl ⟨url, hurl, hrequest, hd.holds hholds, hdue.imp (hd.seen hholds none) hd.owed⟩
  · exact .inr ⟨cookie, hd.known cookie hknown, hcookie⟩

end

/-! ## A session that has expired -/

def localClient : QBittorrentClient := ⟨⟨"http://localhost:8080/", "http"⟩, "admin", .new "secret"⟩

/-- A server that lets anybody in, and has forgotten it by the next request. -/
def forgetful (request : Request) : Except String Response :=
  if request.cookie.isNone then
    .ok ⟨200, "200 OK", [some "SID=abc; HttpOnly; path=/"], .ok "Ok.", .error "", .error ""⟩
  else .ok ⟨403, "403 Forbidden", [], .ok "Forbidden", .error "", .error ""⟩

/-- The answers a task gets on its own. -/
def forgetfulReply (i : Unit) : (c : Call) → Shared Unit → Option (Option (Ans c) × Shared Unit)
  | .lock, w => if w.holder = none then some (some (), { w with holder := some i }) else none
  | .held, w => some (some w.cookie, w)
  | .keep cookie, w => some (some (), { w with cookie := some cookie, pending := false })
  | .unlock, w => some (some (), { w with holder := none })
  | .send request, w =>
    some (some (forgetful request), w.answered i request (forgetful request))

/-- The request a task is about to send. -/
def sends : Prog Call (fun c => Option (Ans c)) Unit → Option Request
  | .call (.send request) _ => some request
  | _ => none

theorem sends_some {p : Prog Call (fun c => Option (Ans c)) Unit} {request : Request}
    (h : sends p = some request) : ∃ k, p = .call (.send request) k := by
  cases p with
  | ret a => cases h
  | call c k =>
    cases c with
    | send q =>
      cases h
      exact ⟨k, rfl⟩
    | _ => cases h

theorem forgetful_login : sends (System.drive (forgetfulReply ()) 7
    (dropping false (localClient.perform Unit3dTracker.hostUrls (.status sevens))) .opening).1 =
      some (localClient.loginRequest ⟨"http://localhost:8080/api/v2/auth/login", "http"⟩) := by
  decide +kernel

theorem session_shared_expired : ∃ s : Lib.Config Unit Call (fun c => Option (Ans c)) (Shared Unit),
    (∃ k, s.threads () = some (.call (.send (localClient.loginRequest
      ⟨"http://localhost:8080/api/v2/auth/login", "http"⟩)) k)) ∧
    ((∃ url, localClient.url Unit3dTracker.hostUrls "api/v2/auth/login" = .ok url ∧
      localClient.loginRequest ⟨"http://localhost:8080/api/v2/auth/login", "http"⟩ =
        localClient.loginRequest url ∧
      s.world.holder = some () ∧
      (s.world.cookie = none ∨ s.world.renewals () < s.world.lapses ())) ∨
    ∃ cookie ∈ s.world.issued, (localClient.loginRequest
      ⟨"http://localhost:8080/api/v2/auth/login", "http"⟩).cookie = some cookie) ∧
    s.world.founded ≤ 1 ∧ ∀ i, s.world.renewals i ≤ s.world.lapses i := by
  obtain ⟨s, hs, hthread, -⟩ := System.reach_alone
    (tasks Unit Unit3dTracker.hostUrls localClient) .opening () (h := forgetfulReply ())
    (.inl ⟨.status sevens, rfl⟩) (fun c w r hr => ⟨w, .refl, by
      cases c with
      | lock =>
        simp only [forgetfulReply] at hr
        split_ifs at hr with hfree
        cases hr
        exact ⟨hfree, rfl⟩
      | held => cases hr; exact ⟨rfl, rfl⟩
      | _ => cases hr; rfl⟩) 7
  obtain ⟨k, hk⟩ := sends_some forgetful_login
  have hsends := hthread.trans (congrArg some hk)
  obtain ⟨hmay, hcounts⟩ := session_shared hs
  exact ⟨s, ⟨k, hsends⟩, hmay () _ k hsends, hcounts⟩

end QBittorrent

end SeedMedic
