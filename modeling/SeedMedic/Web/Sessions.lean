/-
  Which token the live sessions go back to.
-/
import SeedMedic.Runtime.Phases

namespace SeedMedic

open Lib Prog

namespace RuntimeHandle

/-! ## What is noted of the sessions -/

/-- How often the token has changed, and how much of that the sessions have seen. -/
structure Minting (ι : Type) where
  /-- The changes of the token so far. -/
  changes : ℕ
  /-- The changes there had been when a thread last read the generation. -/
  read : ι → ℕ
  /-- The live sessions, each with the changes its thread had read of. -/
  minted : List (String × ℕ)
  /-- The changes after which all sessions were ended. -/
  ended : ℕ
  /-- The reload that holds the lock has changed the token. -/
  changing : Bool
  /-- The changes whose reloads have returned. -/
  returned : ℕ

section
variable {ι : Type}

/-- Nothing happened yet. -/
def Minting.fresh : Minting ι := ⟨0, fun _ => 0, [], 0, false, 0⟩

/-- Whether an installation changes the token. -/
def tokenChanges (service : Service) (runtime : Runtime) : Bool :=
  Runtime.authTokenChanged service.current.authToken runtime.authToken

variable [DecidableEq ι]

/-- What is noted when a call is answered. -/
def mint (i : ι) : (c : ServiceCall) → c.Ans → Shared ι (Minting ι) → Minting ι
  | .current, _, w =>
    { w.notes with read := Function.update w.notes.read i w.notes.changes }
  | .install runtime, _, w =>
    if tokenChanges w.service runtime then
      { w.notes with changes := w.notes.changes + 1, changing := true }
    else w.notes
  | .clearSessions, _, w => { w.notes with minted := [], ended := w.notes.changes }
  | .createSession, id, w => { w.notes with minted := (id, w.notes.read i) :: w.notes.minted }
  | .destroySession id, _, w =>
    { w.notes with minted := w.notes.minted.filter fun m => m.1 ≠ id }
  | .lockWorker, _, w => { w.notes with changing := false }
  | .unlockWorker, _, w =>
    { w.notes with
      changing := false
      returned := if w.notes.changing then w.notes.changes else w.notes.returned }
  | _, _, w => w.notes

/-- A session is recorded only while no change of the token has ended the sessions since its
    thread read the token. -/
def FreshlyRead (i : ι) : ServiceCall → Shared ι (Minting ι) → Prop
  | .createSession, w => w.notes.ended ≤ w.notes.read i
  | _, _ => True

end

/-! ## Every run -/

/-- The live sessions are those noted, and all of them have seen the last change that ended the
    sessions. -/
structure Minted {ι : Type} (w : Shared ι (Minting ι)) : Prop where
  sessions : w.service.sessions = w.notes.minted.map Prod.fst
  fresh : ∀ m ∈ w.notes.minted, w.notes.ended ≤ m.2
  returned : w.notes.returned ≤ w.notes.ended
  ended : w.notes.ended ≤ w.notes.changes

section
variable {ι : Type} {i j : ι} {w w' : Shared ι (Minting ι)} {l : Phase}

/-- What a phase says of the token. -/
def Phase.Minds (i : ι) (l : Phase) (w : Shared ι (Minting ι)) : Prop :=
  l ≠ .outside → w.holder = some i ∧
    match l with
    | .opened old _ | .listed old _ _ | .cleared old _ =>
      w.notes.changing = false ∧ w.service.current = old
    | .unended => True
    | .done => w.notes.changing = true → w.notes.ended = w.notes.changes
    | _ => w.notes.changing = false

/-- Nothing that a phase speaks of has changed. -/
structure Unminded (w w' : Shared ι (Minting ι)) : Prop where
  holder : w'.holder = w.holder
  current : w'.service.current = w.service.current
  changing : w'.notes.changing = w.notes.changing
  ended : w'.notes.ended = w.notes.ended
  changes : w'.notes.changes = w.notes.changes

theorem Phase.Minds.keep (h : l.Minds i w) (hw : Unminded w w') : l.Minds i w' := by
  intro hl
  have h := h hl
  cases l with
  | outside => exact absurd rfl hl
  | _ => simpa only [hw.holder, hw.current, hw.changing, hw.ended, hw.changes] using h

section
variable [DecidableEq ι]

theorem mint_aside {c : ServiceCall} {a : c.Ans} (hc : Aside c) :
    (mint i c a w).changing = w.notes.changing ∧ (mint i c a w).ended = w.notes.ended ∧
      (mint i c a w).changes = w.notes.changes ∧ (mint i c a w).returned = w.notes.returned := by
  cases c with
  | lockWorker => exact hc.elim
  | unlockWorker => exact hc.elim
  | loadConfig => exact hc.elim
  | unfinished => exact hc.elim
  | build config => exact hc.elim
  | install runtime => exact hc.elim
  | clearSessions => exact hc.elim
  | _ => exact ⟨rfl, rfl, rfl, rfl⟩

/-- A call that has nothing to do with a reload leaves alone what one minds. -/
theorem unminded_of_aside {c : ServiceCall} {a : c.Ans} {service : Service} {holder : Option ι}
    (hc : Aside c) (h : w.Answers i c a service holder) :
    Unminded w ⟨service, holder, mint i c a w⟩ := by
  obtain ⟨hchanging, hended, hchanges, -⟩ := mint_aside (i := i) (w := w) (a := a) hc
  cases h with
  | lock free => exact hc.elim
  | unlock => exact hc.elim
  | work health diagnostics replied => exact ⟨rfl, rfl, hchanging, hended, hchanges⟩
  | plain plain served =>
    refine ⟨rfl, ?_, hchanging, hended, hchanges⟩
    refine (Service.serve_current plain served).trans ?_
    cases c with
    | install runtime => exact hc.elim
    | _ => rfl

/-- What is noted of the sessions is what there is. -/
theorem Minted.after {c : ServiceCall} {a : c.Ans} {service : Service} {holder : Option ι}
    (hw : Minted w) (hl : l.Minds i w) (hmay : reloading.may c l) (hfresh : FreshlyRead i c w)
    (h : w.Answers i c a service holder) : Minted ⟨service, holder, mint i c a w⟩ := by
  cases h with
  | lock free => exact ⟨hw.sessions, hw.fresh, hw.returned, hw.ended⟩
  | unlock =>
    refine ⟨hw.sessions, hw.fresh, ?_, hw.ended⟩
    obtain ⟨hinside, hended⟩ := hmay
    have hl := (hl hinside).2
    cases hchanging : w.notes.changing with
    | false => simpa [mint, hchanging] using hw.returned
    | true =>
      have hdone : w.notes.ended = w.notes.changes := by
        cases l with
        | outside => exact absurd rfl hinside
        | unended => exact absurd rfl hended
        | done => exact hl hchanging
        | _ => simp_all
      simp [mint, hchanging, hdone]
  | work health diagnostics replied => exact ⟨hw.sessions, hw.fresh, hw.returned, hw.ended⟩
  | plain plain served =>
    cases c with
    | lockWorker => exact plain.elim
    | unlockWorker => exact plain.elim
    | work c => exact plain.elim
    | install runtime =>
      cases served
      have hsame : ∀ changed : Bool, Minted (⟨{ w.service with current := runtime }, w.holder,
          if changed then { w.notes with changes := w.notes.changes + 1, changing := true }
          else w.notes⟩ : Shared ι (Minting ι)) := by
        rintro (_ | _)
        · exact ⟨hw.sessions, hw.fresh, hw.returned, hw.ended⟩
        · exact ⟨hw.sessions, hw.fresh, hw.returned, hw.ended.trans (Nat.le_succ _)⟩
      exact hsame _
    | clearSessions =>
      cases served
      exact ⟨rfl, fun m hm => (by cases hm), hw.returned.trans hw.ended, le_rfl⟩
    | createSession =>
      cases served
      refine ⟨congrArg _ hw.sessions, fun m hm => ?_, hw.returned, hw.ended⟩
      rcases List.mem_cons.1 hm with rfl | hm
      · exact hfresh
      · exact hw.fresh m hm
    | destroySession id =>
      cases served
      refine ⟨?_, fun m hm => hw.fresh m (List.mem_of_mem_filter hm), hw.returned, hw.ended⟩
      simp only [mint, hw.sessions, List.filter_map]
      rfl
    | _ =>
      cases served
      exact ⟨hw.sessions, hw.fresh, hw.returned, hw.ended⟩

theorem services_minted : ((services ι mint).confine (fun _ _ => True) FreshlyRead
    fun _ _ => True).Sound (fun _ => reloading) Minted Phase.Minds where
  start := fun i p w _ hp => ⟨.outside, fun h => absurd rfl h, obeys_of_serving hp.2⟩
  call := by
    rintro i c w a w' l hw hl hmay ⟨hfresh, service, holder, hanswered, rfl⟩
    refine ⟨hw.after hl hmay hfresh hanswered, ⟨_, next_of_answers hanswered, ?_⟩,
      fun j hj m hm hm' => ?_⟩
    · by_cases hc : Aside c
      · have hkept := hl.keep (unminded_of_aside hc hanswered)
        obtain hsame | ⟨new, rfl, hopened⟩ := after_of_aside (l := l) hc hanswered
        · rw [hsame]
          exact hkept
        · obtain ⟨hholder, hchanging⟩ := hkept (by rintro ⟨⟩)
          rw [hopened]
          exact fun _ => ⟨hholder, hchanging, (unminded_of_aside hc hanswered).current⟩
      cases c with
      | lockWorker =>
        cases hanswered with
        | lock free => exact fun _ => ⟨rfl, rfl⟩
        | plain plain served => exact plain.elim
      | unlockWorker => exact fun h => absurd rfl h
      | loadConfig =>
        obtain rfl := hmay
        obtain ⟨hholder, hchanging⟩ := hl (by rintro ⟨⟩)
        cases hanswered with
        | plain plain served =>
          cases served
          refine fun _ => ⟨hholder, ?_⟩
          cases w.service.loadConfig _ <;> exact hchanging
      | unfinished =>
        obtain ⟨old, new, rfl⟩ := hmay
        obtain ⟨hholder, hopened⟩ := hl (by rintro ⟨⟩)
        cases hanswered with
        | @plain env _ _ _ plain served =>
          cases served
          refine fun _ => ⟨hholder, ?_⟩
          cases w.service.unfinished env <;> exact hopened
      | build config =>
        obtain ⟨old, jobs, rfl, -⟩ := hmay
        obtain ⟨hholder, hlisted⟩ := hl (by rintro ⟨⟩)
        cases hanswered with
        | plain plain served =>
          cases served
          exact fun _ => ⟨hholder, hlisted⟩
      | install runtime =>
        obtain ⟨old, rfl⟩ := hmay
        obtain ⟨hholder, hchanging, hcurrent⟩ := hl (by rintro ⟨⟩)
        cases hanswered with
        | plain plain served =>
          cases served
          refine fun _ => ⟨hholder, ?_⟩
          cases hchanges : Runtime.authTokenChanged old.authToken runtime.authToken with
          | false =>
            simp only [Phase.after, mint, tokenChanges, hcurrent, hchanges]
            change w.notes.changing = true → w.notes.ended = w.notes.changes
            intro hnow
            rw [hchanging] at hnow
            cases hnow
          | true => simp only [Phase.after, hchanges, if_true]
      | clearSessions =>
        obtain rfl := hmay
        obtain ⟨hholder, -⟩ := hl (by rintro ⟨⟩)
        cases hanswered with
        | plain plain served => exact fun _ => ⟨hholder, fun _ => rfl⟩
      | _ => exact absurd trivial hc
    · have hc : Aside c :=
        aside_of_held hj (hm hm').1 (fun hinside => (hl hinside).1) hmay hanswered
      exact hm.keep (unminded_of_aside hc hanswered) hm'
  move := by
    rintro w w' hw ⟨-, ⟨dir, rfl⟩ | ⟨now, h, d, store, hok, rfl⟩ | ⟨kind, -, rfl⟩⟩
    all_goals exact ⟨⟨hw.sessions, hw.fresh, hw.returned, hw.ended⟩,
      fun j m hm => hm.keep ⟨rfl, rfl, rfl, rfl, rfl⟩⟩

end

end

/-- A service that has no session yet. -/
def opening {ι : Type} (service : Service) : Shared ι (Minting ι) :=
  ⟨{ service with sessions := [] }, none, .fresh⟩

theorem opening_minted {ι : Type} (service : Service) : Minted (opening service : Shared ι (Minting ι)) :=
  ⟨rfl, fun m hm => (by cases hm), le_rfl, le_rfl⟩

end RuntimeHandle

open RuntimeHandle

/-- In every run in which a session is recorded only while no change of the token has ended the
    sessions since its thread read the token: every live session goes back to a reading of the token
    after each change whose reload has returned. -/
theorem live_sessions_fresh {ι : Type} [DecidableEq ι] {service : Service}
    {s : Lib.Config ι ServiceCall ServiceCall.Ans (Shared ι (Minting ι))}
    (hreach : ((services ι mint).confine (fun _ _ => True) FreshlyRead fun _ _ => True).Reach
      (opening service) s) :
    s.world.service.sessions = s.world.notes.minted.map Prod.fst ∧
      ∀ session seen, (session, seen) ∈ s.world.notes.minted → s.world.notes.returned ≤ seen := by
  have hminted := (services_minted.reach (opening_minted service) hreach).inv
  exact ⟨hminted.sessions, fun session seen hm => hminted.returned.trans (hminted.fresh _ hm)⟩

/-! ## A sign-in around a change of the token -/

namespace RotatedToken

def text : String := "[server]\nauth_token = \"new\"\n"

def tree : Toml.Table := [("server", .table [("auth_token", .str "new")])]

def env : ServiceEnv := .plain (.plain (.known [(text, tree)] fun _ => text))

/-- The configuration that runs, with the old token. -/
def old : Config := { Config.default with server := ⟨"0.0.0.0:9899", .new "old", none, ""⟩ }

def service : Service :=
  .started ⟨some ⟨text, 1, 0o600⟩, none, none, 2⟩ (.plain old env.build) .new

/-- As the surroundings answer, with sessions recorded on a fresh reading only. -/
def freshly (c : ServiceCall) (w : Shared Unit (Minting Unit)) :
    Option (c.Ans × Shared Unit (Minting Unit)) :=
  match c with
  | .createSession =>
    if w.notes.ended ≤ w.notes.read () then Shared.reply env mint () .createSession w else none
  | c => Shared.reply env mint () c w

theorem freshly_answers {c : ServiceCall} {w : Shared Unit (Minting Unit)}
    {a : c.Ans × Shared Unit (Minting Unit)} (h : freshly c w = some a) :
    ((services Unit mint).confine (fun _ _ => True) FreshlyRead fun _ _ => True).answers () c w
      a.1 a.2 := by
  cases c with
  | createSession =>
    by_cases hfresh : w.notes.ended ≤ w.notes.read ()
    · simp only [freshly, hfresh, if_true] at h
      exact ⟨hfresh, Shared.reply_answers h⟩
    · simp only [freshly, hfresh, if_false] at h
      cases h
  | _ => exact ⟨trivial, Shared.reply_answers (e := env) h⟩

/-- The reload with the new token, and then a sign-in with it. -/
def reloaded : S Unit × Shared Unit (Minting Unit) :=
  System.drive freshly 40 (runFor RuntimeHandle.reload) (opening service)

def signedIn : S Unit × Shared Unit (Minting Unit) :=
  System.drive freshly 5 (runFor (login.submit "new")) reloaded.2

/-- A sign-in that has compared the old token. -/
def compared : S Unit × Shared Bool (Minting Bool) :=
  System.drive (Shared.reply env mint false) 1 (runFor (login.submit "old")) (opening service)

/-- The reload, made meanwhile. -/
def rotated : S Unit × Shared Bool (Minting Bool) :=
  System.drive (Shared.reply env mint true) 40 (runFor RuntimeHandle.reload) compared.2

/-- The rest of the sign-in. -/
def late : S Unit × Shared Bool (Minting Bool) :=
  System.drive (Shared.reply env mint false) 5 compared.1 rotated.2

end RotatedToken

/-- Signed in with the new token, after the reload. -/
theorem signed_in_fresh : ∃ s : Lib.Config Unit ServiceCall ServiceCall.Ans
      (Shared Unit (Minting Unit)),
    s.world.notes.returned = 1 ∧ s.world.service.sessions = ["0"] ∧
      s.world.service.sessions = s.world.notes.minted.map Prod.fst ∧
      ∀ session seen, (session, seen) ∈ s.world.notes.minted → s.world.notes.returned ≤ seen := by
  obtain ⟨s₁, hs₁, -, hworld₁⟩ := System.reach_alone
    ((services Unit mint).confine (fun _ _ => True) FreshlyRead fun _ _ => True)
    (opening RotatedToken.service) () ⟨trivial, .reload⟩
    (fun c w a h => ⟨w, .refl, RotatedToken.freshly_answers h⟩) 40
  obtain ⟨s₂, hs₂, -, hworld₂⟩ := System.reach_again (i := ()) hs₁
    (p := runFor (login.submit "new")) ⟨trivial, .login "new"⟩
    (fun c w a h => ⟨w, .refl, RotatedToken.freshly_answers h⟩) 5
  rw [hworld₁] at hworld₂
  refine ⟨s₂, ?_, ?_, live_sessions_fresh hs₂⟩
  · rw [hworld₂]
    decide +kernel
  · rw [hworld₂]
    decide +kernel

/-- A session recorded on the old token after the reload that changed it has returned. -/
theorem late_session : ∃ s : Lib.Config Bool ServiceCall ServiceCall.Ans
      (Shared Bool (Minting Bool)),
    (services Bool mint).Reach (opening RotatedToken.service) s ∧
      ∃ session seen, session ∈ s.world.service.sessions ∧
        (session, seen) ∈ s.world.notes.minted ∧ seen < s.world.notes.returned := by
  have hreply : ∀ (i : Bool) (c : ServiceCall) (w : Shared Bool (Minting Bool))
      (a : c.Ans × Shared Bool (Minting Bool)),
      Shared.reply RotatedToken.env mint i c w = some a →
        ∃ w', Relation.ReflTransGen (services Bool mint).moves w w' ∧
          (services Bool mint).answers i c w' a.1 a.2 :=
    fun i c w a h => ⟨w, .refl, Shared.reply_answers h⟩
  obtain ⟨s₁, hs₁, hthread₁, hworld₁, hothers₁⟩ := System.reach_next
    (S := services Bool mint) (i := false) .refl rfl (.login "old") (hreply false) 1
  obtain ⟨s₂, hs₂, -, hworld₂, hothers₂⟩ := System.reach_next hs₁ (i := true)
    (hothers₁ true (by decide)) .reload (hreply true) 40
  obtain ⟨s₃, hs₃, -, hworld₃, -⟩ := System.reach_drive (hreply false) 5 hs₂
    ((hothers₂ false (by decide)).trans hthread₁)
  rw [hworld₂, hworld₁] at hworld₃
  have hsessions : RotatedToken.late.2.service.sessions = ["0"] := by decide +kernel
  have hminted : RotatedToken.late.2.notes.minted = [("0", 0)] := by decide +kernel
  have hreturned : RotatedToken.late.2.notes.returned = 1 := by decide +kernel
  have hlate : s₃.world = RotatedToken.late.2 := hworld₃
  refine ⟨s₃, hs₃, "0", 0, ?_, ?_, ?_⟩
  · rw [hlate, hsessions]
    exact List.mem_singleton_self _
  · rw [hlate, hminted]
    exact List.mem_singleton_self _
  · rw [hlate, hreturned]
    exact Nat.one_pos

end SeedMedic
