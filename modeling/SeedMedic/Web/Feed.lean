/-
  What an open stream of events is sent around a change of the token.
-/
import SeedMedic.Web.Sessions

namespace SeedMedic

open Lib Prog RuntimeHandle

namespace EventStream

variable {env : ServiceEnv} {w : Service} {s : EventStream}

end EventStream

/-! ## What is noted of the streams -/

/-- What a stream was sent since it was opened. -/
structure StreamRecord where
  stream : EventStream
  /-- The changes of the token its thread had read of when it was opened. -/
  since : ℕ
  delivered : List SseEvent
  finished : Bool

/-- The changes of the token, and the streams that are open meanwhile. -/
structure Watching (ι : Type) where
  /-- The changes of the token so far. -/
  changes : ℕ
  /-- Where in the channel a change was announced, and which. -/
  announced : List (ℕ × ℕ)
  /-- The changes there had been when a thread last read the generation. -/
  read : ι → ℕ
  streams : ι → Option StreamRecord

section
variable {ι : Type}

def Watching.fresh : Watching ι := ⟨0, [], fun _ => 0, fun _ => none⟩

variable [DecidableEq ι]

/-- What is noted of the stream of a thread. -/
def Watching.record (n : Watching ι) (i : ι) (f : StreamRecord → StreamRecord) : Watching ι :=
  { n with streams := Function.update n.streams i ((n.streams i).map f) }

/-- What is noted when a call is answered. -/
def watchFeed (i : ι) : (c : ServiceCall) → c.Ans → Shared ι (Watching ι) → Watching ι
  | .current, _, w =>
    { w.notes with read := Function.update w.notes.read i w.notes.changes }
  | .install runtime, _, w =>
    if tokenChanges w.service runtime then { w.notes with changes := w.notes.changes + 1 }
    else w.notes
  | .send e, _, w =>
    if e.kind = .authTokenChanged then
      { w.notes with
        announced := (w.service.bus.sent.length, w.notes.changes) :: w.notes.announced }
    else w.notes
  | .respond s opening, _, w =>
    { w.notes with
      streams := Function.update w.notes.streams i (some ⟨s, w.notes.read i, [opening], false⟩) }
  | .deliver e, _, w => w.notes.record i fun r => { r with delivered := r.delivered ++ [e] }
  | .finish, _, w => w.notes.record i fun r => { r with finished := true }
  | _, _, w => w.notes

end

/-- Once a stream has come past the announcement of a change of the token that came after its
    opening, it has been sent the event of it, nothing else since, and is at its end. -/
def StreamRecord.EndsAsTold (r : StreamRecord) (next : ℕ) (announced : List (ℕ × ℕ)) : Prop :=
  ∀ pos change, (pos, change) ∈ announced → r.since < change → pos < next →
    r.finished = true ∧
      ∃ before last, r.delivered = before ++ [last] ∧ last.name = nameFor .authTokenChanged

/-! ## What a stream does -/

/-- A stream is opened before it is read from, and never at its end. -/
def streaming : Rules ServiceCall ServiceCall.Ans Bool where
  may
    | .recv _, opened => opened = true
    | .finish, _ => False
    | _, _ => True
  next
    | .recv _, received, opened, opened' => received.1 ≠ .closed ∧ opened' = opened
    | .respond .., _, _, opened' => opened' = true
    | _, _, opened, opened' => opened' = opened

theorem obeys_of_offstream {α : Type} {p : S α} {opened : Bool} (h : p.Only Offstream) :
    p.Obeys streaming opened fun _ opened' => opened' = opened := by
  refine h.obeys rfl fun c l hc hl => ?_
  subst hl
  cases c with
  | respond s e => exact hc.elim
  | recv next => exact hc.elim
  | deliver e => exact hc.elim
  | finish => exact hc.elim
  | _ => exact ⟨trivial, fun _ _ hn => hn⟩

namespace EventStream

/-- What a request is answered with is open. -/
theorem stream_obeys (request : WebRequest) (resumedFrom : Option ℕ) :
    (stream request resumedFrom).Obeys streaming false fun s opened =>
      s.isSome = true → opened = true := by
  refine (obeys_of_offstream (ask_offstream (c := .subscribe) trivial)).bind fun next _ _ => ?_
  refine (obeys_of_offstream (ask_offstream (c := .seq) trivial)).bind fun seq _ _ => ?_
  refine (obeys_of_offstream (ask_offstream (c := .current) trivial)).bind fun runtime _ _ => ?_
  dsimp only
  split_ifs
  · exact fun h => by cases h
  · exact ⟨trivial, fun generation _ _ => ⟨trivial, fun _ opened ho _ => ho⟩⟩

/-- A stream goes on as long as its channel does. -/
theorem pass_obeys {s : EventStream} {taken : Received × ℕ} (h : taken.1 ≠ .closed) :
    (s.pass taken).Obeys streaming true fun s' opened => s'.isSome = true ∧ opened = true := by
  have hadmitted : s.admitted.Obeys streaming true fun _ opened => opened = true := by
    unfold admitted
    split_ifs
    · cases s.session with
      | none => rfl
      | some id => exact ⟨trivial, fun _ _ ho => ho⟩
    · rfl
  have hsend : ∀ received, (s.send received).Obeys streaming true fun _ opened => opened = true := by
    intro received
    cases received with
    | event e => exact ⟨trivial, fun _ l hl => ⟨trivial, fun _ _ ho => ho.trans hl⟩⟩
    | lagged missed => exact ⟨trivial, fun _ _ ho => ho⟩
    | pending => rfl
    | closed => rfl
  obtain ⟨received, next⟩ := taken
  cases received with
  | closed => exact absurd rfl h
  | pending => exact ⟨rfl, rfl⟩
  | _ =>
    refine hadmitted.bind fun live l hl => ?_
    subst hl
    cases live with
    | false => exact ⟨rfl, rfl⟩
    | true => exact (hsend _).bind fun _ _ ho => ⟨rfl, ho⟩

theorem follow_obeys (n : ℕ) : ∀ s : EventStream,
    (follow n s).Obeys streaming true fun _ _ => True := by
  induction n with
  | zero => exact fun s => trivial
  | succ n ih =>
    intro s
    refine ⟨rfl, fun taken l hl => ?_⟩
    obtain ⟨hopen, rfl⟩ := hl
    refine (pass_obeys hopen).bind fun next l hl => ?_
    obtain ⟨hgoes, rfl⟩ := hl
    cases next with
    | none => cases hgoes
    | some s => exact ih s

theorem serve_obeys (request : WebRequest) (resumedFrom : Option ℕ) (n : ℕ) :
    (serve request resumedFrom n).Obeys streaming false fun _ _ => True := by
  have hopened : (SeedMedic.guarded request (stream request resumedFrom)).Obeys streaming false
      fun opened l => ∀ s, opened = .ok (some s) → l = true := by
    refine (obeys_of_offstream ((requireAuthToken_ordinary request).mono
      fun _ => Ordinary.offstream)).bind fun verdict l hl => ?_
    subst hl
    cases verdict with
    | next =>
      refine (stream_obeys request resumedFrom).bind fun s l hl => ?_
      rintro s' ⟨⟩
      exact hl rfl
    | _ => exact fun s h => by cases h
  refine hopened.bind fun opened l hl => ?_
  cases opened with
  | error verdict => trivial
  | ok opened =>
    cases opened with
    | none => trivial
    | some s =>
      rw [hl s rfl]
      exact follow_obeys n s

end EventStream

/-! ## Every run -/

section
variable {ι : Type} {i : ι} {w : Shared ι (Watching ι)}

/-- The stream of a thread that has opened one is not at its end. -/
def Unfinished (i : ι) (opened : Bool) (w : Shared ι (Watching ι)) : Prop :=
  opened = true → ∃ r, w.notes.streams i = some r ∧ r.finished = false

theorem Unfinished.of_streams {w' : Shared ι (Watching ι)} {opened : Bool}
    (h : Unfinished i opened w) (hw : w'.notes.streams i = w.notes.streams i) :
    Unfinished i opened w' := by
  intro ho
  rw [hw]
  exact h ho

variable [DecidableEq ι]

/-- A call that has nothing to do with a stream leaves the streams alone. -/
theorem watchFeed_streams {c : ServiceCall} {a : c.Ans} (hc : Offstream c) :
    (watchFeed i c a w).streams = w.notes.streams := by
  cases c with
  | install runtime =>
    simp only [watchFeed]
    split_ifs <;> rfl
  | send e =>
    simp only [watchFeed]
    split_ifs <;> rfl
  | respond s e => exact hc.elim
  | recv next => exact hc.elim
  | deliver e => exact hc.elim
  | finish => exact hc.elim
  | _ => rfl

/-- A thread notes nothing of the streams of others. -/
theorem watchFeed_streams_of_ne {j : ι} {c : ServiceCall} {a : c.Ans} (hj : j ≠ i) :
    (watchFeed i c a w).streams j = w.notes.streams j := by
  cases c with
  | respond s e => exact Function.update_of_ne hj ..
  | recv next => rfl
  | deliver e => exact Function.update_of_ne hj ..
  | finish => exact Function.update_of_ne hj ..
  | _ => exact congrFun (watchFeed_streams (a := a) trivial) j

theorem services_unfinished : (services ι watchFeed).Sound (fun _ => streaming) (fun _ => True)
    Unfinished where
  start := fun i p w _ hp => by
    refine ⟨false, fun h => (by cases h), ?_⟩
    rcases offstream_of_serving hp with hp | ⟨request, resumedFrom, n, rfl⟩
    · exact (obeys_of_offstream hp).mono fun _ _ _ => trivial
    · exact EventStream.serve_obeys request resumedFrom n
  call := by
    rintro i c w a w' opened - hopened hmay ⟨service, holder, hanswered, rfl⟩
    refine ⟨trivial, ?_, fun j hj m hm => hm.of_streams (watchFeed_streams_of_ne hj)⟩
    cases c with
    | recv next =>
      refine ⟨opened, ⟨?_, rfl⟩, hopened⟩
      cases hanswered with
      | plain plain served =>
        cases served
        obtain ⟨missed, htaken⟩ | ⟨e, htaken⟩ | htaken := w.service.bus.recv_cases next <;>
          simp [htaken]
    | respond s e =>
      exact ⟨true, rfl, fun _ => ⟨_, Function.update_self .., rfl⟩⟩
    | finish => exact hmay.elim
    | deliver e =>
      refine ⟨opened, rfl, fun ho => ?_⟩
      obtain ⟨r, hr, hfinished⟩ := hopened ho
      refine ⟨{ r with delivered := r.delivered ++ [e] }, ?_, hfinished⟩
      simp [watchFeed, Watching.record, hr]
    | _ =>
      have hsame := watchFeed_streams (i := i) (w := w) (a := a) trivial
      exact ⟨opened, rfl, hopened.of_streams (congrFun hsame i)⟩
  move := by
    rintro w w' - (⟨dir, rfl⟩ | ⟨now, h, d, store, hok, rfl⟩ | ⟨kind, -, rfl⟩) <;>
      exact ⟨trivial, fun j m hm => hm⟩

end

/-- In every run, what a stream that is read from was sent is noted, and it ends as the changes of
    the token tell it to if and only if it has come past no announcement of a change that came after
    its opening. -/
theorem ends_as_told_iff {ι : Type} [DecidableEq ι] {service : Service}
    {s : Lib.Config ι ServiceCall ServiceCall.Ans (Shared ι (Watching ι))} {i : ι} {next : ℕ}
    {k : Received × ℕ → S Unit}
    (hreach : (services ι watchFeed).Reach ⟨service, none, .fresh⟩ s)
    (hopen : s.threads i = some (.call (.recv next) k)) :
    ∃ r, s.world.notes.streams i = some r ∧
      (r.EndsAsTold next s.world.notes.announced ↔
        ∀ pos change, (pos, change) ∈ s.world.notes.announced → pos < next →
          change ≤ r.since) := by
  obtain ⟨-, opened, hopened, hmay⟩ := services_unfinished.permitted trivial hreach hopen
  obtain ⟨r, hr, hunfinished⟩ := hopened hmay
  refine ⟨r, hr, fun hends pos change hmem hpast => ?_, fun hnone pos change hmem hlater hpast => ?_⟩
  · by_contra hlater
    obtain ⟨hfinished, -⟩ := hends pos change hmem (not_le.1 hlater) hpast
    rw [hunfinished] at hfinished
    cases hfinished
  · exact absurd hlater (not_lt.2 (hnone pos change hmem hpast))

/-! ## A stream opened without a token -/

namespace TokenSet

/-- A service without a token, whose file names one. -/
def service : Service :=
  .started ⟨some ⟨RotatedToken.text, 1, 0o600⟩, none, none, 2⟩ (.plain .default RotatedToken.env.build)
    .new

def request : WebRequest := ⟨"/api/v1/events", false, none, none, false, false⟩

def reply (i : Bool) : (c : ServiceCall) → Shared Bool (Watching Bool) →
    Option (c.Ans × Shared Bool (Watching Bool)) :=
  Shared.reply RotatedToken.env watchFeed i

/-- The stream is opened, and waits for its first event. -/
def waiting : S Unit × Shared Bool (Watching Bool) :=
  System.drive (reply false) 6 (EventStream.serve request none 9) ⟨service, none, .fresh⟩

/-- The token is set meanwhile. -/
def set : S Unit × Shared Bool (Watching Bool) :=
  System.drive (reply true) 40 (runFor RuntimeHandle.reload) waiting.2

/-- The feed has more to tell under the token. -/
def later : Shared Bool (Watching Bool) :=
  { set.2 with service := { set.2.service with bus := set.2.service.bus.publish .trackersChanged } }

/-- The stream takes all there is. -/
def told : S Unit × Shared Bool (Watching Bool) :=
  System.drive (reply false) 12 waiting.1 later

/-- How far the thread about to take an event has come. -/
def waitingFor : S Unit → Option ℕ
  | .call (.recv next) _ => some next
  | _ => none

theorem waitingFor_some {p : S Unit} {next : ℕ} (h : waitingFor p = some next) :
    ∃ k : Received × ℕ → S Unit, p = .call (.recv next) k := by
  cases p with
  | ret a => cases h
  | call c k =>
    cases c with
    | recv next' =>
      obtain rfl := Option.some.inj h
      exact ⟨k, rfl⟩
    | _ => cases h

theorem waiting_reached : ∃ s : Lib.Config Bool ServiceCall ServiceCall.Ans
      (Shared Bool (Watching Bool)), (services Bool watchFeed).Reach ⟨service, none, .fresh⟩ s ∧
    s.threads false = some waiting.1 ∧ s.world = waiting.2 ∧ s.threads true = none := by
  have hstart : (services Bool watchFeed).Reach ⟨service, none, .fresh⟩ ⟨_, fun _ => none⟩ := .refl
  obtain ⟨s, hs, hthread, hworld, hothers⟩ := System.reach_next hstart (i := false) rfl
    (.stream request none 9)
    (fun c w a h => ⟨w, .refl, Shared.reply_answers (e := RotatedToken.env) h⟩) 6
  exact ⟨s, hs, hthread, hworld, hothers true (by decide)⟩

theorem told_reached : ∃ s : Lib.Config Bool ServiceCall ServiceCall.Ans
      (Shared Bool (Watching Bool)), (services Bool watchFeed).Reach ⟨service, none, .fresh⟩ s ∧
    s.threads false = some told.1 ∧ s.world = told.2 := by
  obtain ⟨s₁, hs₁, hthread₁, hworld₁, hfree⟩ := waiting_reached
  obtain ⟨s₂, hs₂, -, hworld₂, hothers₂⟩ := System.reach_next hs₁ (i := true) hfree .reload
    (fun c w a h => ⟨w, .refl, Shared.reply_answers (e := RotatedToken.env) h⟩) 40
  have hmoved := hs₂.tail (.move (w := { s₂.world with service := { s₂.world.service with
    bus := s₂.world.service.bus.publish .trackersChanged } })
    (.inr (.inr ⟨.trackersChanged, by decide, rfl⟩)))
  obtain ⟨s₃, hs₃, hthread₃, hworld₃, -⟩ := System.reach_drive (i := false)
    (fun c w a h => ⟨w, .refl, Shared.reply_answers (e := RotatedToken.env) h⟩) 12 hmoved
    ((hothers₂ false (by decide)).trans hthread₁)
  rw [hworld₁] at hworld₂
  rw [hworld₂] at hthread₃ hworld₃
  exact ⟨s₃, hs₃, hthread₃, hworld₃⟩

end TokenSet

/-- A stream that waits while no token is set has been told of none. -/
theorem waiting_ends_as_told : ∃ (s : Lib.Config Bool ServiceCall ServiceCall.Ans
      (Shared Bool (Watching Bool))) (next : ℕ) (k : Received × ℕ → S Unit) (r : StreamRecord),
    s.threads false = some (.call (.recv next) k) ∧ s.world.notes.streams false = some r ∧
      r.EndsAsTold next s.world.notes.announced := by
  obtain ⟨s, hs, hthread, hworld, -⟩ := TokenSet.waiting_reached
  have hwaiting : TokenSet.waitingFor TokenSet.waiting.1 = some 0 := by decide +kernel
  obtain ⟨k, hcall⟩ := TokenSet.waitingFor_some hwaiting
  rw [hcall] at hthread
  obtain ⟨r, hr, hends⟩ := ends_as_told_iff hs hthread
  have hnone : s.world.notes.announced = [] := by
    rw [hworld]
    decide +kernel
  refine ⟨s, 0, k, r, hthread, hr, hends.2 fun pos change hmem => ?_⟩
  rw [hnone] at hmem
  cases hmem

/-- Opened before there was a token, a stream is sent what happens under it, and goes on. -/
theorem told_and_sent_on : ∃ (s : Lib.Config Bool ServiceCall ServiceCall.Ans
      (Shared Bool (Watching Bool))) (next : ℕ) (k : Received × ℕ → S Unit) (r : StreamRecord),
    (services Bool watchFeed).Reach ⟨TokenSet.service, none, .fresh⟩ s ∧
      s.threads false = some (.call (.recv next) k) ∧ s.world.notes.streams false = some r ∧
      r.stream.bearerAuthenticated = false ∧ r.finished = false ∧
      r.delivered.map (·.name) = ["hello", "activity", "settings", "session", "trackers"] ∧
      ¬r.EndsAsTold next s.world.notes.announced := by
  obtain ⟨s, hs, hthread, hworld⟩ := TokenSet.told_reached
  have hwaiting : TokenSet.waitingFor TokenSet.told.1 = some 4 := by decide +kernel
  obtain ⟨k, hcall⟩ := TokenSet.waitingFor_some hwaiting
  rw [hcall] at hthread
  have hannounced : s.world.notes.announced = [(2, 1)] := by
    rw [hworld]
    decide +kernel
  have hsome : (TokenSet.told.2.notes.streams false).isSome = true := by decide +kernel
  obtain ⟨r, hr⟩ := Option.isSome_iff_exists.1 hsome
  have hkept : (TokenSet.told.2.notes.streams false).map (fun r =>
      (r.stream.bearerAuthenticated, r.finished, r.since, r.delivered.map (·.name))) =
        some (false, false, 0, ["hello", "activity", "settings", "session", "trackers"]) := by
    decide +kernel
  rw [hr] at hkept
  simp only [Option.map_some, Option.some.injEq, Prod.mk.injEq] at hkept
  obtain ⟨hbearer, hfinished, hsince, hdelivered⟩ := hkept
  refine ⟨s, 4, k, r, hs, hthread, by rw [hworld]; exact hr, hbearer, hfinished, hdelivered,
    fun hends => ?_⟩
  obtain ⟨hover, -⟩ := hends 2 1 (by rw [hannounced]; exact List.mem_singleton_self _)
    (by rw [hsince]; exact Nat.one_pos) (by decide)
  rw [hfinished] at hover
  cases hover

end SeedMedic
