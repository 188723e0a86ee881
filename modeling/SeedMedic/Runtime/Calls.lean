/-
  Which calls the programs of the service make.
-/
import SeedMedic.Runtime.Sharing

namespace SeedMedic

open Lib Prog

namespace RuntimeHandle

/-- A call that has nothing to do with a reload. -/
def Aside : ServiceCall → Prop
  | .lockWorker | .unlockWorker | .loadConfig | .unfinished | .build _ | .install _
  | .clearSessions => False
  | _ => True

/-- A call that has nothing to do with a stream of events. -/
def Offstream : ServiceCall → Prop
  | .respond .. | .recv _ | .deliver _ | .finish => False
  | _ => True

/-- A call that has nothing to do with either. -/
def Ordinary (c : ServiceCall) : Prop := Aside c ∧ Offstream c

theorem Ordinary.aside {c : ServiceCall} (h : Ordinary c) : Aside c := h.1

theorem Ordinary.offstream {c : ServiceCall} (h : Ordinary c) : Offstream c := h.2

/-! ## Ordinary programs -/

theorem work_ordinary {α : Type} (p : M α) : (S.work p).Only Ordinary := by
  induction p with
  | ret a => trivial
  | call c k ih => exact ⟨⟨trivial, trivial⟩, ih⟩

theorem onFile_ordinary {α : Type} (p : F α) : (S.onFile p).Only Ordinary := by
  induction p with
  | ret a => trivial
  | call c k ih => exact ⟨⟨trivial, trivial⟩, ih⟩

theorem ask_ordinary {c : ServiceCall} (h : Ordinary c) : (S.ask c).Only Ordinary := ⟨h, fun _ => trivial⟩

theorem signIn_ordinary (token : String) : (signIn token).Only Ordinary := by
  refine (ask_ordinary (c := .current) ⟨trivial, trivial⟩).bind fun runtime => ?_
  split
  · trivial
  · split_ifs
    · exact (ask_ordinary (c := .createSession) ⟨trivial, trivial⟩).bind fun _ => trivial
    · trivial

theorem logout_ordinary (session : Option String) : (logout session).Only Ordinary := by
  cases session with
  | none => trivial
  | some id => exact ask_ordinary (c := .destroySession id) ⟨trivial, trivial⟩

/-- What is asked of a request takes the generation and the sessions. -/
theorem requireAuthToken_only {P : ServiceCall → Prop} (hcurrent : P .current)
    (hsession : ∀ id, P (.hasSession id)) (request : WebRequest) :
    (requireAuthToken request).Only P := by
  unfold requireAuthToken
  by_cases hopen : request.path = "/health" ∨ request.path = "/login"
  · rw [if_pos hopen]
    trivial
  rw [if_neg hopen]
  refine Prog.Only.bind ⟨hcurrent, fun _ => trivial⟩ fun runtime => ?_
  split
  · trivial
  split
  · trivial
  split
  · trivial
  · rename_i id _
    refine ⟨hsession id, fun live => ?_⟩
    show Prog.Only P (if _ then _ else _)
    split_ifs <;> trivial

theorem requireAuthToken_ordinary (request : WebRequest) : (requireAuthToken request).Only Ordinary :=
  requireAuthToken_only ⟨trivial, trivial⟩ (fun _ => ⟨trivial, trivial⟩) request

theorem signBackIn_ordinary (applied : Runtime.Applied) : (signBackIn applied).Only Ordinary := by
  unfold signBackIn
  split_ifs
  · refine (ask_ordinary (c := .current) ⟨trivial, trivial⟩).bind fun current => ?_
    split_ifs
    · exact (ask_ordinary (c := .createSession) ⟨trivial, trivial⟩).bind fun _ => trivial
    · trivial
  · trivial

theorem publish_ordinary (kind : BusKind) : (S.publish kind).Only Ordinary :=
  (ask_ordinary (c := .nextSeq) ⟨trivial, trivial⟩).bind fun seq => ask_ordinary (c := .send ⟨seq, kind⟩) ⟨trivial, trivial⟩

theorem takeDown_ordinary : takeDown.Only Ordinary := by
  refine (ask_ordinary (c := .takeWorker) ⟨trivial, trivial⟩).bind fun running => ?_
  cases running with
  | false => trivial
  | true => exact ask_ordinary (c := .stopWorker) ⟨trivial, trivial⟩

theorem announce_ordinary (done : Runtime.Applied) : (announce done).Only Ordinary := by
  refine (publish_ordinary _).bind fun _ => ?_
  split_ifs
  · exact publish_ordinary _
  · trivial

/-- A guarded program makes the calls of the guard and its own. -/
theorem guarded_only {α : Type} {P : ServiceCall → Prop} {request : WebRequest} {p : S α}
    (hP : ∀ c, Ordinary c → P c) (h : p.Only P) : (guarded request p).Only P := by
  refine ((requireAuthToken_ordinary request).mono hP).bind fun verdict => ?_
  cases verdict with
  | next => exact h.bind fun _ => trivial
  | _ => trivial

/-! ## Streams -/

theorem ask_aside {c : ServiceCall} (h : Aside c) : (S.ask c).Only Aside := ⟨h, fun _ => trivial⟩

theorem stream_aside (request : WebRequest) (resumedFrom : Option ℕ) :
    (EventStream.stream request resumedFrom).Only Aside := by
  refine (ask_aside (c := .subscribe) trivial).bind fun next => ?_
  refine (ask_aside (c := .seq) trivial).bind fun seq => ?_
  refine (ask_aside (c := .current) trivial).bind fun runtime => ?_
  dsimp only
  split_ifs
  · trivial
  · refine (ask_aside (c := .generation) trivial).bind fun generation => ?_
    exact (ask_aside (c := .respond _ _) trivial).bind fun _ => trivial

theorem admitted_aside (s : EventStream) : s.admitted.Only Aside := by
  unfold EventStream.admitted
  split_ifs
  · cases s.session with
    | none => trivial
    | some id => exact ask_aside (c := .hasSession id) trivial
  · trivial

theorem send_aside (s : EventStream) (received : Received) : (s.send received).Only Aside := by
  cases received with
  | event e =>
    refine (ask_aside (c := .generation) trivial).bind fun generation => ?_
    exact ask_aside (c := .deliver _) trivial
  | lagged missed => exact ask_aside (c := .deliver _) trivial
  | pending => trivial
  | closed => trivial

theorem pass_aside (s : EventStream) (taken : Received × ℕ) : (s.pass taken).Only Aside := by
  obtain ⟨received, next⟩ := taken
  cases received with
  | closed => exact (ask_aside (c := .finish) trivial).bind fun _ => trivial
  | pending => trivial
  | _ =>
    refine (admitted_aside s).bind fun live => ?_
    cases live with
    | false => trivial
    | true => exact (send_aside s _).bind fun _ => trivial

theorem follow_aside (n : ℕ) : ∀ s : EventStream, (EventStream.follow n s).Only Aside := by
  induction n with
  | zero => exact fun s => trivial
  | succ n ih =>
    refine fun s => ⟨trivial, fun taken => (pass_aside s taken).bind fun next => ?_⟩
    cases next with
    | none => trivial
    | some s => exact ih s

theorem serve_aside (request : WebRequest) (resumedFrom : Option ℕ) (n : ℕ) :
    (EventStream.serve request resumedFrom n).Only Aside := by
  refine (guarded_only (fun _ => Ordinary.aside) (stream_aside request resumedFrom)).bind fun opened => ?_
  cases opened with
  | error verdict => trivial
  | ok opened =>
    cases opened with
    | none => trivial
    | some s => exact follow_aside n s

/-! ## Reloads -/

theorem ask_offstream {c : ServiceCall} (h : Offstream c) : (S.ask c).Only Offstream :=
  ⟨h, fun _ => trivial⟩

theorem Ordinary.only_offstream {α : Type} {p : S α} (h : p.Only Ordinary) : p.Only Offstream :=
  h.mono fun _ => Ordinary.offstream

theorem checkRefusals_offstream (old new : Config) (jobs : List RepairJob) :
    (checkRefusals old new jobs).Only Offstream := by
  unfold checkRefusals
  cases rootRefusal old new jobs with
  | some message => trivial
  | none =>
    cases trackerRefusal old new jobs with
    | some message => trivial
    | none =>
      cases libraryRefusal old new jobs with
      | some message => trivial
      | none =>
        dsimp only
        split_ifs
        · refine ⟨trivial, fun leased => ?_⟩
          cases leased with
          | error e => trivial
          | ok leased => cases leased <;> trivial
        · trivial

theorem replaceRuntime_offstream {old runtime : Runtime} {newConfig : Config}
    {workerConfig : WorkerConfig} :
    (replaceRuntime old runtime newConfig workerConfig).Only Offstream := by
  refine (Ordinary.only_offstream takeDown_ordinary).bind fun _ => ?_
  refine (Ordinary.only_offstream (work_ordinary _)).bind fun _ => ?_
  refine ⟨trivial, fun _ => ⟨trivial, fun _ => ?_⟩⟩
  have hended : ∀ changed, (endSessions changed).Only Offstream := by
    rintro (_ | _)
    · trivial
    · exact ask_offstream (c := .clearSessions) trivial
  refine (hended _).bind fun _ => ⟨trivial, fun _ => ?_⟩
  exact (Ordinary.only_offstream (announce_ordinary _)).bind fun _ => trivial

theorem reload_offstream : reload.Only Offstream := by
  refine ⟨trivial, fun _ => ?_⟩
  have hlocked : reloadLocked.Only Offstream := by
    refine ⟨trivial, fun loaded => ?_⟩
    cases loaded with
    | error e => trivial
    | ok new =>
    refine ⟨trivial, fun old => ⟨trivial, fun listed => ?_⟩⟩
    cases listed with
    | error e => trivial
    | ok jobs =>
    refine (checkRefusals_offstream _ _ _).bind fun checked => ?_
    cases checked with
    | error e => trivial
    | ok _ =>
    refine ⟨trivial, fun built => ?_⟩
    cases built with
    | error e => trivial
    | ok built => exact replaceRuntime_offstream.bind fun _ => trivial
  exact hlocked.bind fun _ => ⟨trivial, fun _ => trivial⟩

theorem saveAndReload_offstream (syn : TomlSyntax) (doc : ConfigDocument) :
    (saveAndReload syn doc).Only Offstream := by
  refine (Ordinary.only_offstream (onFile_ordinary _)).bind fun saved => ?_
  cases saved with
  | error e => trivial
  | ok _ =>
    refine reload_offstream.bind fun r => ?_
    cases r with
    | error e => trivial
    | ok applied =>
      exact (Ordinary.only_offstream (signBackIn_ordinary applied)).bind fun _ => trivial

/-- Everything but a stream keeps off the calls of one. -/
theorem offstream_of_serving {p : S Unit} (h : Serving p) :
    p.Only Offstream ∨ ∃ request resumedFrom n, p = EventStream.serve request resumedFrom n := by
  have hfor : ∀ {α : Type} {p : S α}, p.Only Offstream → (runFor p).Only Offstream :=
    fun h => h.bind fun _ => trivial
  have hordinary : ∀ {α : Type} {p : S α}, p.Only Ordinary → p.Only Offstream :=
    Ordinary.only_offstream
  cases h with
  | login token => exact .inl (hfor (hordinary ((signIn_ordinary token).bind fun _ => trivial)))
  | createSession token =>
    exact .inl (hfor (hordinary ((signIn_ordinary token).bind fun _ => trivial)))
  | logout request =>
    exact .inl (hfor (guarded_only (fun _ => Ordinary.offstream) (hordinary (logout_ordinary _))))
  | destroySession session => exact .inl (hordinary (logout_ordinary session))
  | save request syn doc =>
    exact .inl (hfor (guarded_only (fun _ => Ordinary.offstream) (saveAndReload_offstream syn doc)))
  | reload => exact .inl (hfor reload_offstream)
  | stream request resumedFrom n => exact .inr ⟨request, resumedFrom, n, rfl⟩
  | act request p =>
    exact .inl (hfor (guarded_only (fun _ => Ordinary.offstream) (hordinary (work_ordinary p))))
  | work p => exact .inl (hordinary (work_ordinary p))
  | stopForGood =>
    refine .inl ⟨trivial, fun _ => ⟨trivial, fun running => ?_⟩⟩
    cases running with
    | false => exact ⟨trivial, fun _ => trivial⟩
    | true => exact ⟨trivial, fun _ => ⟨trivial, fun _ => trivial⟩⟩
  | dropGuard => exact .inl ⟨trivial, fun _ => ⟨trivial, fun _ => trivial⟩⟩

end RuntimeHandle

end SeedMedic
