/-
  The qBittorrent adapter against a server: each call of the port takes effect at one moment, as
  the workflow counts on, whatever else happens to the server meanwhile.
-/
import SeedMedic.Repair.Client
import SeedMedic.Repair.JobSearch
import SeedMedic.Seeding.Session

namespace SeedMedic

open Lib Prog

namespace QBittorrent

/-! ## The server -/

/-- Which names the server knows: those before version 5 or those since. -/
inductive Era where
  | legacy
  | modern
  deriving DecidableEq

/-- The field that says that a torrent is to be added paused. -/
def Era.pausedField : Era → String
  | .legacy => "paused"
  | .modern => "stopped"

def Era.resumePath : Era → String
  | .legacy => "api/v2/torrents/resume"
  | .modern => "api/v2/torrents/start"

/-- What does not change about a server. -/
structure Host where
  era : Era
  /-- The path a request is for. -/
  route : Url → String
  /-- The info-hash of a torrent, which the server reads from its bytes. -/
  hashOf : List UInt8 → Option InfoHash

/-- What a server holds. -/
structure Server where
  torrents : Torrents
  /-- The torrents whose files were deleted on request. -/
  erased : Set InfoHash

/-- Whether a field names a torrent: it may name several, or all of them. -/
def Names (text : String) (h : InfoHash) : Prop :=
  text = "all" ∨ h.toHex.toList ∈ (asciiLower text).toList.splitOn '|'

/-- The state names of a torrent that is being checked. -/
def CHECKING : List String :=
  ["checkingUP", "checkingDL", "checkingResumeData", "queuedForChecking"]

/-- Whether an entry is true of a torrent. -/
structure TorrentInfoEntry.Shows (entry : TorrentInfoEntry) (t : HeldTorrent) : Prop where
  checking : t.running = true → entry.state ∈ CHECKING
  progress : t.running = false → DataCompleteness.fromRatio entry.progress = t.completeness

/-- Whether entries are true of the torrents that are asked for. -/
def Lists (entries : List TorrentInfoEntry) (asked : InfoHash → Prop) (ts : Torrents) : Prop :=
  ∀ h, asked h →
    (∀ entry ∈ entries, asciiLower entry.hash = h.toHex → ∃ t, ts h = some t ∧ entry.Shows t) ∧
    ((ts h).isSome → ∃ entry ∈ entries, asciiLower entry.hash = h.toHex)

/-- The torrents that a listing is asked for. -/
def Asked (query : List (String × String)) (h : InfoHash) : Prop :=
  ∀ text, ("hashes", text) ∈ query → Names text h

namespace Server

/-- Torrents that are named are treated alike, and the others are left alone. -/
def Each (text : String) (f : Option HeldTorrent → Option HeldTorrent) (ts ts' : Torrents) : Prop :=
  ∀ h, (Names text h → ts' h = f (ts h)) ∧ (¬Names text h → ts' h = ts h)

/-- What a server does on a request that it accepts. -/
inductive Acts (host : Host) (s : Server) (request : Request) : Server → Prop
  | nothing (passive : host.route request.url ∈ ["api/v2/auth/login", "api/v2/torrents/info",
      "api/v2/torrents/files", "api/v2/torrents/recheck"]) : Acts host s request s
  | adds {parts : List Part} {name fileName mime : String} {bytes : List UInt8} {h : InfoHash}
      {completeness : DataCompleteness} (route : host.route request.url = "api/v2/torrents/add")
      (body : request.body = .multipart parts) (file : .file name fileName mime bytes ∈ parts)
      (hash : host.hashOf bytes = some h) (absent : s.torrents h = none) :
      Acts host s request { s with
        torrents := Function.update s.torrents h (some (.fresh completeness
          (decide (Part.text host.era.pausedField "true" ∈ parts)))) }
  | holds {parts : List Part} (route : host.route request.url = "api/v2/torrents/add")
      (body : request.body = .multipart parts)
      (present : ∀ name fileName mime bytes h, .file name fileName mime bytes ∈ parts →
        host.hashOf bytes = some h → (s.torrents h).isSome) : Acts host s request s
  | deletes {fields : List (String × String)} {text flag : String} {ts : Torrents}
      {erased : Set InfoHash} (route : host.route request.url = "api/v2/torrents/delete")
      (body : request.body = .form fields) (hashes : ("hashes", text) ∈ fields)
      (delete : ("deleteFiles", flag) ∈ fields) (each : Each text (fun _ => none) s.torrents ts)
      (files : erased = if flag = "true" then s.erased ∪ {h | Names text h} else s.erased) :
      Acts host s request ⟨ts, erased⟩
  | resumes {fields : List (String × String)} {text : String} {ts : Torrents}
      (route : host.route request.url = host.era.resumePath) (body : request.body = .form fields)
      (hashes : ("hashes", text) ∈ fields)
      (each : Each text (Option.map HeldTorrent.unpause) s.torrents ts) :
      Acts host s request { s with torrents := ts }

/-- How a server may answer: it refuses a request, or accepts it; an answer may be lost. -/
inductive Handles (host : Host) (s : Server) (request : Request) :
    Except String Response → Server → Prop
  | unreached (source : String) : Handles host s request (.error source) s
  | refused {response : Response} (status : response.isSuccess = false) :
      Handles host s request (.ok response) s
  | lost {s' : Server} (source : String) (acts : s.Acts host request s') :
      Handles host s request (.error source) s'
  | accepted {response : Response} {s' : Server} (status : response.isSuccess = true)
      (acts : s.Acts host request s')
      (listing : host.route request.url = "api/v2/torrents/info" → ∀ entries,
        response.torrents = .ok entries → Lists entries (Asked request.query) s.torrents) :
      Handles host s request (.ok response) s'

/-- What becomes of a server without the adapter. -/
inductive Moves : Server → Server → Prop
  | torrent {s : Server} {event : ℕ} {h : InfoHash} {t' : Option HeldTorrent}
      (changes : Torrents.Changes event (s.torrents h) t') :
      Moves s { s with torrents := Function.update s.torrents h t' }
  | erases (s : Server) (h : InfoHash) : Moves s { s with erased := insert h s.erased }

abbrev Drifts : Server → Server → Prop := Relation.ReflTransGen Moves

end Server

/-- The rules of a server that goes its own way between the calls. -/
def hosting (host : Host) : Rules Call Ans Server where
  may _ _ := True
  next c r s s' := ∃ s₁, s.Drifts s₁ ∧ match c, r with
    | .send request, answer => s₁.Handles host request answer s'
    | _, _ => s' = s₁

/-! ## What a call of the port comes to -/

/-- What a call that succeeded has done. -/
def Done : (c : ClientCall) → c.Ans → Torrents → Prop
  | .addPaused request, .ok (), ts => (ts request.infoHash).isSome
  | .resume h, .ok (), ts => ∀ t, ts h = some t → t.quiet = false
  | .remove h _, .ok (), ts => ts h = none
  | _, _, _ => True

/-- A call of the port that takes effect at one moment. -/
def TakesEffect (c : ClientCall) (r : c.Ans) (s s' : Server) : Prop :=
  ∃ s₁ s₂ : Server, s.Drifts s₁ ∧ s₁.torrents.Serves c r s₂.torrents ∧ s₂.erased = s₁.erased ∧
    Done c r s₂.torrents ∧ s₂.Drifts s'

/-! ## The text of a hash -/

theorem hexDigit_lower (n : ℕ) : (hexDigit n).toLower = hexDigit n := by
  have hlt : n % 16 < 16 := Nat.mod_lt _ (by decide)
  rw [hexDigit]
  interval_cases n % 16 <;> rfl

theorem mem_toHex {h : InfoHash} {c : Char} (hc : c ∈ h.toHex.toList) : ∃ n, c = hexDigit n := by
  simp only [InfoHash.toHex, String.toList_ofList, List.mem_flatMap, List.mem_cons,
    List.not_mem_nil, or_false] at hc
  obtain ⟨b, -, rfl | rfl⟩ := hc
  · exact ⟨_, rfl⟩
  · exact ⟨_, rfl⟩

theorem asciiLower_toHex (h : InfoHash) : asciiLower h.toHex = h.toHex := by
  have hsame : h.toHex.toList.map Char.toLower = h.toHex.toList.map id := by
    refine List.map_congr_left fun c hc => ?_
    obtain ⟨n, rfl⟩ := mem_toHex hc
    exact hexDigit_lower n
  rw [asciiLower, hsame, List.map_id, String.ofList_toList]

/-- The text of a hash names that torrent alone. -/
theorem names_toHex {h k : InfoHash} : Names h.toHex k ↔ k = h := by
  have hdigit : ∀ {c : Char}, (∀ n < 16, hexDigit n ≠ c) → c ∉ h.toHex.toList := by
    intro c hne hc
    obtain ⟨n, rfl⟩ := mem_toHex hc
    exact hne (n % 16) (Nat.mod_lt _ (by decide)) (by rw [hexDigit, hexDigit, Nat.mod_mod])
  have hsplit : (asciiLower h.toHex).toList.splitOn '|' = [h.toHex.toList] := by
    rw [asciiLower_toHex]
    refine List.splitOnP_eq_singleton fun c hc => ?_
    refine beq_eq_false_iff_ne.2 fun he => ?_
    rw [he] at hc
    exact hdigit (by decide) hc
  have hall : h.toHex ≠ "all" := fun he => hdigit (c := 'l') (by decide) (by rw [he]; decide)
  unfold Names
  rw [hsplit, List.mem_singleton, String.toList_inj, InfoHash.toHex_injective.eq_iff]
  exact or_iff_right hall

/-! ## Requests at a server -/

section
variable {host : Host} {s s' : Server} {request : Request}

/-- A request that is refused does nothing. -/
theorem Server.Handles.refusal {response : Response} (h : s.Handles host request (.ok response) s')
    (hstatus : response.isSuccess = false) : s' = s := by
  cases h with
  | refused => rfl
  | accepted hsuccess =>
    rw [hstatus] at hsuccess
    cases hsuccess

/-- A request that only reads, or asks for a check, leaves what is held as it is. -/
theorem Server.Handles.passive {answer : Except String Response}
    (h : s.Handles host request answer s') (hroute : host.route request.url ∈
      ["api/v2/auth/login", "api/v2/torrents/info", "api/v2/torrents/files",
        "api/v2/torrents/recheck"]) : s' = s := by
  have hacts : ∀ {s'}, s.Acts host request s' → s' = s := by
    intro s' ha
    cases ha with
    | nothing => rfl
    | holds => rfl
    | adds route =>
      rw [route] at hroute
      exact absurd hroute (by decide)
    | deletes route =>
      rw [route] at hroute
      exact absurd hroute (by decide)
    | resumes route =>
      rw [route] at hroute
      exact absurd hroute (by cases host.era <;> decide)
  cases h with
  | unreached => rfl
  | refused => rfl
  | lost source acts => exact hacts acts
  | accepted status acts => exact hacts acts

end

/-! ## Requests of the adapter -/

/-- What an answer is to the adapter. -/
def taken (answer : Except String Response) : Except ClientError Response :=
  answer.mapError .transport

/-- A request that gets no answer at all leads to nothing; any other is handled at one moment. -/
def Reaches (host : Host) (request : Request → Prop) (r : Except ClientError Response)
    (s s' : Server) : Prop :=
  ((∃ e, r = .error e) ∧ s.Drifts s') ∨
  ∃ (s₁ s₂ : Server) (q : Request) (answer : Except String Response), s.Drifts s₁ ∧
    request q ∧ s₁.Handles host q answer s₂ ∧ r = taken answer ∧ s₂.Drifts s'

section
variable {urls : UrlLibrary} {client : QBittorrentClient} {host : Host} {s : Server}

theorem Q.obeys_quiet {α : Type} {c : Call} {f : Ans c → Q α} {P : α → Server → Prop}
    (hc : ∀ request, c ≠ .send request)
    (hf : ∀ r s₁, s.Drifts s₁ → (f r).Obeys (hosting host) s₁ P) :
    (Q.ask c >>= f).Obeys (hosting host) s P := by
  refine ⟨trivial, fun r s₁ hn => hf r s₁ ?_⟩
  obtain ⟨s₂, hs₂, hsame⟩ := hn
  cases c with
  | send request => exact absurd rfl (hc request)
  | _ => exact (show s₁ = s₂ from hsame) ▸ hs₂

theorem Q.obeys_send {α : Type} {request : Request} {f : Except String Response → Q α}
    {P : α → Server → Prop} (hf : ∀ answer s₁ s₂, s.Drifts s₁ → s₁.Handles host request answer s₂ →
      (f answer).Obeys (hosting host) s₂ P) :
    (Q.ask (.send request) >>= f).Obeys (hosting host) s P := by
  refine ⟨trivial, fun r s₂ hn => ?_⟩
  obtain ⟨s₁, hs₁, hhandles⟩ := hn
  exact hf r s₁ s₂ hs₁ hhandles

variable (hroutes : ∀ path url, client.url urls path = .ok url → host.route url = path)
include hroutes

theorem loginLocked_drifts :
    (client.loginLocked urls).Obeys (hosting host) s fun _ s' => s.Drifts s' := by
  have hunlock : ∀ {s₁ : Server} {r : Except ClientError String}, s.Drifts s₁ →
      (Q.ask .unlock >>= fun _ => (pure r : Q (Except ClientError String))).Obeys (hosting host) s₁
        fun _ s' => s.Drifts s' :=
    fun hs₁ => Q.obeys_quiet (fun _ h => by cases h) fun _ s₂ hs₂ => hs₁.trans hs₂
  unfold QBittorrentClient.loginLocked QBittorrentClient.performLogin
  cases hurl : client.url urls "api/v2/auth/login" with
  | error e => exact hunlock .refl
  | ok url =>
    simp only [bind_assoc]
    refine Q.obeys_send fun answer s₁ s₂ hs₁ hhandles => ?_
    obtain rfl := hhandles.passive (by
      rw [show host.route (client.loginRequest url).url = _ from hroutes _ _ hurl]
      decide)
    simp only [pure_eq, ret_bind]
    cases loginResult answer with
    | error e => exact hunlock hs₁
    | ok cookie =>
      exact Q.obeys_quiet (fun _ h => by cases h) fun _ s₃ hs₃ => hunlock (hs₁.trans hs₃)

theorem cookie_drifts :
    (client.cookie urls).Obeys (hosting host) s fun _ s' => s.Drifts s' := by
  refine Q.obeys_quiet (fun _ h => by cases h) fun _ s₁ hs₁ =>
    Q.obeys_quiet (fun _ h => by cases h) fun held s₂ hs₂ => ?_
  cases held with
  | some cookie =>
    exact Q.obeys_quiet (fun _ h => by cases h) fun _ s₃ hs₃ => (hs₁.trans hs₂).trans hs₃
  | none => exact (loginLocked_drifts hroutes).mono fun _ s₃ hs₃ => (hs₁.trans hs₂).trans hs₃

theorem relogin_drifts :
    (client.relogin urls).Obeys (hosting host) s fun _ s' => s.Drifts s' :=
  Q.obeys_quiet (fun _ h => by cases h) fun _ _ hs₁ =>
    (loginLocked_drifts hroutes).mono fun _ _ hs₂ => hs₁.trans hs₂

/-- However often a request is sent, it is accepted once at most. -/
theorem sendAuthenticated_reaches {build : String → Request} :
    (client.sendAuthenticated urls build).Obeys (hosting host) s
      fun r s' => Reaches host (fun q => ∃ cookie, q = build cookie) r s s' := by
  refine (cookie_drifts hroutes).bind fun r s₁ hs₁ => ?_
  cases r with
  | error e => exact .inl ⟨⟨e, rfl⟩, hs₁⟩
  | ok cookie =>
    refine Q.obeys_send fun answer s₂ s₃ hs₂ hhandles => ?_
    cases answer with
    | error source => exact .inr ⟨s₂, s₃, _, _, hs₁.trans hs₂, ⟨cookie, rfl⟩, hhandles, rfl, .refl⟩
    | ok response =>
      simp only
      split_ifs with hstatus
      · exact .inr ⟨s₂, s₃, _, _, hs₁.trans hs₂, ⟨cookie, rfl⟩, hhandles, rfl, .refl⟩
      · -- the first one was refused
        obtain rfl := hhandles.refusal (by simp [Response.isSuccess, not_not.1 hstatus])
        refine (relogin_drifts hroutes).bind fun r s₄ hs₄ => ?_
        have hs₄ := (hs₁.trans hs₂).trans hs₄
        cases r with
        | error e => exact .inl ⟨⟨e, rfl⟩, hs₄⟩
        | ok cookie =>
          refine Q.obeys_send fun answer s₅ s₆ hs₅ hhandles => ?_
          cases answer with
          | error source =>
            exact .inr ⟨s₅, s₆, _, _, hs₄.trans hs₅, ⟨cookie, rfl⟩, hhandles, rfl, .refl⟩
          | ok response =>
            simp only
            split_ifs with hagain
            · obtain rfl := hhandles.refusal (by simp [Response.isSuccess, hagain])
              exact .inl ⟨⟨_, rfl⟩, hs₄.trans hs₅⟩
            · exact .inr ⟨s₅, s₆, _, _, hs₄.trans hs₅, ⟨cookie, rfl⟩, hhandles, rfl, .refl⟩

theorem request_reaches {path : String} {build : Url → String → Request}
    (hbuild : ∀ url cookie, (build url cookie).url = url) :
    (client.request urls path build).Obeys (hosting host) s fun r s' =>
      Reaches host (fun q => host.route q.url = path ∧ ∃ url cookie, q = build url cookie) r s
        s' := by
  unfold QBittorrentClient.request
  cases hurl : client.url urls path with
  | error e => exact .inl ⟨⟨e, rfl⟩, .refl⟩
  | ok url =>
    refine (sendAuthenticated_reaches hroutes).mono fun r s' h => ?_
    refine h.imp_right fun ⟨s₁, s₂, q, answer, hs₁, ⟨cookie, hq⟩, hrest⟩ => ?_
    refine ⟨s₁, s₂, q, answer, hs₁, ⟨?_, url, cookie, hq⟩, hrest⟩
    rw [hq, hbuild]
    exact hroutes _ _ hurl

/-! ## What each call comes to -/

theorem fileProgress_drifts {infoHash : InfoHash} :
    (client.fileProgress urls infoHash).Obeys (hosting host) s fun _ s' => s.Drifts s' := by
  refine (request_reaches hroutes fun _ _ => rfl).bind fun r s' hr => ?_
  have hs' : s.Drifts s' := by
    rcases hr with ⟨-, hs'⟩ | ⟨s₁, s₂, q, answer, hs₁, ⟨hroute, -⟩, hhandles, -, hs₂⟩
    · exact hs'
    · obtain rfl := hhandles.passive (by rw [hroute]; decide)
      exact hs₁.trans hs₂
  split
  · exact hs'
  · split
    · exact hs'
    · split <;> exact hs'

/-- An answer to a status call is true of the torrent at a moment of the call. -/
theorem status_reports {infoHash : InfoHash} :
    (client.status urls infoHash).Obeys (hosting host) s fun r s' => ∃ s₁ : Server, s.Drifts s₁ ∧
      HeldTorrent.Reported (s₁.torrents infoHash) r ∧ s₁.Drifts s' := by
  refine (request_reaches hroutes fun _ _ => rfl).bind fun r s' hr => ?_
  rcases hr with ⟨⟨e, rfl⟩, hs'⟩ | ⟨s₁, s₂, q, answer, hs₁, ⟨hroute, url, cookie, rfl⟩, hhandles,
    rfl, hs₂⟩
  · exact ⟨s', hs', trivial, .refl⟩
  obtain rfl := hhandles.passive (by rw [hroute]; decide)
  have hfailed : ∀ {e : ClientError}, ∃ s₃ : Server, s.Drifts s₃ ∧
      HeldTorrent.Reported (s₃.torrents infoHash) (.error e) ∧ s₃.Drifts s' :=
    ⟨s₂, hs₁, trivial, hs₂⟩
  cases answer with
  | error source => exact hfailed
  | ok response =>
    simp only [taken, Except.mapError]
    cases hread : QBittorrentClient.readInfo response with
    | error e => exact hfailed
    | ok entries =>
      obtain ⟨hsuccess, hentries⟩ :
          response.isSuccess = true ∧ response.torrents = .ok entries := by
        unfold QBittorrentClient.readInfo requireSuccess at hread
        cases hs : response.isSuccess with
        | false =>
          rw [hs] at hread
          cases hread
        | true =>
          rw [hs] at hread
          cases ht : response.torrents with
          | error e =>
            rw [ht] at hread
            cases hread
          | ok es =>
            rw [ht] at hread
            cases hread
            exact ⟨rfl, rfl⟩
      have hlists : Lists entries (Asked [("hashes", infoHash.toHex)]) s₂.torrents := by
        cases hhandles with
        | refused hstatus =>
          rw [hsuccess] at hstatus
          cases hstatus
        | accepted _ _ listing => exact listing hroute entries hentries
      obtain ⟨hshown, hlisted⟩ := hlists infoHash fun text htext => by
        obtain rfl : text = infoHash.toHex := by simpa using htext
        exact names_toHex.2 rfl
      simp only
      unfold findEntry
      rw [asciiLower_toHex]
      cases hfind : entries.find? fun entry => asciiLower entry.hash = infoHash.toHex with
      | none =>
        refine ⟨s₂, hs₁, ?_, hs₂⟩
        cases ht : s₂.torrents infoHash with
        | none => rfl
        | some t =>
          obtain ⟨entry, hentry, hhash⟩ := hlisted (by rw [ht]; rfl)
          exact absurd (decide_eq_true hhash) (List.find?_eq_none.1 hfind entry hentry)
      | some entry =>
        have hhash : asciiLower entry.hash = infoHash.toHex := by
          simpa using List.find?_some hfind
        obtain ⟨t, ht, hshows⟩ := hshown entry (List.mem_of_find?_eq_some hfind) hhash
        have hreported : ∀ files, HeldTorrent.Reported (s₂.torrents infoHash)
            (.ok (some (statusOf entry files))) := by
          intro files
          rw [ht]
          refine ⟨_, rfl, fun hrunning => ?_, hshows.progress⟩
          have hstate := hshows.checking hrunning
          simp only [CHECKING, List.mem_cons, List.not_mem_nil, or_false] at hstate
          show mapState entry.state = .checking
          rcases hstate with h | h | h | h <;> rw [h] <;> rfl
        simp only
        split_ifs
        · exact ⟨s₂, hs₁, hreported none, hs₂⟩
        · refine (fileProgress_drifts hroutes).bind fun r s₃ hs₃ => ?_
          cases r with
          | error e => exact ⟨s₂, hs₁, trivial, hs₂.trans hs₃⟩
          | ok files => exact ⟨s₂, hs₁, hreported _, hs₂.trans hs₃⟩

omit hroutes in
/-- A call that leaves the torrents alone. -/
theorem TakesEffect.nothing {c : ClientCall} {r : c.Ans} {s₁ s' : Server}
    (hnot : ∀ h, c ≠ .status h) (hs₁ : s.Drifts s₁) (hdone : Done c r s₁.torrents)
    (hs' : s₁.Drifts s') : TakesEffect c r s s' :=
  ⟨s₁, s₁, hs₁, .nothing hnot, rfl, hdone, hs'⟩

omit hroutes in
/-- A request is accepted, or does nothing. -/
theorem Server.Handles.acted {s₁ s₂ : Server} {request : Request}
    {answer : Except String Response} (h : s₁.Handles host request answer s₂) :
    (s₁.Acts host request s₂ ∧ ∀ response, answer = .ok response → response.isSuccess = true) ∨
      (s₂ = s₁ ∧ ∀ response, answer = .ok response → response.isSuccess = false) := by
  cases h with
  | unreached source => exact .inr ⟨rfl, fun _ h => by cases h⟩
  | refused status => exact .inr ⟨rfl, fun _ h => by cases h; exact status⟩
  | lost source acts => exact .inl ⟨acts, fun _ h => by cases h⟩
  | accepted status acts => exact .inl ⟨acts, fun _ h => by cases h; exact status⟩

omit hroutes in
theorem requireSuccess_error {response : Response} (h : response.isSuccess = false)
    (action : String) : ∃ e, requireSuccess response action = .error e := by
  unfold requireSuccess
  rw [h]
  exact ⟨_, rfl⟩

theorem addPaused_takesEffect {request : AddTorrent}
    (hfile : host.hashOf request.torrentFile = some request.infoHash) :
    (client.addPaused urls request).Obeys (hosting host) s
      fun r s' => TakesEffect (.addPaused request) r s s' := by
  have hnot : ∀ h, ClientCall.addPaused request ≠ .status h := fun _ h => by cases h
  refine (status_reports hroutes).bind fun r s' ⟨s₁, hs₁, hreported, hs'⟩ => ?_
  cases r with
  | error e => exact .nothing hnot (hs₁.trans hs') trivial .refl
  | ok found =>
    cases found with
    | some status =>
      refine .nothing hnot hs₁ ?_ hs'
      show (s₁.torrents request.infoHash).isSome
      cases ht : s₁.torrents request.infoHash with
      | none =>
        rw [ht] at hreported
        cases hreported
      | some t => rfl
    | none =>
      refine (request_reaches hroutes fun _ _ => rfl).bind fun r s'' hr => ?_
      have hs' := hs₁.trans hs'
      rcases hr with ⟨⟨e, rfl⟩, hs''⟩ | ⟨s₂, s₃, q, answer, hs₂, ⟨hroute, url, cookie, rfl⟩,
        hhandles, rfl, hs₃⟩
      · exact .nothing hnot (hs'.trans hs'') trivial .refl
      have hs₂ := hs'.trans hs₂
      -- what is said of it once it is added, or was there
      have hsaid : (∀ r : Except ClientError Unit,
          s₂.torrents.Serves (.addPaused request) r s₃.torrents) ∧ s₃.erased = s₂.erased ∧
            (s₃.torrents request.infoHash).isSome →
          ∀ r : Except ClientError Unit, TakesEffect (.addPaused request) r s s'' := by
        rintro ⟨hserves, herased, hheld⟩ r
        refine ⟨s₂, s₃, hs₂, hserves r, herased, ?_, hs₃⟩
        cases r with
        | error e => trivial
        | ok done => exact hheld
      rcases hhandles.acted with ⟨hacts, -⟩ | ⟨rfl, hrefused⟩
      · have hdone := hsaid (by
          cases hacts with
          | nothing passive =>
            rw [hroute] at passive
            exact absurd passive (by decide)
          | deletes route => exact absurd (hroute.symm.trans route) (by decide)
          | resumes route =>
            rw [hroute] at route
            exact absurd route (by cases host.era <;> decide)
          | @adds parts name fileName mime bytes h completeness route body file hash absent =>
            cases body
            have hbytes : bytes = request.torrentFile := by
              simp only [QBittorrentClient.addParts, List.mem_append, List.mem_cons,
                Part.file.injEq, reduceCtorEq, List.not_mem_nil, or_false, Option.mem_toList,
                Option.map_eq_some_iff, and_false, exists_false] at file
              exact file.2.2.2
            rw [hbytes, hfile] at hash
            cases hash
            have hpaused :
                Part.text host.era.pausedField "true" ∈ QBittorrentClient.addParts request := by
              cases host.era <;> simp [QBittorrentClient.addParts, Era.pausedField]
            rw [decide_eq_true hpaused]
            refine ⟨fun _ => .adds absent, rfl, ?_⟩
            show (Function.update s₂.torrents request.infoHash _ request.infoHash).isSome
            rw [Function.update_self]
            rfl
          | holds route body present =>
            cases body
            exact ⟨fun _ => .nothing hnot, rfl, present "torrents" "upload.torrent"
              "application/x-bittorrent" _ _ (List.mem_append_left _ (.head _)) hfile⟩)
        cases answer with
        | error source => exact hdone _
        | ok response =>
          simp only [taken, Except.mapError]
          split_ifs <;> exact hdone _
      · cases answer with
        | error source => exact .nothing hnot hs₂ trivial hs₃
        | ok response =>
          simp only [taken, Except.mapError, hrefused response rfl, Bool.false_eq_true, if_false]
          exact .nothing hnot hs₂ trivial hs₃

theorem recheck_takesEffect {infoHash : InfoHash} :
    (client.recheck urls infoHash).Obeys (hosting host) s
      fun r s' => TakesEffect (.recheck infoHash) r s s' := by
  refine (request_reaches hroutes fun _ _ => rfl).bind fun r s' hr => ?_
  have hs' : s.Drifts s' := by
    rcases hr with ⟨-, hs'⟩ | ⟨s₁, s₂, q, answer, hs₁, ⟨hroute, -⟩, hhandles, -, hs₂⟩
    · exact hs'
    · obtain rfl := hhandles.passive (by rw [hroute]; decide)
      exact hs₁.trans hs₂
  split <;> exact .nothing (fun _ h => by cases h) hs' trivial .refl

omit hroutes in
/-- What a request to resume does, where it is accepted. -/
theorem acts_resume {s₁ s₂ : Server} {infoHash : InfoHash} {url : Url} {cookie : String}
    (hroute : host.route url ∈ ["api/v2/torrents/resume", "api/v2/torrents/start"])
    (h : s₁.Acts host
      (QBittorrentClient.hashesRequest [("hashes", infoHash.toHex)] url cookie) s₂) :
    s₂ = ⟨Function.update s₁.torrents infoHash ((s₁.torrents infoHash).map HeldTorrent.unpause),
      s₁.erased⟩ := by
  change host.route
    (QBittorrentClient.hashesRequest [("hashes", infoHash.toHex)] url cookie).url ∈ _ at hroute
  cases h with
  | nothing passive =>
    simp only [List.mem_cons, List.not_mem_nil, or_false] at hroute
    rcases hroute with hroute | hroute <;> rw [hroute] at passive <;>
      exact absurd passive (by decide)
  | adds route body => cases body
  | holds route body => cases body
  | deletes route =>
    rw [route] at hroute
    exact absurd hroute (by decide)
  | @resumes fields text ts route body hashes each =>
    cases body
    obtain rfl : text = infoHash.toHex := by simpa using hashes
    refine congrArg (Server.mk · s₁.erased) (funext fun k => ?_)
    obtain ⟨hnamed, hother⟩ := each k
    by_cases hk : k = infoHash
    · rw [hnamed (names_toHex.2 hk), hk, Function.update_self]
    · rw [hother fun h => hk (names_toHex.1 h), Function.update_of_ne hk]

/-- Whichever name the server knows, a torrent is resumed once at most. -/
theorem resume_takesEffect {infoHash : InfoHash} :
    (client.resume urls infoHash).Obeys (hosting host) s
      fun r s' => TakesEffect (.resume infoHash) r s s' := by
  have hnot : ∀ h, ClientCall.resume infoHash ≠ .status h := fun _ h => by cases h
  -- a request to resume that is accepted, whatever is made of its answer
  have hresumed : ∀ {s₁ s₂ s' : Server} {url : Url} {cookie : String},
      host.route url ∈ ["api/v2/torrents/resume", "api/v2/torrents/start"] → s.Drifts s₁ →
        s₁.Acts host (QBittorrentClient.hashesRequest [("hashes", infoHash.toHex)] url cookie) s₂ →
          s₂.Drifts s' → ∀ r : Except ClientError Unit, TakesEffect (.resume infoHash) r s s' := by
    intro s₁ s₂ s' url cookie hroute hs₁ hacts hs' r
    have hs₂ := acts_resume hroute hacts
    refine ⟨s₁, s₂, hs₁, by rw [hs₂]; exact .resumes, by rw [hs₂], ?_, hs'⟩
    cases r with
    | error e => trivial
    | ok done =>
      intro t ht
      simp only [hs₂, Function.update_self] at ht
      obtain ⟨t, -, rfl⟩ := Option.map_eq_some_iff.1 ht
      rfl
  have hfailed : ∀ {s' : Server} {e : ClientError}, s.Drifts s' →
      TakesEffect (.resume infoHash) (.error e) s s' :=
    fun hs' => .nothing hnot hs' trivial .refl
  refine (request_reaches hroutes fun _ _ => rfl).bind fun r s' hr => ?_
  rcases hr with ⟨⟨e, rfl⟩, hs'⟩ | ⟨s₁, s₂, q, answer, hs₁, ⟨hroute, url, cookie, rfl⟩, hhandles,
    rfl, hs₂⟩
  · exact hfailed hs'
  have hroute : host.route url = "api/v2/torrents/resume" := hroute
  rcases hhandles.acted with ⟨hacts, hsuccess⟩ | ⟨rfl, hrefused⟩
  · have hdone := hresumed (by rw [hroute]; decide) hs₁ hacts hs₂
    cases answer with
    | error source => exact hdone _
    | ok response =>
      have hstatus : response.status ≠ 404 := by
        intro h
        have := hsuccess response rfl
        simp [Response.isSuccess, h] at this
      simp only [taken, Except.mapError, if_pos hstatus]
      exact hdone _
  · cases answer with
    | error source => exact hfailed (hs₁.trans hs₂)
    | ok response =>
      simp only [taken, Except.mapError]
      split_ifs
      · obtain ⟨e, he⟩ := requireSuccess_error (hrefused response rfl) "resume"
        rw [he]
        exact hfailed (hs₁.trans hs₂)
      · refine (request_reaches hroutes fun _ _ => rfl).bind fun r s'' hr => ?_
        have hs' := hs₁.trans hs₂
        rcases hr with ⟨⟨e, rfl⟩, hs''⟩ | ⟨s₃, s₄, q, answer, hs₃, ⟨hroute, url, cookie, rfl⟩,
          hhandles, rfl, hs₄⟩
        · exact hfailed (hs'.trans hs'')
        have hroute : host.route url = "api/v2/torrents/start" := hroute
        rcases hhandles.acted with ⟨hacts, -⟩ | ⟨rfl, hrefused⟩
        · have hdone := hresumed (by rw [hroute]; decide) (hs'.trans hs₃) hacts hs₄
          cases answer <;> exact hdone _
        · cases answer with
          | error source => exact hfailed ((hs'.trans hs₃).trans hs₄)
          | ok response =>
            obtain ⟨e, he⟩ := requireSuccess_error (hrefused response rfl) "resume"
            simp only [taken, Except.mapError, he]
            exact hfailed ((hs'.trans hs₃).trans hs₄)

/-- A torrent is removed, and its files stay. -/
theorem remove_takesEffect {infoHash : InfoHash} {deleteFiles : Bool} :
    (client.remove urls infoHash deleteFiles).Obeys (hosting host) s
      fun r s' => TakesEffect (.remove infoHash deleteFiles) r s s' := by
  have hnot : ∀ h, ClientCall.remove infoHash deleteFiles ≠ .status h := fun _ h => by cases h
  unfold QBittorrentClient.remove
  split_ifs
  · exact .nothing hnot .refl trivial .refl
  · refine (request_reaches hroutes fun _ _ => rfl).bind fun r s' hr => ?_
    rcases hr with ⟨⟨e, rfl⟩, hs'⟩ | ⟨s₁, s₂, q, answer, hs₁, ⟨hroute, url, cookie, rfl⟩,
      hhandles, rfl, hs₂⟩
    · exact .nothing hnot hs' trivial .refl
    rcases hhandles.acted with ⟨hacts, -⟩ | ⟨rfl, hrefused⟩
    · have hremoved : s₂ = ⟨Function.update s₁.torrents infoHash none, s₁.erased⟩ := by
        cases hacts with
        | nothing passive =>
          rw [hroute] at passive
          exact absurd passive (by decide)
        | adds route body => cases body
        | holds route body => cases body
        | resumes route =>
          rw [hroute] at route
          exact absurd route (by cases host.era <;> decide)
        | @deletes fields text flag ts erased route body hashes delete each files =>
          cases body
          obtain rfl : text = infoHash.toHex := by simpa using hashes
          obtain rfl : flag = "false" := by simpa using delete
          refine congrArg₂ Server.mk (funext fun k => ?_) files
          obtain ⟨hnamed, hother⟩ := each k
          by_cases hk : k = infoHash
          · rw [hnamed (names_toHex.2 hk), hk, Function.update_self]
          · rw [hother fun h => hk (names_toHex.1 h), Function.update_of_ne hk]
      have hdone : ∀ r : Except ClientError Unit,
          TakesEffect (.remove infoHash deleteFiles) r s s' := by
        intro r
        refine ⟨s₁, s₂, hs₁, by rw [hremoved]; exact .removes, by rw [hremoved], ?_, hs₂⟩
        cases r with
        | error e => trivial
        | ok done =>
          rw [hremoved]
          exact Function.update_self ..
      cases answer <;> exact hdone _
    · cases answer with
      | error source => exact .nothing hnot (hs₁.trans hs₂) trivial .refl
      | ok response =>
        obtain ⟨e, he⟩ := requireSuccess_error (hrefused response rfl) "remove"
        simp only [taken, Except.mapError, he]
        exact .nothing hnot (hs₁.trans hs₂) trivial .refl

end

/-! ## A server of this host -/

/-- A server of version 5, to which every torrent is the same. -/
def localHost : Host where
  era := .modern
  route url := String.ofList (url.text.toList.drop 22)
  hashOf _ := some sevens

theorem route_localHost {path : String} {url : Url}
    (h : localClient.url Unit3dTracker.hostUrls path = .ok url) : localHost.route url = path := by
  cases h
  have hbase : "http://localhost:8080/".toList.length = 22 := by decide
  show String.ofList (("http://localhost:8080/" ++ path).toList.drop 22) = path
  rw [String.toList_append, List.drop_left' hbase, String.ofList_toList]

end QBittorrent

end SeedMedic
