/-
  The download client as the workflow meets it: it starts a check some time after it
  accepted the request, and says so only from then on.
-/
import SeedMedic.Repair.Effects

namespace SeedMedic

/-- A torrent as the client holds it; points in time are counts of events. -/
structure HeldTorrent where
  completeness : DataCompleteness
  /-- The start of the check that found the completeness, if a check did. -/
  foundBy : Option ℕ
  /-- The start of the last check since the torrent was added. -/
  started : Option ℕ
  /-- That check has not ended. -/
  running : Bool
  /-- The torrent has been paused ever since that check started. -/
  quiet : Bool

namespace HeldTorrent

/-- A torrent that was just added. -/
def fresh (completeness : DataCompleteness) (paused : Bool) : HeldTorrent :=
  ⟨completeness, none, none, false, paused⟩

/-- A check starts. -/
def start (t : HeldTorrent) (event : ℕ) (paused : Bool) : HeldTorrent :=
  { t with started := some event, running := true, quiet := paused }

/-- The check ends, and its result replaces what was on record. -/
def finish (t : HeldTorrent) (completeness : DataCompleteness) : HeldTorrent :=
  { t with completeness, foundBy := t.started, running := false }

/-- Somebody resumes the torrent. -/
def unpause (t : HeldTorrent) : HeldTorrent := { t with quiet := false }

/-- The torrent downloads or loses data while it runs. -/
def transfer (t : HeldTorrent) (completeness : DataCompleteness) : HeldTorrent :=
  { t with completeness, foundBy := none }

/-- What is on record was found by the last check, unless it still runs or the torrent was
    not left alone since. -/
def Settled (t : HeldTorrent) : Prop := t.running = false → t.quiet = true → t.foundBy = t.started

/-- Whether an answer to a status call is true of a torrent: one that is being checked is
    reported so, of any other the completeness on record is reported. -/
def Reported : Option HeldTorrent → Except ClientError (Option TorrentStatus) → Prop
  | _, .error _ => True
  | none, .ok r => r = none
  | some t, .ok r => ∃ status, r = some status ∧ (t.running = true → status.state = .checking) ∧
    (t.running = false → status.completeness = t.completeness)

theorem settled_fresh (completeness : DataCompleteness) (paused : Bool) :
    (fresh completeness paused).Settled := fun _ _ => rfl

theorem settled_start (t : HeldTorrent) (event : ℕ) (paused : Bool) :
    (t.start event paused).Settled := fun h => by cases h

theorem settled_finish (t : HeldTorrent) (completeness : DataCompleteness) :
    (t.finish completeness).Settled := fun _ _ => rfl

theorem settled_unpause (t : HeldTorrent) : t.unpause.Settled := fun _ h => by cases h

end HeldTorrent

/-- The torrents a client holds. -/
abbrev Torrents := InfoHash → Option HeldTorrent

namespace Torrents

open HeldTorrent

/-- What a client may do when it is asked something. -/
inductive Serves (ts : Torrents) : (c : ClientCall) → c.Ans → Torrents → Prop
  | nothing {c : ClientCall} {r : c.Ans} (notStatus : ∀ h, c ≠ .status h) : Serves ts c r ts
  | reports {h : InfoHash} {r : ClientCall.Ans (.status h)} (truthful : Reported (ts h) r) :
    Serves ts (.status h) r ts
  | adds {request : AddTorrent} {r : ClientCall.Ans (.addPaused request)}
      {completeness : DataCompleteness} (absent : ts request.infoHash = none) :
    Serves ts (.addPaused request) r
      (Function.update ts request.infoHash (some (fresh completeness true)))
  | removes {h : InfoHash} {deleteFiles : Bool} {r : ClientCall.Ans (.remove h deleteFiles)} :
    Serves ts (.remove h deleteFiles) r (Function.update ts h none)
  | resumes {h : InfoHash} {r : ClientCall.Ans (.resume h)} :
    Serves ts (.resume h) r (Function.update ts h ((ts h).map unpause))

/-- What becomes of a torrent without being asked for by a job. -/
inductive Changes (event : ℕ) : Option HeldTorrent → Option HeldTorrent → Prop
  | added (completeness : DataCompleteness) (paused : Bool) :
    Changes event none (some (fresh completeness paused))
  | removed (t : HeldTorrent) : Changes event (some t) none
  | starts (t : HeldTorrent) (paused : Bool) (idle : t.running = false) :
    Changes event (some t) (some (t.start event paused))
  | finishes (t : HeldTorrent) (completeness : DataCompleteness) (running : t.running = true) :
    Changes event (some t) (some (t.finish completeness))
  | unpauses (t : HeldTorrent) : Changes event (some t) (some t.unpause)
  | transfers (t : HeldTorrent) (completeness : DataCompleteness) (noisy : t.quiet = false) :
    Changes event (some t) (some (t.transfer completeness))

/-- Every torrent's record is what its last check found, where nothing else can have changed it. -/
def Settled (ts : Torrents) : Prop := ∀ h t, ts h = some t → t.Settled

variable {ts ts' : Torrents}

theorem Settled.update (hs : ts.Settled) {h : InfoHash} {t' : Option HeldTorrent}
    (ht : ∀ t, t' = some t → t.Settled) :
    Settled (Function.update ts h t') := by
  intro k t hk
  by_cases hkh : k = h
  · subst hkh
    rw [Function.update_self] at hk
    exact ht t hk
  · rw [Function.update_of_ne hkh] at hk
    exact hs k t hk

theorem Settled.serves (hs : ts.Settled) {c : ClientCall} {r : c.Ans} (h : ts.Serves c r ts') :
    ts'.Settled := by
  cases h with
  | nothing => exact hs
  | reports => exact hs
  | adds absent =>
    refine hs.update fun t ht => ?_
    cases ht
    exact settled_fresh _ _
  | removes => exact hs.update fun t ht => by cases ht
  | resumes =>
    refine hs.update fun t ht => ?_
    obtain ⟨t, -, rfl⟩ := Option.map_eq_some_iff.1 ht
    exact settled_unpause t

theorem Settled.changes (hs : ts.Settled) {event : ℕ} {h : InfoHash} {t' : Option HeldTorrent}
    (hc : Changes event (ts h) t') : Settled (Function.update ts h t') := by
  refine hs.update fun t ht => ?_
  subst ht
  generalize ts h = before at hc
  cases hc with
  | added completeness paused => exact settled_fresh _ _
  | starts t paused => exact settled_start t _ _
  | finishes t completeness => exact settled_finish t _
  | unpauses t => exact settled_unpause t
  | transfers t completeness noisy =>
    intro _ hq
    rw [show (t.transfer completeness).quiet = t.quiet from rfl, noisy] at hq
    cases hq

end Torrents

end SeedMedic
