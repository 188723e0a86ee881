/-
  Reconnecting to the feed: what a stream is opened with, and what the client it is opened for has
  missed, through the lives of several processes.
-/
import SeedMedic.Runtime.Calls

namespace SeedMedic

open Lib Prog

/-! ## What is noted of the connections -/

/-- Something with an id that a client was sent, and how many events had been published in all when
    the client was up to date with it. -/
structure Held where
  process : ℕ
  id : ℕ
  upTo : ℕ
  deriving DecidableEq

/-- What is noted while a process lives, and of those before it. -/
structure FeedNotes (ι : Type) where
  /-- The processes before this one. -/
  process : ℕ
  /-- The events they published. -/
  before : ℕ
  named : List Held
  /-- How far a connection has come in the channel. -/
  reached : ι → ℕ
  /-- Where in the channel a connection was opened, and with what. -/
  opened : ι → Option (ℕ × SseEvent)
  /-- The ids a connection was sent, in order. -/
  ids : ι → List ℕ

/-- The service with the notes. -/
structure Feeding (ι : Type) where
  service : Service
  notes : FeedNotes ι

section
variable {ι : Type}

namespace FeedNotes

def first : FeedNotes ι := ⟨0, 0, [], fun _ => 0, fun _ => none, fun _ => []⟩

/-- The next process, after one that published so many events. -/
def restarted (n : FeedNotes ι) (published : ℕ) : FeedNotes ι :=
  { first with process := n.process + 1, before := n.before + published, named := n.named }

variable [DecidableEq ι]

/-- A connection is sent something. -/
def sent (n : FeedNotes ι) (i : ι) (e : SseEvent) : FeedNotes ι :=
  match e.id with
  | none => n
  | some id =>
    { n with
      named := ⟨n.process, id, n.before + n.reached i⟩ :: n.named
      ids := Function.update n.ids i (n.ids i ++ [id]) }

end FeedNotes

variable [DecidableEq ι]

/-- What is noted when a call is answered. -/
def noteFeed (i : ι) : (c : ServiceCall) → c.Ans → Feeding ι → FeedNotes ι
  | .subscribe, next, w =>
    { w.notes with
      reached := Function.update w.notes.reached i next
      opened := Function.update w.notes.opened i none
      ids := Function.update w.notes.ids i [] }
  | .recv _, (_, next), w => { w.notes with reached := Function.update w.notes.reached i next }
  | .respond s opening, _, w =>
    ({ w.notes with opened := Function.update w.notes.opened i (some (s.next, opening)) } :
      FeedNotes ι).sent i opening
  | .deliver e, _, w => w.notes.sent i e
  | _, _, w => w.notes

/-- Publishers and connections of one process, in any order; a connection has the id it names from
    something its client was sent. The rest of the service does what it wants. -/
def feed (names : ι → Option Held) : System ι ServiceCall ServiceCall.Ans (Feeding ι) where
  answers i c w r w' := ∃ env service, Service.serve env c w.service = some (r, service) ∧
    w' = ⟨service, noteFeed i c r w⟩
  moves w w' := ∃ service : Service, service.bus = w.service.bus ∧ w' = { w with service }
  starts i p := (∃ kind, p = S.publish kind) ∨
    ∃ request n, p = EventStream.serve request ((names i).map (·.id)) n

/-- One process after the other: the notes of those that came before. -/
inductive Lives (ok : (ι → Option Held) → ι → ServiceCall → Feeding ι → Prop) :
    FeedNotes ι → Prop where
  | first : Lives ok .first
  | next {notes : FeedNotes ι} {names : ι → Option Held} {service : Service}
      {s : Lib.Config ι ServiceCall ServiceCall.Ans (Feeding ι)} :
      Lives ok notes → service.bus = .new →
      ((feed names).restrict (ok names)).Reach ⟨service, notes⟩ s →
      Lives ok (s.world.notes.restarted s.world.service.bus.sent.length)

/-- A stream is opened with a gap, or its client has missed nothing that was published since what it
    names; and the ids a connection is sent increase. -/
structure Truthful (names : ι → Option Held) (n : FeedNotes ι) : Prop where
  opened : ∀ i next opening, n.opened i = some (next, opening) →
    opening.name = "gap" ∨ opening.name = "hello" ∧
      ∀ x, names i = some x → x ∈ n.named → n.before + next ≤ x.upTo
  increasing : ∀ i, (n.ids i).Pairwise (· < ·)

/-- Events are sent in the order of their numbers; the number a stream is opened with is that of the
    events sent when it subscribed; and what a client names from an earlier process is behind that
    number, unless nothing was published since. -/
def InTurn (names : ι → Option Held) (i : ι) (c : ServiceCall) (w : Feeding ι) : Prop :=
  match c with
  | .send e => e.seq = w.service.bus.sent.length + 1
  | .seq => w.service.bus.seq = w.notes.reached i ∧
    ∀ x ∈ names i, x.process < w.notes.process →
      x.id < w.service.bus.seq ∨ w.notes.before + w.notes.reached i ≤ x.upTo
  | _ => True

/-! ## What a stream does -/

/-- How far a stream has come. -/
inductive Stage where
  | fresh
  | subscribed (next : ℕ)
  | counted (next seq : ℕ)
  | reading (next : ℕ)
  | holding (e : BusEvent) (next : ℕ)
  | behind (next : ℕ)

/-- Where a stream that is open takes its next event. -/
def Stage.place : Stage → Option ℕ
  | reading next | holding _ next | behind next => some next
  | _ => none

/-- A stream subscribes, reads the number, is opened with it, and passes on what it takes. -/
def reconnecting (resumedFrom : Option ℕ) : Rules ServiceCall ServiceCall.Ans Stage where
  may
    | .subscribe, l => l = .fresh
    | .seq, l => ∃ next, l = .subscribed next
    | .respond s opening, l => ∃ next seq, l = .counted next seq ∧ s.next = next ∧
        opening = EventStream.opening seq resumedFrom
    | .recv next, l => l.place = some next
    | .deliver sse, l => (∃ e next, l = .holding e next ∧
        sse.id = if 0 < e.seq then some e.seq else none) ∨ ∃ next, l = .behind next ∧ sse.id = none
    | .current, _ | .hasSession _, _ | .generation, _ | .nextSeq, _ | .send _, _ => True
    | _, _ => False
  next
    | .subscribe, next, _, l' => l' = .subscribed next
    | .seq, seq, l, l' => ∀ next, l = .subscribed next → l' = .counted next seq
    | .respond s _, _, _, l' => l' = .reading s.next
    | .recv taken, (received, next), _, l' =>
      match received with
      | .event e => l' = .holding e next
      | .lagged _ => l' = .behind next
      | .pending => l' = .reading taken
      | .closed => False
    | .deliver _, _, l, l' => ∀ next, l.place = some next → l' = .reading next
    | _, _, l, l' => l' = l

theorem publish_obeys (kind : BusKind) (resumedFrom : Option ℕ) :
    (S.publish kind).Obeys (reconnecting resumedFrom) .fresh fun _ _ => True :=
  ⟨trivial, fun _ _ _ => ⟨trivial, fun _ _ _ => trivial⟩⟩

theorem requireAuthToken_obeys (request : WebRequest) (resumedFrom : Option ℕ) (l : Stage) :
    (requireAuthToken request).Obeys (reconnecting resumedFrom) l fun _ l' => l' = l := by
  refine (RuntimeHandle.requireAuthToken_only (P := fun c => c = .current ∨ ∃ id, c = .hasSession id)
    (.inl rfl) (fun id => .inr ⟨id, rfl⟩) request).obeys rfl ?_
  rintro c l' (rfl | ⟨id, rfl⟩) rfl
  · exact ⟨trivial, fun _ _ hn => hn⟩
  · exact ⟨trivial, fun _ _ hn => hn⟩

namespace EventStream

/-- A stream is opened with the number it has read. -/
theorem stream_reconnecting (request : WebRequest) (resumedFrom : Option ℕ) :
    (stream request resumedFrom).Obeys (reconnecting resumedFrom) .fresh fun s l =>
      ∀ s', s = some s' → l.place = some s'.next := by
  refine ⟨rfl, fun next l hl => ?_⟩
  subst hl
  refine ⟨⟨next, rfl⟩, fun seq l hl => ?_⟩
  rw [hl next rfl]
  refine ⟨trivial, fun runtime l hl => ?_⟩
  rw [hl]
  show Prog.Obeys _ (if _ then _ else _) _ _
  split_ifs
  · exact fun s' h => by cases h
  · refine ⟨trivial, fun generation l hl => ?_⟩
    rw [hl]
    refine ⟨⟨next, seq, rfl, rfl, rfl⟩, fun _ l hl => ?_⟩
    rintro s' ⟨⟩
    rw [hl]
    rfl

theorem admitted_reconnecting (s : EventStream) (resumedFrom : Option ℕ) (l : Stage) :
    s.admitted.Obeys (reconnecting resumedFrom) l fun _ l' => l' = l := by
  unfold admitted
  split_ifs
  · cases s.session with
    | none => rfl
    | some id => exact ⟨trivial, fun _ _ hn => hn⟩
  · rfl

/-- A stream passes on what it took, and takes what comes next. -/
theorem emit_reconnecting {s : EventStream} {resumedFrom : Option ℕ} {l : Stage}
    (h : l.place = some s.next) :
    s.emit.Obeys (reconnecting resumedFrom) l fun s' l' => ∀ s'', s' = some s'' →
      l'.place = some s''.next := by
  refine ⟨h, fun taken l' hl' => ?_⟩
  obtain ⟨received, next⟩ := taken
  cases received with
  | closed => exact hl'.elim
  | pending =>
    rintro s'' ⟨⟩
    rw [show l' = .reading s.next from hl']
    rfl
  | event e =>
    rw [show l' = .holding e next from hl']
    refine (admitted_reconnecting s resumedFrom _).bind fun live l hl => ?_
    subst hl
    cases live with
    | false =>
      rintro s'' ⟨⟩
      rfl
    | true =>
      refine ⟨trivial, fun generation l hl => ?_⟩
      rw [hl]
      refine ⟨.inl ⟨e, next, rfl, rfl⟩, fun _ l hl => ?_⟩
      rw [hl next rfl]
      rintro s'' ⟨⟩
      rfl
  | lagged missed =>
    rw [show l' = .behind next from hl']
    refine (admitted_reconnecting s resumedFrom _).bind fun live l hl => ?_
    subst hl
    cases live with
    | false =>
      rintro s'' ⟨⟩
      rfl
    | true =>
      refine ⟨.inr ⟨next, rfl, rfl⟩, fun _ l hl => ?_⟩
      rw [hl next rfl]
      rintro s'' ⟨⟩
      rfl

theorem follow_reconnecting (resumedFrom : Option ℕ) (n : ℕ) : ∀ (s : EventStream) (l : Stage),
    l.place = some s.next →
      (follow n s).Obeys (reconnecting resumedFrom) l fun _ _ => True := by
  induction n with
  | zero => exact fun _ _ _ => trivial
  | succ n ih =>
    intro s l h
    refine (emit_reconnecting h).bind fun next l hl => ?_
    cases next with
    | none => trivial
    | some s => exact ih s l (hl s rfl)

theorem serve_reconnecting (request : WebRequest) (resumedFrom : Option ℕ) (n : ℕ) :
    (serve request resumedFrom n).Obeys (reconnecting resumedFrom) .fresh fun _ _ => True := by
  have hopened : (SeedMedic.guarded request (stream request resumedFrom)).Obeys
      (reconnecting resumedFrom) .fresh fun opened l =>
        ∀ s, opened = .ok (some s) → l.place = some s.next := by
    refine (requireAuthToken_obeys request resumedFrom .fresh).bind fun verdict l hl => ?_
    subst hl
    cases verdict with
    | next =>
      refine (stream_reconnecting request resumedFrom).bind fun s l hl => ?_
      rintro s' ⟨⟩
      exact hl s' rfl
    | _ => exact fun s h => by cases h
  refine hopened.bind fun opened l hl => ?_
  cases opened with
  | error verdict => trivial
  | ok opened =>
    cases opened with
    | none => trivial
    | some s => exact follow_reconnecting resumedFrom n s l (hl s rfl)

end EventStream

/-! ## What calm runs keep -/

variable {names : ι → Option Held} {i : ι} {w : Feeding ι}

/-- Events lie in the channel in the order of their numbers, what was named tells by its id how far
    its client was, and streams were opened accordingly. -/
structure Settled (names : ι → Option Held) (w : Feeding ι) : Prop where
  inOrder : ∀ k e, w.service.bus.sent[k]? = some e → e.seq = k + 1
  named : ∀ x ∈ w.notes.named, x.process < w.notes.process ∨
    x.process = w.notes.process ∧ x.upTo = w.notes.before + x.id
  opened : ∀ i next opening, w.notes.opened i = some (next, opening) →
    opening.name = "gap" ∨ opening.name = "hello" ∧ ∀ x, names i = some x →
      next ≤ x.id ∧ (x.process < w.notes.process → w.notes.before + next ≤ x.upTo)
  increasing : ∀ i, (w.notes.ids i).Pairwise (· < ·)

omit [DecidableEq ι] in
theorem Settled.truthful (h : Settled names w) : Truthful names w.notes where
  opened i next opening ho := by
    refine (h.opened i next opening ho).imp_right fun ⟨hname, hup⟩ => ⟨hname, fun x hx hmem => ?_⟩
    obtain ⟨hid, hearlier⟩ := hup x hx
    rcases h.named x hmem with hless | ⟨-, hupTo⟩
    · exact hearlier hless
    · rw [hupTo]
      omega
  increasing := h.increasing

/-- What is true of the service and the notes at a stage of a connection. -/
def Stage.Holds (names : ι → Option Held) (i : ι) (l : Stage) (w : Feeding ι) : Prop :=
  match l with
  | .fresh => True
  | .subscribed next => w.notes.reached i = next ∧ w.notes.ids i = []
  | .counted next seq => seq = next ∧ w.notes.reached i = next ∧ w.notes.ids i = [] ∧
    ∀ x, names i = some x → x.process < w.notes.process →
      x.id < seq ∨ w.notes.before + next ≤ x.upTo
  | .reading next | .behind next => w.notes.reached i = next ∧ ∀ id ∈ w.notes.ids i, id ≤ next
  | .holding e next => w.notes.reached i = next ∧ e.seq = next ∧ 0 < next ∧
    ∀ id ∈ w.notes.ids i, id < next

omit [DecidableEq ι] in
/-- A stage holds whatever becomes of the other connections. -/
theorem Stage.Holds.of_notes {l : Stage} {w' : Feeding ι} (h : l.Holds names i w)
    (hprocess : w'.notes.process = w.notes.process) (hbefore : w'.notes.before = w.notes.before)
    (hreached : w'.notes.reached i = w.notes.reached i) (hids : w'.notes.ids i = w.notes.ids i) :
    l.Holds names i w' := by
  cases l <;> simp only [Stage.Holds, hprocess, hbefore, hreached, hids] at h ⊢ <;> exact h

/-- An opening carries the number it was made with, and is a hello only to a client that names no
    smaller one. -/
theorem EventStream.opening_cases (seq : ℕ) (resumedFrom : Option ℕ) :
    (EventStream.opening seq resumedFrom).id = (if 0 < seq then some seq else none) ∧
    ((EventStream.opening seq resumedFrom).name = "gap" ∨
      (EventStream.opening seq resumedFrom).name = "hello" ∧
        ∀ seen, resumedFrom = some seen → seq ≤ seen) := by
  unfold EventStream.opening
  cases resumedFrom with
  | none => exact ⟨rfl, .inr ⟨rfl, fun seen h => by cases h⟩⟩
  | some seen =>
    dsimp only
    by_cases hless : seen < seq
    · rw [if_pos hless]
      exact ⟨rfl, .inl rfl⟩
    · rw [if_neg hless]
      refine ⟨rfl, .inr ⟨rfl, ?_⟩⟩
      rintro seen' ⟨⟩
      omega

/-- Sending something with an id a connection has not come to keeps the notes in order. -/
theorem Settled.sent {service : Service} {n : FeedNotes ι} {sse : SseEvent}
    (h : Settled names ⟨service, n⟩)
    (hid : ∀ id, sse.id = some id → id = n.reached i ∧ ∀ id' ∈ n.ids i, id' < id) :
    Settled names ⟨service, n.sent i sse⟩ := by
  unfold FeedNotes.sent
  split
  · exact h
  · rename_i id hsse
    obtain ⟨hreached, hmore⟩ := hid id hsse
    refine ⟨h.inOrder, fun x hx => ?_, h.opened, fun j => ?_⟩
    · rcases List.mem_cons.1 hx with rfl | hx
      · exact .inr ⟨rfl, by rw [hreached]⟩
      · exact h.named x hx
    · dsimp only
      by_cases hj : j = i
      · subst hj
        rw [Function.update_self, List.pairwise_append]
        refine ⟨h.increasing j, List.pairwise_singleton _ _, fun a ha b hb => ?_⟩
        rw [List.mem_singleton.1 hb]
        exact hmore a ha
      · rw [Function.update_of_ne hj]
        exact h.increasing j

theorem FeedNotes.sent_of_ne {n : FeedNotes ι} {j : ι} {sse : SseEvent} (hj : j ≠ i) :
    (n.sent i sse).ids j = n.ids j := by
  unfold sent
  split
  · rfl
  · exact Function.update_of_ne hj ..

@[simp] theorem FeedNotes.sent_process {n : FeedNotes ι} {sse : SseEvent} :
    (n.sent i sse).process = n.process := by
  unfold sent
  split <;> rfl

@[simp] theorem FeedNotes.sent_before {n : FeedNotes ι} {sse : SseEvent} :
    (n.sent i sse).before = n.before := by
  unfold sent
  split <;> rfl

@[simp] theorem FeedNotes.sent_reached {n : FeedNotes ι} {sse : SseEvent} :
    (n.sent i sse).reached = n.reached := by
  unfold sent
  split <;> rfl

theorem FeedNotes.mem_sent {n : FeedNotes ι} {sse : SseEvent} {id : ℕ}
    (h : id ∈ (n.sent i sse).ids i) : id ∈ n.ids i ∨ sse.id = some id := by
  unfold sent at h
  split at h
  · exact .inl h
  · rename_i id' hsse
    dsimp only at h
    rw [Function.update_self] at h
    refine (List.mem_append.1 h).imp_right fun h => ?_
    rw [hsse, List.mem_singleton.1 h]

/-- What is taken from a channel in order is the event of the next number, or something later. -/
theorem recv_inOrder {bus : EventBus} (h : ∀ k e, bus.sent[k]? = some e → e.seq = k + 1)
    (next : ℕ) :
    (∃ missed reached, bus.recv next = (.lagged missed, reached) ∧ next ≤ reached) ∨
    (∃ e, bus.recv next = (.event e, next + 1) ∧ e.seq = next + 1) ∨
      bus.recv next = (.pending, next) := by
  unfold EventBus.recv
  split_ifs with hlag
  · exact .inl ⟨_, _, rfl, by omega⟩
  · cases hsent : bus.sent[next]? with
    | none => exact .inr (.inr rfl)
    | some e => exact .inr (.inl ⟨e, rfl, h next e hsent⟩)

theorem feed_sound : ((feed names).restrict (InTurn names)).Sound
    (fun i => reconnecting ((names i).map (·.id))) (Settled names)
    (fun i l w => l.Holds names i w) where
  start := by
    rintro i p w - (⟨kind, rfl⟩ | ⟨request, n, rfl⟩)
    · exact ⟨.fresh, trivial, publish_obeys kind _⟩
    · exact ⟨.fresh, trivial, EventStream.serve_reconnecting request _ n⟩
  move := by
    rintro w w' hw ⟨service, hbus, rfl⟩
    exact ⟨⟨fun k e he => hw.inOrder k e (by rw [← hbus]; exact he), hw.named, hw.opened,
      hw.increasing⟩, fun j l hl => hl.of_notes rfl rfl rfl rfl⟩
  call := by
    rintro i c w a w' l hw hl hmay ⟨hturn, env, service, hserved, rfl⟩
    have hothers : ∀ {n : FeedNotes ι}, n.process = w.notes.process → n.before = w.notes.before →
        (∀ j, j ≠ i → n.reached j = w.notes.reached j) → (∀ j, j ≠ i → n.ids j = w.notes.ids j) →
        ∀ j, j ≠ i → ∀ m : Stage, m.Holds names j w → m.Holds names j ⟨service, n⟩ :=
      fun hp hb hr hi j hj m hm => hm.of_notes hp hb (hr j hj) (hi j hj)
    cases c with
    | nextSeq =>
      cases hserved
      exact ⟨⟨hw.inOrder, hw.named, hw.opened, hw.increasing⟩,
        ⟨l, rfl, hl.of_notes rfl rfl rfl rfl⟩, hothers rfl rfl (fun _ _ => rfl) fun _ _ => rfl⟩
    | send e =>
      cases hserved
      refine ⟨⟨fun k e' he' => ?_, hw.named, hw.opened, hw.increasing⟩,
        ⟨l, rfl, hl.of_notes rfl rfl rfl rfl⟩, hothers rfl rfl (fun _ _ => rfl) fun _ _ => rfl⟩
      rcases Nat.lt_trichotomy k w.service.bus.sent.length with hk | rfl | hk
      · dsimp only at he'
        rw [List.getElem?_append_left hk] at he'
        exact hw.inOrder k e' he'
      · dsimp only at he'
        rw [List.getElem?_concat_length] at he'
        cases he'
        exact hturn
      · dsimp only at he'
        rw [List.getElem?_eq_none (by rw [List.length_append, List.length_singleton]; omega)] at he'
        cases he'
    | current =>
      cases hserved
      exact ⟨hw, ⟨l, rfl, hl⟩, hothers rfl rfl (fun _ _ => rfl) fun _ _ => rfl⟩
    | hasSession id =>
      cases hserved
      exact ⟨hw, ⟨l, rfl, hl⟩, hothers rfl rfl (fun _ _ => rfl) fun _ _ => rfl⟩
    | generation =>
      cases hserved
      exact ⟨hw, ⟨l, rfl, hl⟩, hothers rfl rfl (fun _ _ => rfl) fun _ _ => rfl⟩
    | subscribe =>
      cases hserved
      refine ⟨⟨hw.inOrder, hw.named, fun j next opening ho => ?_, fun j => ?_⟩,
        ⟨.subscribed _, rfl, Function.update_self .., Function.update_self ..⟩,
        hothers rfl rfl (fun j hj => Function.update_of_ne hj ..)
          fun j hj => Function.update_of_ne hj ..⟩
      · by_cases hj : j = i
        · subst hj
          simp [noteFeed] at ho
        · simp only [noteFeed, Function.update_of_ne hj] at ho
          exact hw.opened j next opening ho
      · by_cases hj : j = i
        · subst hj
          simp [noteFeed]
        · simp only [noteFeed, Function.update_of_ne hj]
          exact hw.increasing j
    | seq =>
      cases hserved
      obtain ⟨next, rfl⟩ := hmay
      obtain ⟨hreached, hids⟩ := hl
      obtain ⟨hcount, hearlier⟩ := hturn
      refine ⟨hw, ⟨.counted next w.service.bus.seq, ?_, ?_⟩,
        hothers rfl rfl (fun _ _ => rfl) fun _ _ => rfl⟩
      · rintro next' ⟨⟩
        rfl
      · rw [hreached] at hcount hearlier
        exact ⟨hcount, hreached, hids, hearlier⟩
    | respond s opening =>
      cases hserved
      obtain ⟨next, seq, rfl, rfl, rfl⟩ := hmay
      obtain ⟨rfl, hreached, hids, hearlier⟩ := hl
      obtain ⟨hid, hname⟩ := EventStream.opening_cases s.next ((names i).map (·.id))
      have hid : ∀ id, (EventStream.opening s.next ((names i).map (·.id))).id = some id →
          id = s.next := by
        intro id h
        rw [hid] at h
        split_ifs at h
        exact (Option.some.inj h).symm
      refine ⟨Settled.sent ⟨hw.inOrder, hw.named, fun j next opening ho => ?_, hw.increasing⟩
          fun id h => ⟨(hid id h).trans hreached.symm, fun id' hid' => ?_⟩,
        ⟨.reading s.next, rfl, ?_, fun id h => ?_⟩, hothers ?_ ?_ (fun j _ => ?_) fun j hj => ?_⟩
      · dsimp only at ho
        by_cases hj : j = i
        · subst hj
          rw [Function.update_self] at ho
          cases ho
          refine hname.imp_right fun ⟨hhello, hseen⟩ => ⟨hhello, fun x hx => ?_⟩
          have hup : s.next ≤ x.id := hseen x.id (by rw [hx]; rfl)
          refine ⟨hup, fun hless => (hearlier x hx hless).resolve_left (by omega)⟩
        · rw [Function.update_of_ne hj] at ho
          exact hw.opened j next opening ho
      · dsimp only at hid'
        rw [hids] at hid'
        cases hid'
      · simpa [noteFeed] using hreached
      · rcases FeedNotes.mem_sent h with h | h
        · dsimp only at h
          rw [hids] at h
          cases h
        · exact (hid id h).le
      · simp [noteFeed]
      · simp [noteFeed]
      · simp [noteFeed]
      · exact FeedNotes.sent_of_ne hj
    | recv next =>
      cases hserved
      have hreached : w.notes.reached i = next ∧ ∀ id ∈ w.notes.ids i, id ≤ next := by
        cases l with
        | reading _ | behind _ =>
          cases hmay
          exact hl
        | holding e _ =>
          cases hmay
          exact ⟨hl.1, fun id h => (hl.2.2.2 id h).le⟩
        | _ => cases hmay
      obtain ⟨hreached, hids⟩ := hreached
      have hkept : ∀ reached, Settled names ⟨w.service,
          { w.notes with reached := Function.update w.notes.reached i reached }⟩ :=
        fun reached => ⟨hw.inOrder, hw.named, hw.opened, hw.increasing⟩
      have hrest : ∀ reached, ∀ j, j ≠ i → ∀ m : Stage, m.Holds names j w →
          m.Holds names j ⟨w.service,
            { w.notes with reached := Function.update w.notes.reached i reached }⟩ :=
        fun reached => hothers rfl rfl (fun j hj => Function.update_of_ne hj ..) fun _ _ => rfl
      obtain ⟨missed, reached, htaken, hle⟩ | ⟨e, htaken, hseq⟩ | htaken :=
        recv_inOrder hw.inOrder next
      · rw [htaken]
        exact ⟨hkept reached, ⟨.behind reached, rfl, Function.update_self ..,
          fun id h => (hids id h).trans hle⟩, hrest reached⟩
      · rw [htaken]
        exact ⟨hkept (next + 1), ⟨.holding e (next + 1), rfl, Function.update_self .., hseq,
          Nat.succ_pos _, fun id h => Nat.lt_succ_of_le (hids id h)⟩, hrest (next + 1)⟩
      · rw [htaken]
        exact ⟨hkept next, ⟨.reading next, rfl, Function.update_self .., hids⟩, hrest next⟩
    | deliver sse =>
      cases hserved
      have hrest : ∀ j, j ≠ i → ∀ m : Stage, m.Holds names j w →
          m.Holds names j ⟨w.service, w.notes.sent i sse⟩ :=
        hothers FeedNotes.sent_process FeedNotes.sent_before
          (fun j _ => by rw [FeedNotes.sent_reached]) fun j hj => FeedNotes.sent_of_ne hj
      rcases hmay with ⟨e, next, rfl, hid⟩ | ⟨next, rfl, hid⟩
      · obtain ⟨hreached, hseq, hpos, hids⟩ := hl
        have hid : ∀ id, sse.id = some id → id = next := by
          intro id h
          rw [hid, if_pos (by omega)] at h
          exact (Option.some.inj h).symm.trans hseq
        refine ⟨hw.sent fun id h => ⟨(hid id h).trans hreached.symm, fun id' h' => ?_⟩,
          ⟨.reading next, ?_, ?_, fun id h => ?_⟩, hrest⟩
        · rw [hid id h]
          exact hids id' h'
        · rintro next' ⟨⟩
          rfl
        · simpa [noteFeed] using hreached
        · rcases FeedNotes.mem_sent h with h | h
          · exact (hids id h).le
          · exact (hid id h).le
      · obtain ⟨hreached, hids⟩ := hl
        refine ⟨hw.sent fun id h => ?_, ⟨.reading next, ?_, ?_, fun id h => ?_⟩, hrest⟩
        · rw [hid] at h
          cases h
        · rintro next' ⟨⟩
          rfl
        · simpa [noteFeed] using hreached
        · rcases FeedNotes.mem_sent h with h | h
          · exact hids id h
          · rw [hid] at h
            cases h
    | _ => exact hmay.elim

/-- The notes a process starts with are settled. -/
theorem Lives.settled {notes : FeedNotes ι} (h : Lives InTurn notes) (names : ι → Option Held)
    {service : Service} (hfresh : service.bus = .new) : Settled names ⟨service, notes⟩ := by
  have hempty : ∀ k e, service.bus.sent[k]? = some e → e.seq = k + 1 := by
    intro k e he
    rw [hfresh] at he
    cases he
  induction h generalizing names service with
  | first =>
    exact ⟨hempty, fun x hx => (by cases hx), fun i next opening h => (by cases h),
      fun i => List.Pairwise.nil⟩
  | @next notes names' service' s _ hnew hreach ih =>
    have hsettled := (feed_sound.reach (ih names' hnew (fun k e he => by
      rw [hnew] at he
      cases he)) hreach).inv
    refine ⟨hempty, fun x hx => .inl ?_, fun i next opening h => (by cases h),
      fun i => List.Pairwise.nil⟩
    have hless : x.process < s.world.notes.process + 1 := by
      rcases hsettled.named x hx with hless | ⟨hsame, -⟩ <;> omega
    exact hless

end

/-- While events are sent in the order of their numbers, streams are opened between them, and ids of
    earlier processes are behind: in every state of every process a stream is opened with a hello only
    if its client has missed nothing since what it names, and what a connection is sent increases. -/
theorem reconnects_truthful {ι : Type} [DecidableEq ι] {names : ι → Option Held}
    {notes : FeedNotes ι} {service : Service}
    {s : Lib.Config ι ServiceCall ServiceCall.Ans (Feeding ι)} (hlives : Lives InTurn notes)
    (hfresh : service.bus = .new)
    (hreach : ((feed names).restrict (InTurn names)).Reach ⟨service, notes⟩ s) :
    Truthful names s.world.notes :=
  (feed_sound.reach (hlives.settled names hfresh) hreach).inv.truthful

/-! ## Two connections -/

namespace Reconnect

def env : ServiceEnv := .plain (.plain (.known [] fun _ => ""))

/-- A process that has just started, without a token. -/
def service : Service := .started ⟨none, none, none, 0⟩ (.plain .default env.build) .new

def request : WebRequest := ⟨"/api/v1/events", false, none, none, false, false⟩

def reply (i : Fin 3) (c : ServiceCall) (w : Feeding (Fin 3)) :
    Option (c.Ans × Feeding (Fin 3)) :=
  (Service.serve env c w.service).map fun a => (a.1, ⟨a.2, noteFeed i c a.1 w⟩)

theorem reply_answers {names : Fin 3 → Option Held} {i : Fin 3} {c : ServiceCall}
    {w : Feeding (Fin 3)} {a : c.Ans × Feeding (Fin 3)} (h : reply i c w = some a) :
    (feed names).answers i c w a.1 a.2 := by
  obtain ⟨⟨r, service⟩, hserved, rfl⟩ := Option.map_eq_some_iff.1 h
  exact ⟨env, service, hserved, rfl⟩

/-- As it answers when all happens in turn. -/
def inTurn (names : Fin 3 → Option Held) (i : Fin 3) :
    (c : ServiceCall) → Feeding (Fin 3) → Option (c.Ans × Feeding (Fin 3))
  | .send e, w => if e.seq = w.service.bus.sent.length + 1 then reply i (.send e) w else none
  | .seq, w =>
    if w.service.bus.seq = w.notes.reached i ∧ ∀ x ∈ names i, w.notes.process ≤ x.process then
      reply i .seq w
    else none
  | c, w => reply i c w

theorem inTurn_answers {names : Fin 3 → Option Held} {i : Fin 3} {c : ServiceCall}
    {w : Feeding (Fin 3)} {a : c.Ans × Feeding (Fin 3)} (h : inTurn names i c w = some a) :
    ((feed names).restrict (InTurn names)).answers i c w a.1 a.2 := by
  cases c with
  | send e =>
    change (if _ then _ else none) = some a at h
    split_ifs at h with hturn
    exact ⟨hturn, reply_answers h⟩
  | seq =>
    change (if _ then _ else none) = some a at h
    split_ifs at h with hturn
    exact ⟨⟨hturn.1, fun x hx hless => absurd (hturn.2 x hx) (by omega)⟩, reply_answers h⟩
  | _ => exact ⟨trivial, reply_answers h⟩

local instance three : NeZero 3 := ⟨Nat.succ_ne_zero 2⟩

/-- The third connection names what the second was sent. -/
def named : Fin 3 → Option Held := fun i => if i = 2 then some ⟨0, 1, 1⟩ else none

/-- An event is published. -/
def published (notes : FeedNotes (Fin 3)) : Feeding (Fin 3) :=
  (System.drive (inTurn named 0) 2 (S.publish .trackersChanged) ⟨service, notes⟩).2

/-- A client connects. -/
def connected : Feeding (Fin 3) :=
  (System.drive (inTurn named 1) 9 (EventStream.serve request none 0) (published .first)).2

/-- It reconnects with what it was sent. -/
def reconnected : Feeding (Fin 3) :=
  (System.drive (inTurn named 2) 9 (EventStream.serve request (some 1) 0) connected).2

/-- It reconnects to the next process, which has published an event too. -/
def resumed : Feeding (Fin 3) :=
  (System.drive (reply 2) 9 (EventStream.serve request (some 1) 0)
    (published (connected.notes.restarted 1))).2

/-- An event was published and a client is connected. -/
theorem connected_reached {ok : Fin 3 → ServiceCall → Feeding (Fin 3) → Prop}
    (hok : ∀ i c w, InTurn named i c w → ok i c w) :
    ∃ s, ((feed named).restrict ok).Reach ⟨service, .first⟩ s ∧ s.world = connected ∧
      s.threads 2 = none := by
  have hreply : ∀ (i : Fin 3) (c : ServiceCall) (w : Feeding (Fin 3)) (a : c.Ans × Feeding (Fin 3)),
      inTurn named i c w = some a →
        ∃ w', Relation.ReflTransGen ((feed named).restrict ok).moves w w' ∧
          ((feed named).restrict ok).answers i c w' a.1 a.2 := by
    intro i c w a h
    obtain ⟨hturn, hanswers⟩ := inTurn_answers h
    exact ⟨w, .refl, hok i c w hturn, hanswers⟩
  obtain ⟨s₁, hs₁, -, hworld₁, hothers₁⟩ := System.reach_next (S := (feed named).restrict ok)
    (s := ⟨⟨service, .first⟩, fun _ => none⟩) (i := 0) .refl rfl (.inl ⟨.trackersChanged, rfl⟩)
    (hreply 0) 2
  obtain ⟨s₂, hs₂, -, hworld₂, hothers₂⟩ := System.reach_next hs₁ (i := 1)
    (hothers₁ 1 (by decide)) (.inr ⟨request, 0, rfl⟩) (hreply 1) 9
  rw [hworld₁] at hworld₂
  exact ⟨s₂, hs₂, hworld₂, (hothers₂ 2 (by decide)).trans (hothers₁ 2 (by decide))⟩

end Reconnect

/-- A client reconnects in turn, and is greeted with a hello. -/
theorem reconnect_truthful : ∃ s : Lib.Config (Fin 3) ServiceCall ServiceCall.Ans
      (Feeding (Fin 3)),
    (s.world.notes.opened 2).map (fun o => o.2.name) = some "hello" ∧
      Truthful Reconnect.named s.world.notes := by
  obtain ⟨s₁, hs₁, hworld₁, hfree⟩ := Reconnect.connected_reached fun _ _ _ h => h
  obtain ⟨s₂, hs₂, -, hworld₂, -⟩ := System.reach_next hs₁ (i := 2) hfree
    (.inr ⟨Reconnect.request, 0, rfl⟩)
    (fun c w a h => ⟨w, .refl, Reconnect.inTurn_answers h⟩) 9
  rw [hworld₁] at hworld₂
  refine ⟨s₂, ?_, reconnects_truthful .first rfl hs₂⟩
  rw [hworld₂]
  show (Reconnect.reconnected.notes.opened 2).map (fun o => o.2.name) = some "hello"
  decide +kernel

/-- After a restart a client is greeted with a hello although an event was published since what it
    names. -/
theorem hello_after_restart : ¬ ∀ (names : Fin 3 → Option Held) (notes : FeedNotes (Fin 3))
    (service : Service) (s : Lib.Config (Fin 3) ServiceCall ServiceCall.Ans (Feeding (Fin 3))),
    Lives (fun _ _ _ _ => True) notes → service.bus = .new →
      (feed names).Reach ⟨service, notes⟩ s → Truthful names s.world.notes := by
  intro hclaim
  obtain ⟨s₁, hs₁, hworld₁, -⟩ := Reconnect.connected_reached
    (fun _ _ _ _ => trivial : ∀ i c w, InTurn Reconnect.named i c w → True)
  have hlives : Lives (fun _ _ _ _ => True) (Reconnect.connected.notes.restarted 1) := by
    have h : Lives (fun _ _ _ _ => True)
        (s₁.world.notes.restarted s₁.world.service.bus.sent.length) :=
      Lives.next .first rfl (s := s₁) hs₁
    rw [hworld₁] at h
    have hsent : Reconnect.connected.service.bus.sent.length = 1 := by decide +kernel
    rwa [hsent] at h
  obtain ⟨s₂, hs₂, -, hworld₂, hothers₂⟩ := System.reach_next (S := feed Reconnect.named)
    (s := ⟨⟨Reconnect.service, Reconnect.connected.notes.restarted 1⟩, fun _ => none⟩) (i := 0)
    .refl rfl (.inl ⟨.trackersChanged, rfl⟩)
    (fun c w a h => ⟨w, .refl, (Reconnect.inTurn_answers h).2⟩) 2
  obtain ⟨s₃, hs₃, -, hworld₃, -⟩ := System.reach_next hs₂ (i := 2) (hothers₂ 2 (by decide))
    (.inr ⟨Reconnect.request, 0, rfl⟩)
    (fun c w a h => ⟨w, .refl, Reconnect.reply_answers h⟩) 9
  rw [hworld₂] at hworld₃
  have htruthful := hclaim _ _ _ s₃ hlives rfl hs₃
  rw [hworld₃] at htruthful
  have hopened : (Reconnect.resumed.notes.opened 2).map (fun o => (o.1, o.2.name)) =
      some (1, "hello") := by
    decide +kernel
  obtain ⟨⟨next, opening⟩, hopen, hsame⟩ := Option.map_eq_some_iff.1 hopened
  obtain ⟨hnext, hname⟩ := Prod.mk.inj hsame
  have hmem : (⟨0, 1, 1⟩ : Held) ∈ Reconnect.resumed.notes.named := by decide +kernel
  have hbefore : Reconnect.resumed.notes.before = 1 := by decide +kernel
  rcases htruthful.opened 2 _ _ hopen with hgap | ⟨-, hup⟩
  · rw [show opening.name = "hello" from hname] at hgap
    exact absurd hgap (by decide)
  · have hmissed : Reconnect.resumed.notes.before + next ≤ 1 := hup ⟨0, 1, 1⟩ rfl hmem
    rw [hbefore, show next = 1 from hnext] at hmissed
    omega

end SeedMedic
