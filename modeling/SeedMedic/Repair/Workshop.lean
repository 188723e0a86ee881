/-
  The jobs and the staging area side by side: what programs, and others, do to both.
-/
import SeedMedic.Repair.Plans
import SeedMedic.Repair.ResumeSafety
import SeedMedic.Repair.Serve
import SeedMedic.Staging.Local

namespace SeedMedic

open Lib Prog

/-! ## States from staging on -/

/-- A state of the happy path from staging on. -/
def RepairState.StagedOrLater (s : RepairState) : Prop :=
  s ∈ RepairState.PROGRESSION.dropWhile (· ≠ .staged)

instance (s : RepairState) : Decidable s.StagedOrLater :=
  inferInstanceAs (Decidable (s ∈ RepairState.PROGRESSION.dropWhile (· ≠ .staged)))

namespace RepairState

variable {s t : RepairState}

theorem rank_of_stagedOrLater (h : s.StagedOrLater) : reconcileRank .staged ≤ reconcileRank s := by
  revert h
  cases s <;> decide

theorem stagedOrLater_of_actionable (hs : s.isActionable = true)
    (h : reconcileRank .staged ≤ reconcileRank s) : s.StagedOrLater := by
  revert hs h
  cases s <;> decide

theorem stagedOrLater_of_next (hn : s.next = some t) (ht : t.StagedOrLater) :
    s.StagedOrLater ∨ s = .matched := by
  revert ht
  cases s <;> cases hn <;> decide

theorem next_ne_awaitingReview (s : RepairState) : s.next ≠ some .awaitingReview := by
  cases s <;> decide

/-- A lifecycle state ranked above one from staging on is one. -/
theorem stagedOrLater_of_rank {m n : ℕ} (hm : s.rank = some m) (hn : t.rank = some n) (h : n < m)
    (ht : t.StagedOrLater) : s.StagedOrLater := by
  revert ht
  cases s <;> cases hm <;> cases t <;> cases hn <;> revert h <;> decide

end RepairState

/-- The job of a row is staged: it is in such a state, or parked where it stopped in one. -/
def JobRow.Past (r : JobRow) : Prop :=
  r.state.StagedOrLater ∨ r.state = .awaitingReview ∧
    ∃ s, r.reviewFromState = some s ∧ reconcileRank .staged ≤ reconcileRank s

/-- A transition leaves the job of its row staged. -/
def Transition.Past (t : Transition) : Prop :=
  t.toState.StagedOrLater ∨
    t.toState = .awaitingReview ∧ reconcileRank .staged ≤ reconcileRank t.fromState

theorem past_movedRow {t : Transition} {p : JobPatch} {f : Option String} {st : Stamp} {r : JobRow} :
    (patchRow p st (transitionRow t f st r)).Past ↔ t.Past := by
  refine or_congr_right (and_congr_right fun hparked => ?_)
  have hfrom : (patchRow p st (transitionRow t f st r)).reviewFromState = some t.fromState :=
    if_pos hparked
  rw [hfrom]
  exact ⟨fun ⟨s, hs, h⟩ => Option.some.inj hs ▸ h, fun h => ⟨_, rfl, h⟩⟩

/-- A staged job was staged before, or staging has just succeeded. -/
theorem Transition.Past.cases {t : Transition} (h : t.Past) : t.fromState.StagedOrLater ∨
    (t.reason = .operatorRetry ∧ t.fromState = .awaitingReview ∧
      reconcileRank .staged ≤ reconcileRank t.toState) ∨
      (t.reason = .progress ∧ t.fromState = .matched) := by
  have hearly : ∀ s, t.toState = s → ¬(s.StagedOrLater ∨ s = .awaitingReview) → False :=
    fun s hs hn => hn (hs ▸ h.imp_right And.left)
  rcases t.cases_reason with ⟨hr, hn⟩ | ⟨_, -, hf, hto⟩ | ⟨-, -, hto⟩ | ⟨hr, hf⟩ | ⟨-, -, hto⟩ |
    ⟨-, -, hto⟩ | ⟨-, -, hto⟩ | ⟨-, m, n, hm, hn, hlt⟩
  · rcases h with h | ⟨hparked, -⟩
    · rcases RepairState.stagedOrLater_of_next hn h with hs | hs
      · exact .inl hs
      · exact .inr (.inr ⟨hr, hs⟩)
    · rw [hparked] at hn
      exact absurd hn (RepairState.next_ne_awaitingReview _)
  · rcases h with h | ⟨-, h⟩
    · exact absurd (hto ▸ h) (by decide)
    · exact .inl (RepairState.stagedOrLater_of_actionable hf h)
  · exact (hearly _ hto (by decide)).elim
  · refine .inr (.inl ⟨hr, hf, ?_⟩)
    rcases h with h | ⟨hto, -⟩
    · exact RepairState.rank_of_stagedOrLater h
    · rw [hto]
      decide
  · exact (hearly _ hto (by decide)).elim
  · exact (hearly _ hto (by decide)).elim
  · exact (hearly _ hto (by decide)).elim
  · rcases h with h | ⟨hparked, -⟩
    · exact .inl (RepairState.stagedOrLater_of_rank hm hn hlt h)
    · rw [hparked] at hn
      cases hn

/-! ## The disk as others leave it -/

namespace Disk

/-- What others do to a disk: they delete what is staged, and change the library, but give no
    name in it to what is staged. -/
structure Tampered (disk disk' : Disk) : Prop where
  staged : ∀ d, disk'.staged d = none ∨ disk'.staged d = disk.staged d
  library : ∀ p e, disk'.library p = some e → disk.unused ≤ e.inode ∨ ∃ q, disk.library q = some e
  unused : disk.unused ≤ disk'.unused

/-- Nothing comes to share its inode with the library. -/
theorem Tampered.aliases {disk disk' : Disk} (h : disk.Tampered disk') {d : SafeRelativePath}
    (ha : disk'.Aliases d) : disk.Aliases d := by
  obtain ⟨p, e, hd, hp⟩ := ha
  rcases h.staged d with hnone | hsame
  · rw [hnone] at hd
    cases hd
  · rw [hsame] at hd
    rcases h.library p e hp with hnew | ⟨q, hq⟩
    · exact absurd (disk.staged_used hd) (not_lt.2 hnew)
    · exact ⟨q, e, hd, hq⟩

/-- What a deletion of a directory of the staging area leaves. -/
structure Discarded (dir : SafeRelativePath) (r : Except StagingError Unit) (disk disk' : Disk) :
    Prop where
  library : disk'.library = disk.library
  length : disk'.length = disk.length
  unused : disk'.unused = disk.unused
  staged : ∀ d, disk'.staged d = none ∨ disk'.staged d = disk.staged d
  others : ∀ d, d ≠ dir → (∀ p : SafeRelativePath, d ≠ p.under dir) → disk'.staged d = disk.staged d
  done : r = .ok () → ∀ p : SafeRelativePath, disk'.staged (p.under dir) = none

theorem Discarded.tampered {dir : SafeRelativePath} {r : Except StagingError Unit} {disk disk' : Disk}
    (h : Discarded dir r disk disk') : disk.Tampered disk' where
  staged := h.staged
  library p _ he := .inr ⟨p, h.library ▸ he⟩
  unused := h.unused.ge

end Disk

/-! ## The world -/

/-- The store, the clock and the disk. -/
structure Site where
  store : SqliteRepairStore
  now : Time
  disk : Disk

namespace Site

/-- Time passes, hit-and-runs are found, and others use the disk. -/
inductive Moves : Site → Site → Prop
  | pass {w : Site} {now : Time} (later : w.now ≤ now) : Moves w { w with now }
  | discovery {w : Site} {h : HitAndRun} {d : Discovered} {store : SqliteRepairStore}
      (recorded : w.store.recordDiscovery w.now h = .ok (d, store)) : Moves w { w with store }
  | tamper {w : Site} {disk : Disk} (tampered : w.disk.Tampered disk) : Moves w { w with disk }

variable (w : Site)

/-- How calls are answered: those to the staging area by the disk, whatever the host and the
    configuration are, and the others by the store, the clock or the world outside. -/
def Answers : (c : Call) → Ans c → Site → Prop
  | .staging (.materialize plan preference), r, w' => ∃ (l : LocalStaging) (h : Host),
    l.materialize h plan preference w.disk = (r, w'.disk) ∧ w'.store = w.store ∧ w'.now = w.now
  | .staging (.inspect plan), r, w' =>
    (r = .ok (LocalStaging.inspect plan w.disk) ∨ ∃ e, r = .error e) ∧ w' = w
  | .staging (.discard dir), r, w' =>
    Disk.Discarded dir r w.disk w'.disk ∧ w'.store = w.store ∧ w'.now = w.now
  | c, r, w' => w.store.Replies w.now c r w'.store ∧ w'.now = w.now ∧ w'.disk = w.disk

end Site

/-- Programs one after another, each to its end or to where it is killed. -/
def workshop : System Unit Call Ans Site where
  answers _ c w r w' := w.Answers c r w'
  moves := Site.Moves
  starts _ := AnyProgram

/-! ## What rows record of the disk -/

namespace Site

/-- Jobs are staged in their own directories, and where a file of a staged job shares its inode
    with the library, the row says so. -/
structure Recorded (w : Site) : Prop where
  home : ∀ id r dir, w.store.jobs.get? id = some r → r.stagingDir = some dir → dir = id.home
  hardlinks : ∀ id r f, w.store.jobs.get? id = some r → r.Past → f ∈ w.store.fileRows id →
    w.disk.Aliases (f.torrentPath.under id.home) → r.materialization = some .hardlink

/-- A patch records how the plan it writes lies on disk. -/
def Delivers (w : Site) (id : JobId) (patch : JobPatch) : Prop :=
  ∃ files, patch.files = some files ∧ ∀ f ∈ files,
    w.disk.Aliases (f.torrentPath.under id.home) → patch.materialization = some .hardlink

/-- What has to be true of the world for a call to keep the rows true of the disk. -/
def Safe (w : Site) : Call → Prop
  | .store (.apply id t u) => u.patch.Homed id ∧ ∀ r, w.store.jobs.get? id = some r →
    r.state = t.fromState → t.Past → (r.Past ∧ u.patch.Planless) ∨ w.Delivers id u.patch
  | .store (.recordProgress id patch) => patch.Homed id ∧ patch.materialization = none
  | .store (.setReviewResumePoint id state) => ∀ r, w.store.jobs.get? id = some r →
    r.state = .awaitingReview → reconcileRank .staged ≤ reconcileRank state → r.Past
  | .staging (.materialize plan _) => ∀ id r f item, w.store.jobs.get? id = some r → r.Past →
    f ∈ w.store.fileRows id → item ∈ plan.items → item.destination ≠ f.torrentPath.under id.home
  | _ => True

/-- What an attempt finds at its destinations is no hardlink, or recorded as one. -/
def Trusting (w : Site) : Call → Prop
  | .staging (.materialize plan _) => ∀ item ∈ plan.items, w.disk.Trusts item
  | _ => True

variable {w w' : Site} {c : Call}

theorem Delivers.weaken {id : JobId} {patch : JobPatch} (h : w.Delivers id patch)
    (ha : ∀ d, w'.disk.Aliases d → w.disk.Aliases d) : w'.Delivers id patch := by
  obtain ⟨files, hfiles, hlinks⟩ := h
  exact ⟨files, hfiles, fun f hf hd => hlinks f hf (ha _ hd)⟩

/-- A row that was just discovered is not staged. -/
theorem not_past_discoveredRow {id : JobId} {now : Stamp} {h : HitAndRun} :
    ¬(discoveredRow id now h).Past := by
  have hdiscovered : ¬RepairState.StagedOrLater .discovered := by decide
  rintro (h | ⟨h, -⟩)
  · exact hdiscovered h
  · cases h

/-- A row after a discovery was there before, or is new. -/
theorem discovered_cases {s s' : SqliteRepairStore} {now : Time} {h : HitAndRun} {d : Discovered}
    (hok : s.recordDiscovery now h = .ok (d, s')) {id : JobId} {r : JobRow}
    (hr : s'.jobs.get? id = some r) : s.jobs.get? id = some r ∨
      ∃ id', r = discoveredRow id' (timestamp now) h := by
  rcases SqliteRepairStore.recordDiscovery_cases hok with rfl | ⟨id', row, -, -, -, hrows⟩
  · exact .inl hr
  · rw [hrows] at hr
    split_ifs at hr
    · exact .inr ⟨id', (Option.some.inj hr).symm⟩
    · exact .inl hr

theorem fileRows_of_files {s s' : SqliteRepairStore} (h : s'.files = s.files) (id : JobId) :
    s'.fileRows id = s.fileRows id := by
  unfold SqliteRepairStore.fileRows
  rw [h]

theorem Recorded.moves (h : w.Recorded) (hm : Moves w w') : w'.Recorded := by
  cases hm with
  | pass later => exact ⟨h.home, h.hardlinks⟩
  | tamper tampered =>
    exact ⟨h.home, fun id r f hr hpast hf ha => h.hardlinks id r f hr hpast hf (tampered.aliases ha)⟩
  | discovery recorded =>
    refine ⟨fun id r dir hr hdir => ?_, fun id r f hr hpast hf ha => ?_⟩
    · rcases discovered_cases recorded hr with hr | ⟨id', rfl⟩
      · exact h.home id r dir hr hdir
      · cases hdir
    · rcases discovered_cases recorded hr with hr | ⟨id', rfl⟩
      · rw [fileRows_of_files (SqliteRepairStore.recordDiscovery_files recorded)] at hf
        exact h.hardlinks id r f hr hpast hf ha
      · exact absurd hpast not_past_discoveredRow

/-- What was safe stays so until the call is made. -/
theorem Safe.moves (h : w.Safe c) (hm : Moves w w') : w'.Safe c := by
  cases hm with
  | pass later => exact h
  | tamper tampered =>
    cases c with
    | store c =>
      cases c with
      | apply id t u =>
        refine ⟨h.1, fun r hr hfrom hpast => ?_⟩
        exact (h.2 r hr hfrom hpast).imp_right fun hd => hd.weaken fun _ ha => tampered.aliases ha
      | _ => exact h
    | staging c => cases c <;> exact h
    | _ => exact h
  | discovery recorded =>
    cases c with
    | store c =>
      cases c with
      | apply id t u =>
        refine ⟨h.1, fun r hr hfrom hpast => ?_⟩
        rcases discovered_cases recorded hr with hr | ⟨id', rfl⟩
        · exact h.2 r hr hfrom hpast
        · have hdiscovered : t.fromState = .discovered := hfrom.symm
          rcases hpast.cases with hs | ⟨-, hs, -⟩ | ⟨-, hs⟩
          · rw [hdiscovered] at hs
            exact absurd hs (by decide)
          · exact absurd (hdiscovered.symm.trans hs) (by decide)
          · exact absurd (hdiscovered.symm.trans hs) (by decide)
      | setReviewResumePoint id state =>
        intro r hr hparked hrank
        rcases discovered_cases recorded hr with hr | ⟨id', rfl⟩
        · exact h r hr hparked hrank
        · cases hparked
      | _ => exact h
    | staging c =>
      cases c with
      | materialize plan preference =>
        intro id r f item hr hpast hf
        rw [fileRows_of_files (SqliteRepairStore.recordDiscovery_files recorded)] at hf
        rcases discovered_cases recorded hr with hr | ⟨id', rfl⟩
        · exact h id r f item hr hpast hf
        · exact absurd hpast not_past_discoveredRow
      | _ => exact h
    | _ => exact h

/-- The rows stay true of the disk when what is written is true of it. -/
theorem Recorded.write (h : w.Recorded) {s : SqliteRepairStore}
    (hrows : ∀ k r', s.jobs.get? k = some r' → ∃ r, w.store.jobs.get? k = some r ∧
      (∀ dir, r'.stagingDir = some dir → r.stagingDir = some dir ∨ dir = k.home) ∧
      (r'.Past → (r.Past ∧ r'.materialization = r.materialization ∧
          ∀ f ∈ s.fileRows k, ∃ f₀ ∈ w.store.fileRows k, f₀.torrentPath = f.torrentPath) ∨
        ∀ f ∈ s.fileRows k, w.disk.Aliases (f.torrentPath.under k.home) →
          r'.materialization = some .hardlink)) : Recorded { w with store := s } where
  home k r' dir hr' hdir := by
    obtain ⟨r, hr, hhome, -⟩ := hrows k r' hr'
    rcases hhome dir hdir with hold | hnew
    · exact h.home k r dir hr hold
    · exact hnew
  hardlinks k r' f hr' hpast hf ha := by
    obtain ⟨r, hr, -, hlinks⟩ := hrows k r' hr'
    rcases hlinks hpast with ⟨hpast₀, hsame, hfiles⟩ | hdelivered
    · obtain ⟨f₀, hf₀, hpath⟩ := hfiles f hf
      rw [hsame]
      refine h.hardlinks k r f₀ hr hpast₀ hf₀ ?_
      rw [hpath]
      exact ha
    · exact hdelivered f hf ha

theorem orElse_eq {α : Type} {a b : Option α} {x : α} (h : (a <|> b) = some x) : b = some x ∨ a = some x := by
  cases a with
  | none => exact .inl h
  | some a => exact .inr h

/-- What a transition writes is true of the disk where it is safe. -/
theorem Recorded.apply (h : w.Recorded) {id : JobId} {t : Transition} {u : TransitionUpdate}
    (hsafe : w.Safe (.store (.apply id t u))) {s : SqliteRepairStore} {r : JobRow}
    (hr : w.store.jobs.get? id = some r) (hfrom : r.state = t.fromState)
    (happlied : w.store.apply w.now id t u = .ok (.applied, s)) : Recorded { w with store := s } := by
  refine h.write fun k r' hr' => ?_
  rw [SqliteRepairStore.apply_applied_get happlied] at hr'
  obtain ⟨r₀, hr₀, rfl⟩ := Option.map_eq_some_iff.1 hr'
  refine ⟨r₀, hr₀, ?_⟩
  unfold SqliteRepairStore.movedRow
  by_cases hid : r₀.id = id
  · obtain rfl : k = id := (Table.get?_some hr₀).2.symm.trans hid
    obtain rfl := Option.some.inj (hr.symm.trans hr₀)
    rw [if_pos hid]
    refine ⟨fun dir hdir => (orElse_eq hdir).imp_right (hsafe.1 dir), fun hpast => ?_⟩
    rcases hsafe.2 r hr hfrom (past_movedRow.1 hpast) with ⟨hpast₀, hplanless⟩ | ⟨files, hfiles, hlinks⟩
    · refine .inl ⟨hpast₀, ?_, fun f hf => ?_⟩
      · show (u.patch.materialization <|> r.materialization) = r.materialization
        rw [hplanless.materialization]
        rfl
      · rcases SqliteRepairStore.apply_applied_fileRows happlied hf with ⟨-, files, hfiles, -⟩ | ⟨-, hf₀⟩
        · rw [hplanless.files] at hfiles
          cases hfiles
        · exact hf₀
    · refine .inr fun f hf ha => ?_
      rcases SqliteRepairStore.apply_applied_fileRows happlied hf with
        ⟨-, files', hfiles', f₀, hf₀, hpath⟩ | ⟨hnone, -⟩
      · obtain rfl := Option.some.inj (hfiles.symm.trans hfiles')
        show (u.patch.materialization <|> r.materialization) = some .hardlink
        rw [hlinks f₀ hf₀ (by rw [hpath]; exact ha)]
        rfl
      · rw [hnone rfl] at hfiles
        cases hfiles
  · rw [if_neg hid]
    refine ⟨fun dir hdir => .inl hdir, fun hpast => .inl ⟨hpast, rfl, fun f hf => ?_⟩⟩
    rcases SqliteRepairStore.apply_applied_fileRows happlied hf with ⟨hk, -⟩ | ⟨-, hf₀⟩
    · exact absurd ((Table.get?_some hr₀).2.trans hk) hid
    · exact hf₀

/-- What a call of the store writes is true of the disk where it is safe. -/
theorem Recorded.replies (h : w.Recorded) {c : StoreCall} (hsafe : w.Safe (.store c)) {a : c.Ans}
    {s : SqliteRepairStore} (ha : w.store.Answers w.now c a s) : Recorded { w with store := s } := by
  rcases ha.served_or_failed with ⟨-, rfl⟩ | ⟨_, -, rfl⟩
  · by_cases hc : ∃ id t u, c = .apply id t u
    · obtain ⟨id, t, u, rfl⟩ := hc
      simp only [SqliteRepairStore.answer]
      cases happly : w.store.apply w.now id t u with
      | error e => exact ⟨h.home, h.hardlinks⟩
      | ok a =>
        obtain ⟨a, s⟩ := a
        obtain ⟨r, hr, ⟨rfl, hfrom, -⟩ | ⟨-, -, -, rfl⟩⟩ := SqliteRepairStore.apply_ok happly
        · exact h.apply hsafe hr hfrom happly
        · exact ⟨h.home, h.hardlinks⟩
    · have hfiles : (w.store.answer w.now c).2.files = w.store.files :=
        SqliteRepairStore.answer_files fun id t u he => hc ⟨id, t, u, he⟩
      refine h.write fun k r' hr' => ?_
      obtain ⟨r, hr, hchanged⟩ := (SqliteRepairStore.answer_wrote w.now c).changed hr'
      have hk : r.id = k := (Table.get?_some hr).2
      refine ⟨r, hr, ?_⟩
      have hplan : ∀ f ∈ (w.store.answer w.now c).2.fileRows k,
          ∃ f₀ ∈ w.store.fileRows k, f₀.torrentPath = f.torrentPath :=
        fun f hf => ⟨f, fileRows_of_files hfiles k ▸ hf, rfl⟩
      cases hchanged with
      | moved call => exact absurd ⟨_, _, _, call⟩ hc
      | @patched patch call =>
        subst call
        refine ⟨fun dir hdir => (orElse_eq hdir).imp_right fun hnew => hk ▸ hsafe.1 dir hnew,
          fun hpast => .inl ⟨hpast, ?_, hplan⟩⟩
        show (patch.materialization <|> r.materialization) = r.materialization
        rw [hsafe.2]
        rfl
      | repointed call parked recorded =>
        subst call
        refine ⟨fun dir hdir => .inl hdir, fun hpast => .inl ⟨?_, rfl, hplan⟩⟩
        rcases hpast with hlater | ⟨-, s, hs, hrank⟩
        · exact .inl hlater
        · cases hs
          exact hsafe r (hk ▸ hr) parked hrank
      | rescheduled hr =>
        obtain ⟨owner, expires, next, attempts, updated, rfl⟩ := hr
        exact ⟨fun dir hdir => .inl hdir, fun hpast => .inl ⟨hpast, rfl, hplan⟩⟩
  · exact ⟨h.home, h.hardlinks⟩

/-- Every safe call that trusts what it may keeps the rows true of the disk. -/
theorem Recorded.answers (h : w.Recorded) (hsafe : w.Safe c) {r : Ans c} (ha : w.Answers c r w') :
    w'.Recorded := by
  have hsame : ∀ {s : SqliteRepairStore} {now : Time} {disk : Disk}, s = w.store → disk = w.disk →
      Recorded ⟨s, now, disk⟩ := by
    rintro s now disk rfl rfl
    exact ⟨h.home, h.hardlinks⟩
  obtain ⟨s, now, disk⟩ := w'
  cases c with
  | store c =>
    obtain ⟨ha, rfl, rfl⟩ := ha
    exact h.replies hsafe ha
  | staging c =>
    cases c with
    | materialize plan preference =>
      obtain ⟨l, host, hmaterialize, rfl, rfl⟩ := ha
      obtain ⟨hwithin, -⟩ := LocalStaging.materialize_cases hmaterialize
      refine ⟨h.home, fun id r f hr hpast hf ha => ?_⟩
      have hapart : f.torrentPath.under id.home ∉ plan.items.map PlanItem.destination := by
        intro hmem
        obtain ⟨item, hitem, he⟩ := List.mem_map.1 hmem
        exact hsafe id r f item hr hpast hf hitem he
      exact h.hardlinks id r f hr hpast hf ((hwithin.aliases hapart).1 ha)
    | inspect plan =>
      obtain ⟨-, rfl⟩ := ha
      exact h
    | discard dir =>
      obtain ⟨hdiscarded, rfl, rfl⟩ := ha
      exact ⟨h.home, fun id r f hr hpast hf ha =>
        h.hardlinks id r f hr hpast hf (hdiscarded.tampered.aliases ha)⟩
  | now => exact hsame ha.1.2 ha.2.2
  | _ => exact hsame ha.1 ha.2.2

end Site

end SeedMedic
