/-
  Whether staging finds a candidate as matching found it, in a library that does not change.
-/
import SeedMedic.Library.Arr
import SeedMedic.Repair.Calls
import SeedMedic.Repair.MatchedPlan
import SeedMedic.Staging.Confined
import SeedMedic.Staging.Errors

namespace SeedMedic

open Lib FileTree Staging

/-! ## LibraryView at a tree -/

/-- What the system answers of a tree that does not change: what is told of a path is told of the
    entry that the path leads to. -/
structure TruthfulView (sys : LibraryView) (at' : Place) (fs : FileTree FileName)
    (entry : List FileName → Metadata) : Prop where
  describes : ∀ l, fs.node l ≠ none → Describes fs l (entry l)
  /-- Lengths are signed numbers to the system. -/
  bounded : ∀ l, fs.node l ≠ none → (entry l).len ≤ i64Max
  followed : ∀ {p m}, sys.metadata p = .ok m →
    ∃ l, at'.LeadsTo true fs (.host p) l ∧ fs.node l ≠ none ∧ m = entry l
  looked : ∀ {p m}, sys.symlinkMetadata p = .ok m →
    ∃ l, at'.LeadsTo p.endsOpen fs (.host p) l ∧ fs.node l ≠ none ∧ m = entry l
  /-- What can be followed to its end can be reached. -/
  reached : ∀ {p m}, sys.metadata p = .ok m → ∃ m', sys.symlinkMetadata p = .ok m'
  noNul : ∀ {p m}, sys.metadata p = .ok m → 0 ∉ p.bytes

/-- The entry that a path names is a symbolic link. -/
def EndsInLink (at' : Place) (fs : FileTree FileName) (p : PathBuf) : Prop :=
  ∃ l a t, at'.LeadsTo p.endsOpen fs (.host p) l ∧ fs.node l = some (.link a t)

section
variable {sys : LibraryView} {at' : Place} {fs : FileTree FileName} {entry : List FileName → Metadata}

/-- Where a path does not end in a link, both looks see the same. -/
theorem TruthfulView.look (h : TruthfulView sys at' fs entry) {p : PathBuf} {m : Metadata}
    (hm : sys.metadata p = .ok m) (hlink : ¬EndsInLink at' fs p) : sys.symlinkMetadata p = .ok m := by
  obtain ⟨m', hm'⟩ := h.reached hm
  obtain ⟨l, hl, -, rfl⟩ := h.followed hm
  obtain ⟨l', hl', -, rfl⟩ := h.looked hm'
  have hnoLink : fs.NoLink l' := fun a t hnode => hlink ⟨l', a, t, hl', hnode⟩
  have hfollowed : at'.LeadsTo true fs (.host p) l' := by
    cases hopen : p.endsOpen with
    | true =>
      rw [hopen] at hl'
      exact hl'
    | false =>
      rw [hopen] at hl'
      exact Leads.followed hl' hnoLink
  rw [hm', hl.unique hfollowed]

theorem TruthfulView.look_le (h : TruthfulView sys at' fs entry) {p : PathBuf} {m : Metadata}
    (hm : sys.symlinkMetadata p = .ok m) : m.len ≤ i64Max := by
  obtain ⟨l, -, hnode, rfl⟩ := h.looked hm
  exact h.bounded l hnode

/-- A candidate that one of the two sources offers. -/
def FromLibrary (sys : LibraryView) (c : Candidate) : Prop :=
  (∃ (a : ArrCandidateSource) (api : ArrApi) (query : CandidateQuery) (found : List Candidate),
    a.findCandidates sys api query = .ok found ∧ c ∈ found) ∨
  ∃ root fuel query found,
    Filesystem.findCandidates sys.toAnswers root fuel query = some (.ok found) ∧ c ∈ found

/-- What a candidate leads to has its length; so has the entry it names, unless that is a link. -/
theorem FromLibrary.look {c : Candidate} (hc : FromLibrary sys c) (h : TruthfulView sys at' fs entry) :
    c.sizeBytes ≤ i64Max ∧
      (¬EndsInLink at' fs c.path → ∃ m, sys.symlinkMetadata c.path = .ok m ∧ m.len = c.sizeBytes) := by
  rcases hc with ⟨a, api, query, found, hfound, hc⟩ | ⟨root, fuel, query, found, hfound, hc⟩
  · obtain ⟨m, hm, hlen⟩ := ArrCandidateSource.findCandidates_leads hfound c hc
    obtain ⟨l, -, hnode, hentry⟩ := h.followed hm
    refine ⟨?_, fun hlink => ⟨m, h.look hm hlink, hlen⟩⟩
    rw [← hlen, hentry]
    exact h.bounded l hnode
  · obtain ⟨m, hm, -, hlen⟩ := Filesystem.findCandidates_looked hfound c hc
    exact ⟨hlen ▸ h.look_le hm, fun _ => ⟨m, hm, hlen⟩⟩

end

/-! ## What staging says of a source -/

/-- An answer that agrees with what the system tells of the library. -/
def ToldOf (sys : LibraryView) : (c : FsCall) → c.Ans → Prop
  | .symlinkMetadata (.host p), r => r.toOption = (sys.symlinkMetadata p).toOption
  | .metadata (.host p), r => r.toOption = (sys.metadata p).toOption
  | _, _ => True

/-- Runs that see the library as it is. -/
def looking (sys : LibraryView) : Rules FsCall FsCall.Ans Unit where
  may _ _ := True
  next c r _ _ := ToldOf sys c r

/-- Whether an error says that a source is not as it was. -/
def StagingError.isSource : StagingError → Bool
  | .sourceMissing _ | .sourceChanged .. => true
  | _ => false

/-- If it fails, then not because of a source. -/
def Innocent {α : Type} (r : Except StagingError α) : Prop := ∀ e, r = .error e → e.isSource = false

/-- An error about a source is right about an item. -/
def Justified (sys : LibraryView) (items : List PlanItem) (e : StagingError) : Prop :=
  e.isSource = true → ∃ item ∈ items,
    (e = .sourceMissing item.source ∧ ∀ m, sys.symlinkMetadata item.source ≠ .ok m) ∨
    ∃ m, e = .sourceChanged item.source item.length m.len ∧
      sys.symlinkMetadata item.source = .ok m ∧ m.len ≠ item.length

theorem Justified.mono {sys : LibraryView} {items items' : List PlanItem} {e : StagingError}
    (h : Justified sys items e) (hitems : items ⊆ items') : Justified sys items' e := fun he =>
  (h he).imp fun _ hitem => ⟨hitems hitem.1, hitem.2⟩

section
variable {α : Type}

theorem innocent_ok (a : α) : Innocent (.ok a) := nofun

theorem innocent_error {e : StagingError} (h : e.isSource = false) :
    Innocent (.error e : Except StagingError α) := by
  rintro _ ⟨⟩
  exact h

theorem Innocent.of_error {β : Type} {e : StagingError}
    (h : Innocent (.error e : Except StagingError α)) : Innocent (.error e : Except StagingError β) :=
  innocent_error (h e rfl)

theorem Usual.innocent {r : Except StagingError α} (h : Usual r) : Innocent r := by
  intro e he
  cases e with
  | sourceMissing | sourceChanged => cases h _ he
  | _ => rfl

theorem Innocent.justified {sys : LibraryView} {items : List PlanItem} {r : Except StagingError α}
    (h : Innocent r) : ∀ e, r = .error e → Justified sys items e := by
  intro e he hsource
  rw [h e he] at hsource
  cases hsource

end

namespace Staging

variable (l : LocalStaging)

theorem checkSpace_innocent (needed : ℕ) : (checkSpace l needed).Returns Innocent := by
  unfold checkSpace availableBytes
  split_ifs
  · exact innocent_error rfl
  · intro r
    rcases r with e | available
    · exact innocent_error rfl
    · change Prog.Returns _ (ite _ _ _)
      split_ifs
      · exact innocent_error rfl
      · exact innocent_ok _
  · exact innocent_ok _

variable {l} {sys : LibraryView}

theorem materializeNew_justified (item : PlanItem) (destination : FsPath)
    (preference : List MaterializationStrategy) (stagingDev : ℕ) (probes : DeviceProbes) :
    (materializeNew l item destination preference stagingDev probes).Obeys (looking sys) ()
      fun r _ => ∀ e, r.1 = .error e → Justified sys [item] e := by
  rw [materializeNew, Sys.ask_bind, Prog.obeys_call]
  refine ⟨trivial, fun r _ hr => ?_⟩
  have hseen : r.toOption = (sys.symlinkMetadata item.source).toOption := hr
  rcases r with e | m
  · -- it cannot be looked at
    rintro _ ⟨⟩ -
    refine ⟨item, List.mem_singleton_self _, .inl ⟨rfl, fun m hm => ?_⟩⟩
    rw [hm] at hseen
    cases hseen
  · have hlook : sys.symlinkMetadata item.source = .ok m := by
      cases hsys : sys.symlinkMetadata item.source with
      | error e =>
        rw [hsys] at hseen
        cases hseen
      | ok m' =>
        rw [hsys] at hseen
        cases hseen
        rfl
    dsimp only
    split_ifs with hlen
    · rintro _ ⟨⟩ -
      exact ⟨item, List.mem_singleton_self _, .inr ⟨m, rfl, hlook, hlen⟩⟩
    · refine ((createEach_usual l _ _).obeys (fun _ _ => trivial) ()).bind fun r _ h => ?_
      rcases r with e | ⟨⟩
      · exact h.of_error.innocent.justified
      · refine ((Prog.Returns.all _).obeys (fun _ _ => trivial) ()).bind fun r _ _ => ?_
        refine ((attemptAll_usual l item _ _ _ none (by simp)).obeys (fun _ _ => trivial) ()).bind
          fun r _ h => ?_
        exact h.innocent.justified

theorem materializeOne_justified (item : PlanItem) (preference : List MaterializationStrategy)
    (stagingDev : ℕ) (probes : DeviceProbes) :
    (materializeOne l item preference stagingDev probes).Obeys (looking sys) ()
      fun r _ => ∀ e, r.1 = .error e → Justified sys [item] e := by
  refine ((resolveUnder_usual l item.destination).obeys (fun _ _ => trivial) ()).bind
    fun r _ h => ?_
  rcases r with e | destination
  · exact h.of_error.innocent.justified
  dsimp only
  rw [Sys.ask_bind, Prog.obeys_call]
  refine ⟨trivial, fun r _ _ => ?_⟩
  rcases r with e | m
  · exact materializeNew_justified item destination preference stagingDev probes
  · dsimp only
    split_ifs
    · exact (innocent_error rfl).justified
    · exact (innocent_ok _).justified
    · rw [Sys.ask_bind, Prog.obeys_call]
      refine ⟨trivial, fun r _ _ => ?_⟩
      rcases r with e | ⟨⟩
      · exact (innocent_error rfl).justified
      · exact materializeNew_justified item destination preference stagingDev probes

theorem materializeAll_justified (preference : List MaterializationStrategy) (stagingDev : ℕ)
    (items : List PlanItem) : ∀ probes,
    (materializeAll l preference stagingDev items probes).Obeys (looking sys) ()
      fun r _ => ∀ e, r.1 = .error e → Justified sys items e := by
  induction items with
  | nil => exact fun _ => nofun
  | cons item items ih =>
    intro probes
    refine (materializeOne_justified item preference stagingDev probes).bind fun r _ h => ?_
    obtain ⟨staged, probes₁⟩ := r
    rcases staged with e | file
    · rintro _ ⟨⟩
      exact (h e rfl).mono (List.cons_subset_cons item (List.nil_subset items))
    · refine (ih probes₁).bind fun r _ h => ?_
      obtain ⟨files, probes₂⟩ := r
      rintro e he
      rcases files with e' | files
      · cases he
        exact (h e rfl).mono (List.subset_cons_self item items)
      · cases he

/-- An error about a source says what the system says of it. -/
theorem materialize_justified (plan : MaterializationPlan)
    (preference : List MaterializationStrategy) (probes : DeviceProbes) :
    (materialize l plan preference probes).Obeys (looking sys) ()
      fun r _ => ∀ e, r.1 = .error e → Justified sys plan.items e := by
  refine ((deviceId_usual l).obeys (fun _ _ => trivial) ()).bind fun r _ h => ?_
  rcases r with e | stagingDev
  · exact h.of_error.innocent.justified
  refine ((Prog.Returns.all _).obeys (fun _ _ => trivial) ()).bind fun r _ _ => ?_
  refine ((requiredNewBytes_usual l _ _ _ _ _).obeys (fun _ _ => trivial) ()).bind fun r _ h => ?_
  obtain ⟨needed, probes₂⟩ := r
  rcases needed with e | needed
  · exact h.of_error.innocent.justified
  refine ((checkSpace_innocent l needed).obeys (fun _ _ => trivial) ()).bind fun r _ h => ?_
  rcases r with e | ⟨⟩
  · exact h.of_error.justified
  refine (materializeAll_justified preference stagingDev plan.items probes₂).bind fun r _ h => ?_
  obtain ⟨files, probes₃⟩ := r
  intro e he
  rcases files with e' | files
  · cases he
    exact h e rfl
  · cases he

/-! ## A run up to a source -/

/-- Answers as the library is, where nothing lies in the staging root and there is space. -/
def emptyRoot (sys : LibraryView) (space : ℕ) : (c : FsCall) → c.Ans
  | .symlinkMetadata (.host p) => (sys.symlinkMetadata p).mapError fun e => ⟨.other, e⟩
  | .metadata (.host p) => (sys.metadata p).mapError fun e => ⟨.other, e⟩
  | .symlinkMetadata (.staged _) | .metadata (.staged _) => .error ⟨.notFound, "not found"⟩
  | .statvfs _ => .ok space
  | .createDir _ | .removeFile _ | .removeDirAll _ | .write .. | .copy .. | .hardLink ..
  | .reflink .. => .ok ()

theorem toldOf_emptyRoot (space : ℕ) (c : FsCall) : ToldOf sys c (emptyRoot sys space c) := by
  cases c with
  | symlinkMetadata p =>
    cases p with
    | staged names => trivial
    | host path =>
      change ((sys.symlinkMetadata path).mapError _).toOption = _
      cases sys.symlinkMetadata path <;> rfl
  | metadata p =>
    cases p with
    | staged names => trivial
    | host path =>
      change ((sys.metadata path).mapError _).toOption = _
      cases sys.metadata path <;> rfl
  | _ => trivial

section
variable {space : ℕ} {m : Metadata}

theorem resolveUnder_emptyRoot (hroot : sys.symlinkMetadata l.root = .ok m)
    (hlink : m.fileType ≠ .symlink) (path : SafeRelativePath) :
    (resolveUnder l path).eval (emptyRoot sys space) = .ok (joined path) := by
  have hself : (rejectIfSymlink l (.host l.root)).eval (emptyRoot sys space) = .ok () := by
    rw [rejectIfSymlink, Sys.ask_bind, Prog.eval_call, emptyRoot, hroot]
    exact congrArg (Prog.eval _) (if_neg hlink)
  have hparents : ∀ components current,
      (rejectSymlinks l current components).eval (emptyRoot sys space) = .ok () := by
    intro components
    induction components with
    | nil => exact fun _ => rfl
    | cons component components ih =>
      intro current
      rw [rejectSymlinks, Prog.eval_bind]
      exact ih _
  rw [resolveUnder, Prog.eval_bind, hself]
  dsimp only
  rw [Prog.eval_bind, hparents]
  rfl

/-- Both devices are known to do everything. -/
def knownDevices : DeviceProbes := fun _ => some ⟨true, .supported⟩

theorem planReflinkProbe_known (items : List PlanItem) (preference : List MaterializationStrategy)
    (stagingDev : ℕ) : ∃ reflink, (planReflinkProbe items preference stagingDev knownDevices).eval
      (emptyRoot sys space) = (reflink, knownDevices) := by
  unfold planReflinkProbe
  split_ifs
  · cases items with
    | nil => exact ⟨none, rfl⟩
    | cons item items =>
      dsimp only
      rw [Sys.ask_bind, Prog.eval_call]
      cases emptyRoot sys space (.symlinkMetadata (.host item.source)) with
      | error e => exact ⟨none, rfl⟩
      | ok m => exact ⟨some .supported, rfl⟩
  · exact ⟨none, rfl⟩

theorem requiredNewBytes_known (hroot : sys.symlinkMetadata l.root = .ok m)
    (hlink : m.fileType ≠ .symlink) (preference : List MaterializationStrategy) (stagingDev : ℕ)
    (items : List PlanItem) : ∀ total, total < wordSize → ∃ needed, needed < wordSize ∧
      (requiredNewBytes l preference stagingDev items total knownDevices).eval
        (emptyRoot sys space) = (.ok needed, knownDevices) := by
  have hsaturates : ∀ a b, LocalStaging.saturatingAdd a b < wordSize := fun a b =>
    (min_le_right _ _).trans_lt (Nat.sub_lt (by decide) Nat.one_pos)
  induction items with
  | nil => exact fun total htotal => ⟨total, htotal, rfl⟩
  | cons item items ih =>
    intro total _
    rw [requiredNewBytes, Prog.eval_bind, resolveUnder_emptyRoot hroot hlink]
    dsimp only
    rw [Prog.eval_bind]
    change ∃ needed, needed < wordSize ∧ Prog.eval (emptyRoot sys space) (Sys.ask _ >>= _) = _
    rw [Sys.ask_bind, Prog.eval_call]
    cases emptyRoot sys space (.metadata (.host item.source)) with
    | error e => exact ih _ (hsaturates _ _)
    | ok m => exact ih _ (hsaturates _ _)

theorem checkSpace_emptyRoot (hroot : 0 ∉ l.root.bytes) {needed : ℕ}
    (hneeded : needed + l.minFreeBytes ≤ space) :
    (checkSpace l needed).eval (emptyRoot sys space) = .ok () := by
  unfold checkSpace availableBytes
  rw [if_neg hroot]
  split_ifs
  · exact congrArg (Prog.eval _) (if_neg (by omega))
  · rfl

/-- A source that is not as the plan says is found out. -/
theorem materialize_emptyRoot {m' : Metadata} (hdevice : sys.metadata l.root = .ok m')
    (hroot : sys.symlinkMetadata l.root = .ok m) (hlink : m.fileType ≠ .symlink)
    (hnul : 0 ∉ l.root.bytes) (hspace : wordSize + l.minFreeBytes ≤ space) (item : PlanItem)
    (preference : List MaterializationStrategy)
    (hsource : ∀ m, sys.symlinkMetadata item.source = .ok m → m.len ≠ item.length) :
    ∃ e, (e = .sourceMissing item.source ∨
        ∃ actual, e = .sourceChanged item.source item.length actual) ∧
      ((materialize l ⟨[item]⟩ preference knownDevices).eval (emptyRoot sys space)).1 = .error e := by
  have hdev : (deviceId l).eval (emptyRoot sys space) = .ok m'.dev := by
    rw [deviceId, Sys.ask_bind, Prog.eval_call, emptyRoot, hdevice]
    rfl
  obtain ⟨reflink, hreflink⟩ : ∃ reflink, (planReflinkProbe [item] preference m'.dev
      knownDevices).eval (emptyRoot sys space) = (reflink, knownDevices) :=
    planReflinkProbe_known [item] preference m'.dev
  obtain ⟨needed, hneeded, hrequired⟩ : ∃ needed, needed < wordSize ∧
      (requiredNewBytes l preference m'.dev [item] 0 knownDevices).eval (emptyRoot sys space) =
        (.ok needed, knownDevices) :=
    requiredNewBytes_known hroot hlink preference m'.dev [item] 0 (by decide)
  have hone : ∃ e, (e = .sourceMissing item.source ∨
      ∃ actual, e = .sourceChanged item.source item.length actual) ∧
      (materializeOne l item preference m'.dev knownDevices).eval (emptyRoot sys space) =
        (.error e, knownDevices) := by
    rw [materializeOne, Prog.eval_bind, resolveUnder_emptyRoot hroot hlink]
    change ∃ e, _ ∧ (materializeNew l item (joined item.destination) preference m'.dev
      knownDevices).eval (emptyRoot sys space) = _
    rw [materializeNew, Sys.ask_bind, Prog.eval_call, emptyRoot]
    cases hlook : sys.symlinkMetadata item.source with
    | error e => exact ⟨_, .inl rfl, rfl⟩
    | ok source =>
      exact ⟨_, .inr ⟨source.len, rfl⟩, congrArg (Prog.eval _) (if_pos (hsource source hlook))⟩
  obtain ⟨e, hkind, hone⟩ := hone
  refine ⟨e, hkind, ?_⟩
  rw [materialize, Prog.eval_bind, hdev]
  dsimp only
  rw [Prog.eval_bind, hreflink]
  dsimp only
  rw [Prog.eval_bind, hrequired]
  dsimp only
  rw [Prog.eval_bind, checkSpace_emptyRoot hnul (by omega)]
  dsimp only
  rw [Prog.eval_bind, materializeAll, Prog.eval_bind, hone]
  rfl

end

end Staging

/-! ## What becomes of a chosen candidate -/

/-- What a materialization can come to, with the library as it is. -/
def CanStage (l : LocalStaging) (sys : LibraryView) (plan : MaterializationPlan)
    (preference : List MaterializationStrategy) (r : Except StagingError StagedLayout) : Prop :=
  ∃ probes, ¬(materialize l plan preference probes).Obeys (looking sys) () fun a _ => a.1 ≠ r

/-- What a step hears that stages a stored plan; it is kept why staging failed. -/
def stagingStep (l : LocalStaging) (sys : LibraryView) (planned : List PlannedFile) :
    Rules Call Ans (Option StagingError) where
  may _ _ := True
  next
    | .store (.plannedFiles _), r, s, s' => r = .ok planned ∧ s' = s
    | .staging (.materialize plan preference), r, _, s' =>
      CanStage l sys plan preference r ∧ s' = match r with
        | .error e => some e
        | .ok _ => none
    | _, _, s, s' => s' = s

/-- The error is about the source of a planned file. -/
def Blames (e : StagingError) (f : PlannedFile) : Prop :=
  ∃ p, f.source = some p ∧ (e = .sourceMissing p ∨ ∃ actual, e = .sourceChanged p f.length actual)

/-- No step that stages a plan with the file parks because of the file's source. -/
def NeverBlamed (l : LocalStaging) (sys : LibraryView) (f : PlannedFile) : Prop :=
  ∀ deps job planned, f ∈ planned → (stageFiles deps job).Obeys (stagingStep l sys planned) none
    fun outcome s => ∀ e, s = some e → outcome = .hold .libraryChanged (errorJson e.toText) →
      ¬Blames e f

section
variable {l : LocalStaging} {sys : LibraryView}

/-- A materialization comes to justified errors. -/
theorem CanStage.justified {plan : MaterializationPlan} {preference : List MaterializationStrategy}
    {e : StagingError} (h : CanStage l sys plan preference (.error e)) :
    Justified sys plan.items e := by
  obtain ⟨probes, hrun⟩ := h
  by_contra hnot
  refine hrun ((materialize_justified plan preference probes).mono fun a _ ha he => hnot ?_)
  exact ha e he

/-- A file that is at its place with its length is not blamed. -/
theorem neverBlamed_of_look {f : PlannedFile} {p : PathBuf} {m : Metadata}
    (hsource : f.source = some p) (hlook : sys.symlinkMetadata p = .ok m)
    (hlen : m.len = f.length) : NeverBlamed l sys f := by
  have hjustified : ∀ {items : List PlanItem} {e}, Justified sys items e → ¬Blames e f := by
    rintro items e hjust ⟨p', hp', hblame⟩
    obtain rfl : p = p' := Option.some.inj (hsource.symm.trans hp')
    obtain ⟨item, -, hitem⟩ := hjust (by rcases hblame with rfl | ⟨actual, rfl⟩ <;> rfl)
    rcases hblame with rfl | ⟨actual, rfl⟩
    · rcases hitem with ⟨he, hmissing⟩ | ⟨m', he, -⟩
      · cases he
        exact hmissing m hlook
      · cases he
    · rcases hitem with ⟨he, -⟩ | ⟨m', he, hlook', hlen'⟩
      · cases he
      · obtain ⟨hp, hlength, -⟩ := StagingError.sourceChanged.inj he
        rw [← hp, hlook] at hlook'
        obtain rfl := Except.ok.inj hlook'
        exact hlen' (hlen.trans hlength)
  intro deps job planned _
  unfold stageFiles
  refine M.obeys_store trivial fun r s hn => ?_
  obtain ⟨rfl, rfl⟩ : r = .ok planned ∧ s = none := hn
  dsimp only
  split
  · nofun
  · split_ifs
    · nofun
    · refine M.obeys_staging trivial fun r s hn => ?_
      obtain ⟨hr, rfl⟩ := hn
      rcases r with e | layout
      · rintro _ ⟨⟩ -
        exact hjustified hr.justified
      · nofun

/-- A file that is not is blamed in some run. -/
theorem look_of_neverBlamed {m m' : Metadata} (hdevice : sys.metadata l.root = .ok m')
    (hroot : sys.symlinkMetadata l.root = .ok m) (hlink : m.fileType ≠ .symlink)
    (hnul : 0 ∉ l.root.bytes) {f : PlannedFile} {p : PathBuf} (hsource : f.source = some p)
    (h : NeverBlamed l sys f) : ∃ m, sys.symlinkMetadata p = .ok m ∧ m.len = f.length := by
  by_contra hnot
  let dir := (readJob pilotRow).defaultStagingDir
  let item : PlanItem := ⟨p, f.torrentPath.under dir, f.length, f.materializedAs⟩
  let preference := pilotDeps.policy.materialization.preference
  obtain ⟨e, hkind, hrun⟩ := materialize_emptyRoot hdevice hroot hlink hnul le_rfl item preference
    fun m hm hlen => hnot ⟨m, hm, hlen⟩
  have hstage : CanStage l sys ⟨[item]⟩ preference (.error e) := by
    refine ⟨knownDevices, fun hobeys => ?_⟩
    exact hobeys.eval (h := emptyRoot sys (wordSize + l.minFreeBytes)) (toldOf_emptyRoot _) hrun
  have hblames : Blames e f := ⟨p, hsource, hkind⟩
  have hitems : stagingItems dir [f] = .ok [item] := by
    simp [stagingItems, hsource, item, pure, Except.pure, bind, Except.bind]
  have hout : stagingRefused preference e = .hold .libraryChanged (errorJson e.toText) := by
    rcases hkind with rfl | ⟨actual, rfl⟩ <;> rfl
  have hstep := h pilotDeps (readJob pilotRow) [f] (List.mem_singleton_self f)
  rw [stageFiles, M.store_bind, Prog.obeys_call] at hstep
  have hplanned := hstep.2 (.ok [f]) none ⟨rfl, rfl⟩
  dsimp only at hplanned
  have hdir : (readJob pilotRow).stagingDir.getD (readJob pilotRow).defaultStagingDir = dir := rfl
  rw [hdir, hitems] at hplanned
  dsimp only at hplanned
  rw [if_neg (by decide), M.staging_bind, Prog.obeys_call] at hplanned
  exact hplanned.2 (.error e) (some e) ⟨hstage, rfl⟩ e rfl hout hblames

variable {at' : Place} {fs : FileTree FileName} {entry : List FileName → Metadata}

theorem TruthfulView.ne_symlink (h : TruthfulView sys at' fs entry) {p : PathBuf} {m : Metadata}
    (hm : sys.symlinkMetadata p = .ok m) (hlink : ¬EndsInLink at' fs p) : m.fileType ≠ .symlink := by
  obtain ⟨d, hd, hnode, rfl⟩ := h.looked hm
  have hdescribes := h.describes d hnode
  unfold Describes at hdescribes
  split at hdescribes
  · exact hdescribes.elim
  · rw [hdescribes]
    nofun
  · rw [hdescribes.1]
    nofun
  · rename_i a t hlinked
    exact absurd ⟨d, a, t, hd, hlinked⟩ hlink
  · rw [hdescribes]
    nofun

end

/-- A candidate's path that is stored as it is, and ends in no link. -/
def Direct (at' : Place) (fs : FileTree FileName) (p : PathBuf) : Prop :=
  throughText p = p ∧ ¬EndsInLink at' fs p

/-- In a library that does not change, a candidate that was chosen for a file of its length is
    never blamed by staging when its path is text and ends in no link; otherwise, exactly when what
    lies at the stored path, and not what it links to, happens to have the length. -/
theorem candidate_staged_iff {l : LocalStaging} {sys : LibraryView} {at' : Place}
    {fs : FileTree FileName} {entry : List FileName → Metadata} (hsys : TruthfulView sys at' fs entry)
    (hroot : ∃ m, sys.metadata l.root = .ok m) (hcanonical : ¬EndsInLink at' fs l.root)
    {c : Candidate} (hc : FromLibrary sys c) {id : JobId} {f : PlannedFile}
    (hsource : f.source = some c.path) (hlength : f.length = c.sizeBytes) :
    NeverBlamed l sys (readPlannedFile (writePlannedFile id f)) ↔
      Direct at' fs c.path ∨
        ∃ m, sys.symlinkMetadata (throughText c.path) = .ok m ∧ m.len = c.sizeBytes := by
  obtain ⟨hbounded, hlook⟩ := hc.look hsys
  have hstored : (readPlannedFile (writePlannedFile id f)).source = some (throughText c.path) := by
    simp [readPlannedFile, writePlannedFile, hsource, throughText]
  have hlength' : (readPlannedFile (writePlannedFile id f)).length = c.sizeBytes := by
    rw [← hlength]
    exact asU64_asI64 (hlength ▸ hbounded)
  constructor
  · intro h
    obtain ⟨m, hdevice⟩ := hroot
    have hself := hsys.look hdevice hcanonical
    right
    rw [← hlength']
    exact look_of_neverBlamed hdevice hself (hsys.ne_symlink hself hcanonical)
      (hsys.noNul hdevice) hstored h
  · intro h
    obtain ⟨m, hm, hlen⟩ : ∃ m, sys.symlinkMetadata (throughText c.path) = .ok m ∧
        m.len = c.sizeBytes := by
      rcases h with ⟨htext, hlink⟩ | h
      · rw [htext]
        exact hlook hlink
      · exact h
    exact neverBlamed_of_look hstored hm (hlen.trans hlength'.symm)

/-! ## A link in the library -/

/-- A library of one file and a link to it, beside a staging root. -/
def linkedTree : FileTree FileName :=
  stagingBesideLibrary.insert [fileName "library"] (fileName "latest.mkv")
    (.link true [.name (fileName "library"), .name (fileName "e01.mkv")]) rfl rfl
    libraryLink_no_file

def linkedEntry (l : List FileName) : Metadata :=
  match linkedTree.node l with
  | some (.file _) => ⟨.file, 1, 7⟩
  | some (.link ..) => ⟨.symlink, 16, 7⟩
  | some .special => ⟨.other, 0, 7⟩
  | _ => ⟨.dir, 0, 7⟩

def episodePath : PathBuf := .ofString "/library/e01.mkv"

def latestPath : PathBuf := .ofString "/library/latest.mkv"

/-- What the system answers of it. -/
def linkedView : LibraryView where
  readDir _ := .error "permission denied"
  symlinkMetadata p :=
    if p = besideStaging.root then .ok ⟨.dir, 0, 7⟩
    else if p = episodePath then .ok ⟨.file, 1, 7⟩
    else if p = latestPath then .ok ⟨.symlink, 16, 7⟩
    else .error "not found"
  metadata p :=
    if p = besideStaging.root then .ok ⟨.dir, 0, 7⟩
    else if p = episodePath ∨ p = latestPath then .ok ⟨.file, 1, 7⟩
    else .error "not found"

theorem linked_staging : linkedTree.node [fileName "staging"] = some .dir := rfl

theorem linked_library : linkedTree.node [fileName "library"] = some .dir := rfl

theorem linked_episode : linkedTree.node libraryEpisode = some (.file 0) := rfl

theorem linked_latest : linkedTree.node [fileName "library", fileName "latest.mkv"] =
    some (.link true [.name (fileName "library"), .name (fileName "e01.mkv")]) := rfl

theorem leads_episode {follow : Bool} {k : ℕ} : linkedTree.Leads follow k []
    [.name (fileName "library"), .name (fileName "e01.mkv")] libraryEpisode :=
  .down linked_library (.last fun _ _ _ h => nomatch linked_episode.symm.trans h)

theorem leads_latest {k : ℕ} : linkedTree.Leads false k []
    [.name (fileName "library"), .name (fileName "latest.mkv")]
    [fileName "library", fileName "latest.mkv"] :=
  .down linked_library (.last nofun)

theorem leads_staging {follow : Bool} {k : ℕ} : linkedTree.Leads follow k []
    [.name (fileName "staging")] [fileName "staging"] :=
  .last fun _ _ _ h => nomatch linked_staging.symm.trans h

theorem linked_view : TruthfulView linkedView besideLibrary linkedTree linkedEntry where
  describes l hl := by
    unfold Describes linkedEntry
    cases hnode : linkedTree.node l with
    | none => exact hl hnode
    | some x =>
      cases x with
      | file i => exact ⟨rfl, rfl⟩
      | _ => rfl
  bounded l _ := by
    unfold linkedEntry
    split <;> decide
  followed {p m} h := by
    change (if _ then _ else _) = _ at h
    split_ifs at h with hroot hpath
    · cases h
      rw [hroot]
      exact ⟨[fileName "staging"], leads_staging, by rw [linked_staging]; nofun, rfl⟩
    · cases h
      refine ⟨libraryEpisode, ?_, by rw [linked_episode]; nofun, rfl⟩
      rcases hpath with rfl | rfl
      · exact leads_episode
      · exact .down linked_library (.link linked_latest (.inr rfl) leads_episode)
  looked {p m} h := by
    change (if _ then _ else _) = _ at h
    split_ifs at h with hroot hepisode hlatest
    · cases h
      rw [hroot]
      exact ⟨[fileName "staging"], leads_staging, by rw [linked_staging]; nofun, rfl⟩
    · cases h
      rw [hepisode]
      exact ⟨libraryEpisode, leads_episode, by rw [linked_episode]; nofun, rfl⟩
    · cases h
      rw [hlatest]
      exact ⟨_, leads_latest, by rw [linked_latest]; nofun, rfl⟩
  reached {p m} h := by
    dsimp only [linkedView] at h ⊢
    split_ifs at h with hroot hpath
    · exact ⟨_, if_pos hroot⟩
    · rcases hpath with rfl | rfl <;> exact ⟨_, rfl⟩
  noNul {p m} h := by
    change (if _ then _ else _) = _ at h
    split_ifs at h with hroot hpath
    · rw [hroot]
      decide
    · rcases hpath with rfl | rfl <;> decide

/-- The program that knows of both names. -/
def linkedArr : ArrApi where
  parseEpisode _ := .ok ⟨none, none⟩
  episodeFile _ := .ok []
  parseMovie _ := .ok (some 1)
  movieFile _ := .ok [⟨"/library/e01.mkv", 1⟩, ⟨"/library/latest.mkv", 1⟩]

def movieSource : ArrCandidateSource := ⟨.radarr, "main", []⟩

def candidateFor (path : PathBuf) : Candidate := ⟨path, 1, .radarr "main"⟩

theorem linked_fromLibrary {path : PathBuf} (h : path = episodePath ∨ path = latestPath) :
    FromLibrary linkedView (candidateFor path) := by
  refine .inl ⟨movieSource, linkedArr, ⟨"", []⟩, [candidateFor episodePath, candidateFor latestPath],
    rfl, ?_⟩
  rcases h with rfl | rfl <;> simp

/-- A file planned with a candidate. -/
def plannedFrom (path : PathBuf) : PlannedFile :=
  ⟨pilot.path, 1, some path, some .probable, none, none, none⟩

theorem canonical_staging : ¬EndsInLink besideLibrary linkedTree besideStaging.root := by
  rintro ⟨l, a, t, hleads, hnode⟩
  rw [Leads.unique hleads (leads_staging (k := maxLinks)), linked_staging] at hnode
  cases hnode

/-- The file is never blamed by its own name. -/
theorem episode_staged :
    NeverBlamed besideStaging linkedView
      (readPlannedFile (writePlannedFile ⟨1⟩ (plannedFrom episodePath))) := by
  refine (candidate_staged_iff linked_view ⟨_, rfl⟩ canonical_staging
    (linked_fromLibrary (.inl rfl)) rfl rfl).2 (.inl ⟨?_, ?_⟩)
  · rw [candidateFor, throughText, episodePath, PathBuf.toStringLossy_ofString]
  · rintro ⟨l, a, t, hleads, hnode⟩
    rw [Leads.unique hleads (leads_episode (k := maxLinks)), linked_episode] at hnode
    cases hnode

/-- By the name of the link it is found to be of another length, though nothing changed. -/
theorem latest_not_staged : ¬ ∀ (l : LocalStaging) (sys : LibraryView) (at' : Place)
    (fs : FileTree FileName) (entry : List FileName → Metadata), TruthfulView sys at' fs entry →
    (∃ m, sys.metadata l.root = .ok m) → ¬EndsInLink at' fs l.root → ∀ c, FromLibrary sys c →
      ∀ (id : JobId) (f : PlannedFile), f.source = some c.path → f.length = c.sizeBytes →
        NeverBlamed l sys (readPlannedFile (writePlannedFile id f)) := by
  intro hclaim
  have hnever := hclaim besideStaging _ _ _ _ linked_view ⟨_, rfl⟩ canonical_staging _
    (linked_fromLibrary (.inr rfl)) ⟨1⟩ (plannedFrom latestPath) rfl rfl
  rcases (candidate_staged_iff linked_view ⟨_, rfl⟩ canonical_staging
    (linked_fromLibrary (.inr rfl)) rfl rfl).1 hnever with ⟨-, hlink⟩ | ⟨m, hm, hlen⟩
  · exact hlink ⟨_, _, _, leads_latest, linked_latest⟩
  · rw [candidateFor, throughText, latestPath, PathBuf.toStringLossy_ofString] at hm
    cases hm
    exact absurd hlen (by decide)

end SeedMedic
