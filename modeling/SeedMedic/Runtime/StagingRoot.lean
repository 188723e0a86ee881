/-
  The staging root on a disk: what checking it in advance says, and what creating it does
  (`staging/domain.rs`).
-/
import SeedMedic.Lib.Walk
import SeedMedic.Runtime.Service
import SeedMedic.Staging.Outcomes

namespace SeedMedic

open Lib FileTree

/-! ## Paths spelled from their components -/

/-- A component of an absolute path behind its root. -/
def Component.Proper : Component → Prop
  | .normal n => PathBuf.Name n
  | .parentDir => True
  | _ => False

variable {p path : PathBuf} {c : Component} {cs : List Component}

/-- A segment between slashes is a component, or stands for nothing. -/
theorem proper_of_segment {s : List UInt8} (hplain : PathBuf.slash ∉ s)
    (h : PathBuf.segment false s = some c) : Component.Proper c ∧ ofComponents.name c = s := by
  unfold PathBuf.segment at h
  by_cases hnil : s = []
  · rw [if_pos hnil] at h
    cases h
  by_cases hdot : s = [PathBuf.dot]
  · rw [if_neg hnil, if_pos hdot] at h
    cases h
  by_cases hdots : s = [PathBuf.dot, PathBuf.dot]
  · rw [if_neg hnil, if_neg hdot, if_pos hdots] at h
    cases h
    exact ⟨trivial, hdots.symm⟩
  · rw [if_neg hnil, if_neg hdot, if_neg hdots] at h
    cases h
    exact ⟨⟨hnil, hdot, hdots, hplain⟩, rfl⟩

theorem segment_name (h : Component.Proper c) : PathBuf.segment false (ofComponents.name c) = some c := by
  cases c with
  | normal n => exact PathBuf.Name.segment h false
  | parentDir => rfl
  | _ => cases h

theorem slash_notMem_name (h : Component.Proper c) : PathBuf.slash ∉ ofComponents.name c := by
  cases c with
  | normal n => exact PathBuf.Name.plain h
  | parentDir => decide
  | _ => cases h

/-- The components of a path that starts at the root, none of which has a byte that the path has
    not. -/
theorem components_absolute (h : isAbsolute path = true) :
    ∃ cs, path.components = .rootDir :: cs ∧ ∀ c ∈ cs, Component.Proper c ∧
      ofComponents.name c ⊆ path.bytes := by
  obtain ⟨bytes⟩ := path
  obtain ⟨rest, rfl⟩ : ∃ rest, bytes = PathBuf.slash :: rest := by
    cases bytes with
    | nil => cases h
    | cons b rest =>
      have hb : b = PathBuf.slash := Option.some.inj (of_decide_eq_true h)
      exact ⟨rest, by rw [hb]⟩
  have hsplit : (PathBuf.slash :: rest).splitOn PathBuf.slash =
      [] :: rest.splitOn PathBuf.slash := by
    rw [List.splitOn_cons_eq_if_modifyHead, if_pos (by simp)]
  refine ⟨(rest.splitOn PathBuf.slash).filterMap (PathBuf.segment false), ?_, fun c hc => ?_⟩
  · rw [PathBuf.components_of_splitOn hsplit, if_pos ⟨rfl, List.splitOn_ne_nil _ _⟩]
    rfl
  · obtain ⟨s, hs, hsegment⟩ := List.mem_filterMap.1 hc
    obtain ⟨hplain, hsub⟩ := PathBuf.mem_splitOn hs
    obtain ⟨hproper, rfl⟩ := proper_of_segment hplain hsegment
    exact ⟨hproper, List.subset_cons_of_subset _ hsub⟩

/-- What is spelled from components has them. -/
theorem components_ofComponents (h : ∀ c ∈ cs, Component.Proper c) :
    (ofComponents (.rootDir :: cs)).components = .rootDir :: cs := by
  have hsegments : (cs.map ofComponents.name).filterMap (PathBuf.segment false) = cs := by
    rw [List.filterMap_map]
    exact (List.filterMap_congr fun c hc => segment_name (h c hc)).trans List.filterMap_some
  have hsplit : (PathBuf.slash :: [PathBuf.slash].intercalate (cs.map ofComponents.name)).splitOn
      PathBuf.slash = [] :: ([PathBuf.slash].intercalate (cs.map ofComponents.name)).splitOn
        PathBuf.slash := by
    rw [List.splitOn_cons_eq_if_modifyHead, if_pos (by simp)]
  show (⟨PathBuf.slash :: [PathBuf.slash].intercalate (cs.map ofComponents.name)⟩ :
    PathBuf).components = _
  rw [PathBuf.components_of_splitOn hsplit, if_pos ⟨rfl, List.splitOn_ne_nil _ _⟩]
  by_cases hcs : cs = []
  · subst hcs
    rfl
  · rw [List.splitOn_intercalate PathBuf.slash ?_ (by simpa using hcs), hsegments]
    · rfl
    · intro s hs
      obtain ⟨c, hc, rfl⟩ := List.mem_map.1 hs
      exact slash_notMem_name (h c hc)

/-- The bytes of what is spelled are slashes and those of its components. -/
theorem mem_bytes_ofComponents {b : UInt8} (h : b ∈ (ofComponents (.rootDir :: cs)).bytes) :
    b = PathBuf.slash ∨ ∃ c ∈ cs, b ∈ ofComponents.name c := by
  have hjoin : ∀ ss : List (List UInt8), b ∈ [PathBuf.slash].intercalate ss →
      b = PathBuf.slash ∨ ∃ s ∈ ss, b ∈ s := by
    intro ss
    induction ss with
    | nil => exact fun h => nomatch h
    | cons s ss ih =>
      intro h
      by_cases hss : ss = []
      · subst hss
        rw [List.intercalate_singleton] at h
        exact .inr ⟨s, List.mem_cons_self, h⟩
      · rw [List.intercalate_cons_of_ne_nil hss] at h
        rcases List.mem_append.1 h with h | h
        · rcases List.mem_append.1 h with h | h
          · exact .inr ⟨s, List.mem_cons_self, h⟩
          · exact .inl (List.mem_singleton.1 h)
        · rcases ih h with h | ⟨t, ht, h⟩
          · exact .inl h
          · exact .inr ⟨t, List.mem_cons_of_mem _ ht, h⟩
  rcases List.mem_cons.1 h with h | h
  · exact .inl h
  · rcases hjoin _ h with h | ⟨s, hs, h⟩
    · exact .inl h
    · obtain ⟨c, hc, rfl⟩ := List.mem_map.1 hs
      exact .inr ⟨c, hc, h⟩

/-! ## A filesystem -/

/-- The steps of a path. -/
def stepsOf (path : PathBuf) : List (PathStep FileName) := path.components.filterMap pathStep

/-- A path that ends in a slash or in a full stop names a directory. -/
def wantsDir (path : PathBuf) : Bool :=
  match (path.bytes.splitOn PathBuf.slash).getLast? with
  | some s => decide (s = [] ∨ s = [PathBuf.dot])
  | none => false

/-- A tree of proper names as a process sees it from its working directory, and what the system
    refuses to make. -/
structure Filesystem where
  tree : FileTree FileName
  root : tree.node [] = some .dir
  names : ∀ {d n}, tree.node (d ++ [n]) ≠ none → PathBuf.Name n
  cwd : List FileName
  stands : tree.node cwd = some .dir
  /-- Refused for want of rights or of space, or for how the path is spelled. -/
  refuses : List (PathStep FileName) → Bool
  /-- The text of the system's errors. -/
  complaint : String

/-- The place that a path of a process leads to. -/
def leadsTo (cwd : List FileName) (fs : FileTree FileName) (path : PathBuf) :
    Option (List FileName) :=
  if path.bytes = [] ∨ 0 ∈ path.bytes then none
  else
    match fs.walk maxLinks (if isAbsolute path then [] else cwd) (stepsOf path) with
    | none => none
    | some (_, l) => if wantsDir path ∧ fs.node l ≠ some .dir then none else some l

/-- A place as an absolute path. -/
def spell (l : List FileName) : PathBuf := ofComponents (.rootDir :: l.map .normal)

/-- Directories are made for the names of a path only. -/
theorem names_of_makes {links : ℕ} {refuses : List (PathStep FileName) → Bool}
    {fs fs' : FileTree FileName} {q : List (PathStep FileName)}
    (h : Makes links refuses fs q fs') {d : List FileName} {n : FileName}
    (hn : fs'.node (d ++ [n]) ≠ none) : fs.node (d ++ [n]) ≠ none ∨ .name n ∈ q := by
  induction h with
  | start => exact .inl hn
  | there _ _ ih => exact (ih hn).imp_right (List.mem_append_left _)
  | made _ hmade ih =>
    obtain ⟨m, k, e, he, hfree, rfl, -, -, rfl⟩ := createDir_some hmade
    by_cases hplace : d ++ [n] = e ++ [m]
    · obtain ⟨-, hnm⟩ := List.append_inj' hplace rfl
      cases hnm
      exact .inr (by simp)
    · have hsame : (FileTree.mkdir _ e m he hfree).node (d ++ [n]) = _ :=
        Function.update_of_ne hplace ..
      rw [hsame] at hn
      exact (ih hn).imp_right (List.mem_append_left _)

/-- The names of an absolute path. -/
theorem name_of_mem_stepsOf (h : isAbsolute path = true) {n : FileName}
    (hn : .name n ∈ stepsOf path) : PathBuf.Name n := by
  obtain ⟨cs, hcs, hproper⟩ := components_absolute h
  obtain ⟨c, hc, hstep⟩ := List.mem_filterMap.1 hn
  rw [hcs] at hc
  rcases List.mem_cons.1 hc with rfl | hc
  · cases hstep
  · have := (hproper c hc).1
    cases c with
    | normal m =>
      cases hstep
      exact this
    | _ => cases hstep

namespace Filesystem

variable (w : Filesystem)

def leads (path : PathBuf) : Option (List FileName) := leadsTo w.cwd w.tree path

/-- The system as the configuration's checks see it. -/
def host (base : ConfigHost) : ConfigHost :=
  { base with
    pathExists := fun path => (w.leads path).isSome
    canonicalize := fun path => (w.leads path).map spell }

def canonicalize (path : PathBuf) : Except String PathBuf :=
  match w.leads path with
  | some l => .ok (spell l)
  | none => .error w.complaint

/-- A tree on the way of making a path. -/
def OnTheWay (path : PathBuf) (fs : FileTree FileName) : Prop :=
  ∃ q, q <+: stepsOf path ∧ Makes maxLinks w.refuses w.tree q fs

variable {w} in
theorem OnTheWay.extends {fs : FileTree FileName} (h : w.OnTheWay path fs) : Extends w.tree fs := by
  obtain ⟨q, -, h⟩ := h
  exact h.extends

/-- The filesystem with a tree on the way of making an absolute path. -/
def grown {fs : FileTree FileName} (habsolute : isAbsolute path = true) (h : w.OnTheWay path fs) :
    Filesystem where
  tree := fs
  root := h.extends.kept _ _ w.root
  names hn := by
    obtain ⟨q, hq, hmakes⟩ := h
    rcases names_of_makes hmakes hn with hold | hnew
    · exact w.names hold
    · exact name_of_mem_stepsOf habsolute (hq.subset hnew)
  cwd := w.cwd
  stands := h.extends.kept _ _ w.stands
  refuses := w.refuses
  complaint := w.complaint

/-- What making all the directories of a path leaves. -/
def made (path : PathBuf) : FileTree FileName × Bool :=
  w.tree.createDirAll maxLinks w.refuses (stepsOf path).reverse

theorem made_spec (path : PathBuf) : Made maxLinks w.refuses w.tree (stepsOf path) (w.made path) := by
  have h : Made maxLinks w.refuses w.tree (stepsOf path).reverse.reverse (w.made path) :=
    createDirAll_made w.root _
  rwa [List.reverse_reverse] at h

/-- Make a directory and all above it that are missing. -/
def createDirAll (path : PathBuf) (habsolute : isAbsolute path = true) :
    Filesystem × Except String Unit :=
  if 0 ∈ path.bytes then (w, .error w.complaint)
  else
    (w.grown habsolute (w.made_spec path).sound,
      if (w.made path).2 then .ok () else .error w.complaint)

/-- The staging root, created where it is missing. -/
def newStagingRoot (path : PathBuf) (libraryRoots : List PathBuf) :
    Filesystem × Except StagingRootError PathBuf :=
  if habsolute : isAbsolute path = true then
    match w.createDirAll path habsolute with
    | (w', .error e) => (w', .error (.unusable path e))
    | (w', .ok ()) =>
      match w'.canonicalize path with
      | .error e => (w', .error (.unusable path e))
      | .ok staging =>
        match (libraryRoots.filterMap fun l => (w'.canonicalize l).toOption).find?
            (overlap staging) with
        | some library => (w', .error (.overlapsLibrary staging library))
        | none => (w', .ok staging)
  else (w, .error (.notAbsolute path))

/-- The staging root of the wiring, on a filesystem. -/
theorem newStagingRoot_eq (env : BuildEnv) (roots : List PathBuf)
    (hcreate : ∀ h : isAbsolute path = true, env.createDirAll path = (w.createDirAll path h).2)
    (hthen : ∀ h : isAbsolute path = true, env.canonicalizeNow = (w.createDirAll path h).1.canonicalize) :
    (w.newStagingRoot path roots).2 = env.stagingRootNew path roots := by
  unfold newStagingRoot BuildEnv.stagingRootNew
  by_cases h : isAbsolute path = true
  · rw [dif_pos h, if_neg (by simp [h]), hcreate h, hthen h]
    obtain ⟨w', r⟩ := w.createDirAll path h
    cases r with
    | error e => rfl
    | ok u =>
      dsimp only
      cases w'.canonicalize path with
      | error e => rfl
      | ok staging =>
        dsimp only
        cases (roots.filterMap fun l => (w'.canonicalize l).toOption).find? (overlap staging) <;> rfl
  · rw [dif_neg h, if_pos (by simpa using h)]

variable {w} {l : List FileName}

/-! ## Where a path leads -/

theorem names_of_node (h : w.tree.node l ≠ none) : ∀ n ∈ l, PathBuf.Name n := by
  induction l using List.reverseRecOn with
  | nil => exact nofun
  | append_singleton l n ih =>
    intro m hm
    rcases List.mem_append.1 hm with hm | hm
    · refine ih ?_ m hm
      rw [w.tree.rooted h]
      nofun
    · rw [List.mem_singleton.1 hm]
      exact w.names h

theorem proper_of_names (h : ∀ n ∈ l, PathBuf.Name n) :
    ∀ c ∈ l.map Component.normal, Component.Proper c := by
  intro c hc
  obtain ⟨n, hn, rfl⟩ := List.mem_map.1 hc
  exact h n hn

theorem components_spell (h : ∀ n ∈ l, PathBuf.Name n) :
    (spell l).components = .rootDir :: l.map .normal := components_ofComponents (proper_of_names h)

theorem leadsTo_some {cwd : List FileName} {fs : FileTree FileName}
    (h : leadsTo cwd fs path = some l) :
    0 ∉ path.bytes ∧ (wantsDir path = true → fs.node l = some .dir) ∧
      ∃ k, fs.walk maxLinks (if isAbsolute path then [] else cwd) (stepsOf path) = some (k, l) := by
  unfold leadsTo at h
  by_cases hlegal : path.bytes = [] ∨ 0 ∈ path.bytes
  · rw [if_pos hlegal] at h
    cases h
  rw [if_neg hlegal] at h
  refine ⟨fun h0 => hlegal (.inr h0), ?_⟩
  cases hw : fs.walk maxLinks (if isAbsolute path then [] else cwd) (stepsOf path) with
  | none =>
    rw [hw] at h
    cases h
  | some r =>
    obtain ⟨k, l'⟩ := r
    simp only [hw] at h
    split_ifs at h with hdir
    cases h
    exact ⟨fun hwants => by_contra fun hne => hdir ⟨hwants, hne⟩, k, rfl⟩

theorem leadsTo_of_walk {cwd : List FileName} {fs : FileTree FileName} {k : ℕ}
    (habsolute : isAbsolute path = true) (hlegal : 0 ∉ path.bytes)
    (hw : fs.walk maxLinks [] (stepsOf path) = some (k, l))
    (hdir : wantsDir path = true → fs.node l = some .dir) : leadsTo cwd fs path = some l := by
  have hne : path.bytes ≠ [] := by
    intro h
    rw [isAbsolute, h] at habsolute
    cases habsolute
  unfold leadsTo
  rw [if_neg (not_or.2 ⟨hne, hlegal⟩), if_pos habsolute, hw]
  exact if_neg fun h => h.2 (hdir h.1)

/-- Where a path leads is there. -/
theorem node_of_leads (h : w.leads path = some l) : w.tree.node l ≠ none := by
  obtain ⟨-, -, k, hw⟩ := leadsTo_some h
  have hstart : w.tree.node (if isAbsolute path then [] else w.cwd) = some .dir := by
    split_ifs
    · exact w.root
    · exact w.stands
  rcases walk_there hstart hw with hdir | ⟨i, hfile⟩ | hspecial
  · simp [hdir]
  · simp [hfile]
  · simp [hspecial]

/-- A path that leads somewhere leads there in a larger tree. -/
theorem leadsTo_extends {cwd : List FileName} {fs fs' : FileTree FileName} (hext : Extends fs fs')
    (h : leadsTo cwd fs path = some l) : leadsTo cwd fs' path = some l := by
  obtain ⟨-, hdir, k, hw⟩ := leadsTo_some h
  have hne : ¬(path.bytes = [] ∨ 0 ∈ path.bytes) := by
    intro hne
    rw [leadsTo, if_pos hne] at h
    cases h
  rw [leadsTo, if_neg hne, hext.walk hw]
  exact if_neg fun hd => hd.2 (hext.kept _ _ (hdir hd.1))

/-! ## Looking at a path in advance -/

/-- No step of a path goes up from where nothing is, or down a link that leads nowhere. -/
def Plain (w : Filesystem) (p : List (PathStep FileName)) : Prop :=
  ∀ q s, q ++ [s] <+: p →
    (s = .up → w.tree.isDir maxLinks (q ++ [s]) = true) ∧
    ∀ n k d a t, s = .name n → w.tree.walk maxLinks [] q = some (k, d) →
      w.tree.node (d ++ [n]) = some (.link a t) → w.tree.walk maxLinks [] (q ++ [s]) ≠ none

/-- A path that leads somewhere, or an absolute one that is plain. -/
def Settled (w : Filesystem) (path : PathBuf) : Prop :=
  (w.leads path).isSome ∨ isAbsolute path = true ∧ w.Plain (stepsOf path)

theorem Plain.of_isPrefix {p q : List (PathStep FileName)} (h : w.Plain p) (hq : q <+: p) : w.Plain q :=
  fun r s hr => h r s (hr.trans hq)

theorem stepsOf_eq (hcs : path.components = .rootDir :: cs) :
    stepsOf path = cs.filterMap pathStep := by
  rw [stepsOf, hcs]
  rfl

/-- The path above the last of some components. -/
theorem parentOf_eq {cs : List Component} {c : Component}
    (hcs : path.components = .rootDir :: (cs ++ [c])) (hc : Component.Proper c) :
    path.components.getLast? = some c ∧ parentOf path = some (ofComponents (.rootDir :: cs)) := by
  have hlast : path.components.getLast? = some c := by
    rw [hcs, ← List.cons_append, List.getLast?_append]
    rfl
  refine ⟨hlast, ?_⟩
  unfold parentOf
  rw [hlast, hcs, ← List.cons_append, List.dropLast_concat]
  cases c with
  | rootDir => cases hc
  | _ => rfl

/-- What leads nowhere leads to no directory. -/
theorem isDir_of_leads_none (habsolute : isAbsolute path = true) (hlegal : 0 ∉ path.bytes)
    (h : w.leads path = none) : w.tree.isDir maxLinks (stepsOf path) = false := by
  by_contra hdir
  obtain ⟨k, l, hw, hl⟩ := isDir_iff.1 (by simpa using hdir)
  rw [leads, leadsTo_of_walk habsolute hlegal hw fun _ => hl] at h
  cases h

/-- What the climb from an absolute plain path comes to: the deepest place above it that is there,
    with names below. -/
theorem climb_plain (base : ConfigHost) {fuel : ℕ} {existing : PathBuf}
    {remainder : List Component} (habsolute : isAbsolute existing = true)
    (hlegal : 0 ∉ existing.bytes) (hplain : w.Plain (stepsOf existing))
    (hfuel : existing.components.length ≤ fuel) :
    ∃ e q d k names,
      lexicalResolve.climb (w.host base) fuel existing remainder =
        (e, names.map .normal ++ remainder) ∧
      w.leads e = some d ∧ stepsOf existing = q ++ names.map .name ∧
      w.tree.walk maxLinks [] q = some (k, d) ∧ (∀ n ∈ names, PathBuf.Name n) ∧
      ∀ n ns, names = n :: ns → w.tree.isDir maxLinks (q ++ [.name n]) = false ∧
        (ns = [] → w.leads existing = none) := by
  induction fuel generalizing existing remainder with
  | zero =>
    obtain ⟨cs, hcs, -⟩ := components_absolute habsolute
    rw [hcs] at hfuel
    exact absurd hfuel (by simp)
  | succ fuel ih =>
    cases hleads : w.leads existing with
    | some d =>
      obtain ⟨-, -, k, hw⟩ := leadsTo_some hleads
      rw [if_pos habsolute] at hw
      refine ⟨existing, stepsOf existing, d, k, [], ?_, hleads, by simp, hw, nofun, nofun⟩
      rw [lexicalResolve.climb, if_pos]
      · rfl
      · show (w.leads existing).isSome = true
        rw [hleads]
        rfl
    | none =>
      have hexists : ¬(w.host base).pathExists existing = true := by
        show ¬(w.leads existing).isSome = true
        rw [hleads]
        nofun
      have hdir := isDir_of_leads_none habsolute hlegal hleads
      obtain ⟨cs, hcs, hproper⟩ := components_absolute habsolute
      have hsteps := stepsOf_eq hcs
      rcases List.eq_nil_or_concat cs with rfl | ⟨cs, c, rfl⟩
      · -- the root is there
        rw [hsteps] at hdir
        exact absurd (isDir_iff.2 ⟨maxLinks, [], walk_nil, w.root⟩) (Bool.not_eq_true _ ▸ hdir)
      rw [List.concat_eq_append] at hcs hproper hsteps
      obtain ⟨hc, -⟩ := hproper c (by simp)
      obtain ⟨hlast, hparent⟩ := parentOf_eq hcs hc
      have hproper' : ∀ c ∈ cs, Component.Proper c := fun c hc => (hproper c (by simp [hc])).1
      rw [List.filterMap_append] at hsteps
      cases c with
      | parentDir =>
        have hlastUp : stepsOf existing = cs.filterMap pathStep ++ [.up] := hsteps
        have hup := (hplain (cs.filterMap pathStep) .up (by rw [hlastUp])).1 rfl
        rw [← hlastUp, hdir] at hup
        cases hup
      | rootDir => cases hc
      | curDir => cases hc
      | normal n =>
        have hparentSteps : stepsOf (ofComponents (.rootDir :: cs)) = cs.filterMap pathStep :=
          stepsOf_eq (components_ofComponents hproper')
        obtain ⟨e, q, d, k, names, hclimb, he, hq, hw, hnames, hfirst⟩ :=
          @ih (ofComponents (.rootDir :: cs)) (.normal n :: remainder) rfl
            (fun h0 => by
              rcases mem_bytes_ofComponents h0 with h0 | ⟨c, hc, h0⟩
              · cases h0
              · exact hlegal ((hproper c (by simp [hc])).2 h0))
            (hplain.of_isPrefix (by rw [hparentSteps, hsteps]; exact List.prefix_append _ _))
            (by
              rw [components_ofComponents hproper']
              rw [hcs] at hfuel
              simpa using hfuel)
        refine ⟨e, q, d, k, names ++ [n], ?_, he, ?_, hw, ?_, ?_⟩
        · rw [lexicalResolve.climb, if_neg hexists, hlast, hparent]
          simpa using hclimb
        · rw [hsteps, ← hparentSteps, hq]
          simp [pathStep]
        · intro m hm
          rcases List.mem_append.1 hm with hm | hm
          · exact hnames m hm
          · rw [List.mem_singleton.1 hm]
            exact hc
        · intro m ms hms
          cases names with
          | nil =>
            cases hms
            refine ⟨?_, fun _ => rfl⟩
            rw [← hdir, hsteps, ← hparentSteps, hq]
            simp [pathStep]
          | cons m' ms' =>
            cases hms
            exact ⟨(hfirst m ms' rfl).1, fun h => absurd h (by simp)⟩

/-- A path in terms of where it will lead: the checks in advance take it for the path of that
    place. -/
theorem lexicalResolve_exact (base : ConfigHost) {fs : FileTree FileName}
    (hext : Extends w.tree fs) (h : w.Settled path) (hl : leadsTo w.cwd fs path = some l)
    (hnames : ∀ n ∈ l, PathBuf.Name n) :
    (lexicalResolve (w.host base) path).components = .rootDir :: l.map .normal := by
  rcases h with hthere | ⟨habsolute, hplain⟩
  · -- it leads there already
    obtain ⟨l', hl'⟩ := Option.isSome_iff_exists.1 hthere
    cases (leadsTo_extends hext hl').symm.trans hl
    have hclimb : lexicalResolve.climb (w.host base) (path.components.length + 1) path [] =
        (path, []) := by
      rw [lexicalResolve.climb, if_pos]
      exact hthere
    have hcanonical : ((w.host base).canonicalize path).getD path = spell l := by
      show ((w.leads path).map spell).getD path = spell l
      rw [hl']
      rfl
    rw [lexicalResolve, hclimb]
    simp only [hcanonical]
    rw [components_spell hnames, List.append_nil]
    exact components_spell hnames
  · obtain ⟨hlegal, hwants, k', hw'⟩ := leadsTo_some hl
    rw [if_pos habsolute] at hw'
    obtain ⟨e, q, d, k, names, hclimb, he, hq, hw, hproper, hfirst⟩ :=
      @climb_plain _ base _ _ [] habsolute hlegal hplain (Nat.le_succ _)
    have hd : ∀ n ∈ d, PathBuf.Name n := names_of_node (node_of_leads he)
    have hroot : fs.node [] = some .dir := hext.kept _ _ w.root
    -- nothing is at the first of the names, so all of them are new directories
    have hplace : l = d ++ names := by
      cases names with
      | nil =>
        rw [hq, List.map_nil, List.append_nil, hext.walk hw] at hw'
        cases hw'
        rw [List.append_nil]
      | cons n ns =>
        obtain ⟨hnoDir, hnone⟩ := hfirst n ns rfl
        rw [hq] at hw'
        obtain ⟨k₁, d₁, hw₁, hd₁, hrest⟩ := walk_append_some hroot (by simp) hw'
        cases (hext.walk hw).symm.trans hw₁
        refine hext.walk_below ?_ hrest
        have hstays : ∀ {k₂ x}, w.tree.walk maxLinks [] (q ++ [.name n]) = some (k₂, x) → False := by
          intro k₂ x hx
          have hxNoDir : w.tree.node x ≠ some .dir := fun hdir =>
            absurd (isDir_iff.2 ⟨k₂, x, hx, hdir⟩) (by rw [hnoDir]; nofun)
          have hends : w.tree.Ends x := (walk_there w.root hx).resolve_left hxNoDir
          have hfsNoDir : fs.node x ≠ some .dir := by
            rcases hext.ends hends with ⟨i, hi⟩ | hi <;> rw [hi] <;> nofun
          have hsteps : q ++ (n :: ns).map PathStep.name = (q ++ [.name n]) ++ ns.map .name := by simp
          by_cases hns : ns = []
          · -- it is the whole path, which leads nowhere
            subst hns
            rw [List.map_nil, List.append_nil] at hsteps
            rw [hsteps, hext.walk hx] at hw'
            cases hw'
            have hthere : w.leads path = some l :=
              leadsTo_of_walk habsolute hlegal (by rw [hq, hsteps]; exact hx)
                fun hwant => absurd (hwants hwant) hfsNoDir
            rw [hnone rfl] at hthere
            cases hthere
          · rw [hsteps] at hw'
            obtain ⟨k₃, x', hx', hdir, -⟩ := walk_append_some hroot (by simpa using hns) hw'
            cases (hext.walk hx).symm.trans hx'
            exact hfsNoDir hdir
        have hdDir : w.tree.node d = some .dir := by
          rcases walk_there w.root hw with hdir | hends
          · exact hdir
          · rcases hext.ends hends with ⟨i, hi⟩ | hi <;> rw [hi] at hd₁ <;> cases hd₁
        rcases w.tree.node_cases (d ++ [n]) with hx | hx | ⟨a, t, hx⟩ | hx
        · exact hx
        · exact (hstays ((walk_append_of_dir w.root hw hdDir).trans
            ((walk_dir hx).trans walk_nil))).elim
        · have hlink := (hplain q (.name n) (by rw [hq]; simp)).2 n k d a t rfl hw hx
          obtain ⟨⟨k₂, x⟩, hx⟩ := Option.ne_none_iff_exists'.1 hlink
          exact (hstays hx).elim
        · exact (hstays ((walk_append_of_dir w.root hw hdDir).trans (walk_ends hx))).elim
    have hcanonical : ((w.host base).canonicalize e).getD e = spell d := by
      show ((w.leads e).map spell).getD e = spell d
      rw [he]
      rfl
    have hclimb' : lexicalResolve.climb (w.host base) (path.components.length + 1) path [] =
        (e, names.map .normal) := by
      rw [hclimb, List.append_nil]
    rw [lexicalResolve, hclimb']
    simp only [hcanonical]
    rw [components_spell hd, List.cons_append, ← List.map_append, ← hplace]
    exact components_spell hnames

/-! ## The staging root -/

theorem overlap_iff {a b : PathBuf} {s l : List FileName}
    (ha : a.components = .rootDir :: s.map .normal) (hb : b.components = .rootDir :: l.map .normal) :
    overlap a b = true ↔ l <+: s ∨ s <+: l := by
  have hinjective : Function.Injective Component.normal := fun _ _ h => by cases h; rfl
  have hpre : ∀ {x y : List FileName},
      List.isPrefixOf (Component.rootDir :: x.map .normal) (.rootDir :: y.map .normal) = true ↔
        x <+: y := by
    intro x y
    rw [List.isPrefixOf_iff_prefix, List.cons_prefix_cons, and_iff_right rfl,
      List.prefix_map_iff_of_injective hinjective]
  rw [overlap, startsWith, startsWith, ha, hb, Bool.or_eq_true, hpre, hpre]

/-- One of two places in a tree lies in the other. -/
def Meet (cwd : List FileName) (fs : FileTree FileName) (path root : PathBuf) : Prop :=
  ∃ s l, leadsTo cwd fs path = some s ∧ leadsTo cwd fs root = some l ∧ (l <+: s ∨ s <+: l)

variable {roots : List PathBuf}

/-- Whether two places of a filesystem overlap, as it is seen in their paths. -/
theorem overlap_spell_iff {s l : List FileName} {root : PathBuf} (hs : w.leads path = some s)
    (hl : w.leads root = some l) : overlap (spell s) (spell l) = true ↔ l <+: s ∨ s <+: l :=
  overlap_iff (components_spell (names_of_node (node_of_leads hs)))
    (components_spell (names_of_node (node_of_leads hl)))

/-- Creating the staging root finds that it overlaps when its directories can be made and it lies in
    a library root then, or one in it. -/
theorem newStagingRoot_overlaps_iff :
    (∃ s l, (w.newStagingRoot path roots).2 = .error (.overlapsLibrary s l)) ↔
      isAbsolute path = true ∧ ∃ fs, Makes maxLinks w.refuses w.tree (stepsOf path) fs ∧
        ∃ root ∈ roots, Meet w.cwd fs path root := by
  unfold newStagingRoot
  by_cases habsolute : isAbsolute path = true
  · rw [dif_pos habsolute, and_iff_right habsolute]
    unfold createDirAll
    by_cases hlegal : 0 ∈ path.bytes
    · rw [if_pos hlegal]
      refine iff_of_false (fun ⟨_, _, h⟩ => by cases h) ?_
      rintro ⟨fs, -, root, -, s, l, hs, -⟩
      exact (leadsTo_some hs).1 hlegal
    rw [if_neg hlegal]
    have hmade := w.made_spec path
    cases hok : (w.made path).2 with
    | false =>
      refine iff_of_false (fun ⟨_, _, h⟩ => by cases h) ?_
      rintro ⟨fs, hfs, -⟩
      have hr := (hmade.complete _ fs (List.prefix_refl _) hfs).2 rfl
      rw [hr] at hok
      cases hok
    | true =>
      have hwhole := hmade.whole hok
      have hmeet : (∃ fs, Makes maxLinks w.refuses w.tree (stepsOf path) fs ∧
          ∃ root ∈ roots, Meet w.cwd fs path root) ↔
            ∃ root ∈ roots, Meet w.cwd (w.made path).1 path root := by
        refine ⟨fun ⟨fs, hfs, h⟩ => ?_, fun h => ⟨_, hwhole, h⟩⟩
        rwa [hfs.unique w.root hwhole] at h
      rw [hmeet]
      simp only [if_true]
      generalize hgrown : w.grown habsolute hmade.sound = w'
      have htree : (w.made path).1 = w'.tree := by rw [← hgrown]; rfl
      have hcwd : w.cwd = w'.cwd := by rw [← hgrown]; rfl
      rw [htree, hcwd]
      cases hs : w'.leads path with
      | none =>
        simp only [canonicalize, hs]
        refine iff_of_false (fun ⟨_, _, h⟩ => by cases h) ?_
        rintro ⟨root, -, s, l, hs', -⟩
        rw [leads, hs'] at hs
        cases hs
      | some s =>
        simp only [canonicalize, hs]
        cases hfind : (roots.filterMap fun l => (w'.canonicalize l).toOption).find?
            (overlap (spell s)) with
        | none =>
          refine iff_of_false ?_ ?_
          · rintro ⟨_, _, h⟩
            simp only [canonicalize] at hfind
            rw [hfind] at h
            cases h
          · rintro ⟨root, hroot, s', l, hs', hl, hover⟩
            cases hs.symm.trans hs'
            have hmem : spell l ∈ roots.filterMap fun l => (w'.canonicalize l).toOption :=
              List.mem_filterMap.2 ⟨root, hroot, by rw [canonicalize, leads, hl]; rfl⟩
            exact List.find?_eq_none.1 hfind _ hmem ((overlap_spell_iff hs hl).2 hover)
        | some library =>
          refine iff_of_true ⟨spell s, library, ?_⟩ ?_
          · simp only [canonicalize] at hfind
            rw [hfind]
          · obtain ⟨root, hroot, hlibrary⟩ := List.mem_filterMap.1 (List.mem_of_find?_eq_some hfind)
            cases hl : w'.leads root with
            | none =>
              rw [canonicalize, hl] at hlibrary
              cases hlibrary
            | some l =>
              rw [canonicalize, hl] at hlibrary
              cases hlibrary
              exact ⟨root, hroot, s, l, hs, hl,
                (overlap_spell_iff hs hl).1 (List.find?_some hfind)⟩
  · rw [dif_neg habsolute]
    exact iff_of_false (fun ⟨_, _, h⟩ => by cases h) fun h => habsolute h.1

/-- Creating the staging root leaves what making the directories of its path does. -/
theorem newStagingRoot_made (habsolute : isAbsolute path = true) (hlegal : 0 ∉ path.bytes) :
    (w.newStagingRoot path roots).1 = w.grown habsolute (w.made_spec path).sound := by
  unfold newStagingRoot createDirAll
  rw [dif_pos habsolute, if_neg hlegal]
  cases (w.made path).2 with
  | false => rfl
  | true =>
    simp only [if_true]
    split
    · rfl
    · split <;> rfl

/-- The tree that creating the staging root leaves is the largest on the way of making its path. -/
theorem newStagingRoot_tree (habsolute : isAbsolute path = true) (hlegal : 0 ∉ path.bytes) :
    w.OnTheWay path (w.newStagingRoot path roots).1.tree ∧
      ∀ fs, w.OnTheWay path fs → Extends fs (w.newStagingRoot path roots).1.tree := by
  rw [newStagingRoot_made habsolute hlegal]
  refine ⟨(w.made_spec path).sound, ?_⟩
  rintro fs ⟨q, hq, hfs⟩
  exact ((w.made_spec path).complete q fs hq hfs).1

/-- A path that cannot be handed to the system leaves the tree as it is. -/
theorem newStagingRoot_refused (h : ¬(isAbsolute path = true ∧ 0 ∉ path.bytes)) :
    (w.newStagingRoot path roots).1.tree = w.tree := by
  unfold newStagingRoot
  split_ifs with habsolute
  · unfold createDirAll
    have h0 : 0 ∈ path.bytes := by
      by_contra h0
      exact h ⟨habsolute, h0⟩
    rw [if_pos h0]
  · rfl

/-- The check in advance passes when nothing overlaps as it sees the paths. -/
theorem checkOverlap_ok_iff {host : ConfigHost} : checkOverlap host path roots = .ok () ↔
    isAbsolute path = true ∧
      ∀ root ∈ roots, overlap (lexicalResolve host path) (lexicalResolve host root) = false := by
  unfold checkOverlap
  by_cases habsolute : isAbsolute path = true
  · rw [if_neg (by simp [habsolute]), and_iff_right habsolute]
    dsimp only
    cases hfind : (roots.map (lexicalResolve host)).find? (overlap (lexicalResolve host path)) with
    | none =>
      refine iff_of_true rfl fun root hroot => ?_
      simpa using List.find?_eq_none.1 hfind _ (List.mem_map_of_mem hroot)
    | some library =>
      refine iff_of_false nofun fun h => ?_
      obtain ⟨root, hroot, rfl⟩ := List.mem_map.1 (List.mem_of_find?_eq_some hfind)
      have hover := List.find?_some hfind
      rw [h root hroot] at hover
      cases hover
  · rw [if_pos (by simpa using habsolute)]
    exact iff_of_false nofun fun h => habsolute h.1

/-- What is made lies in no library root. -/
def Spares (w : Filesystem) (roots : List PathBuf) (fs : FileTree FileName) : Prop :=
  ∀ place, w.tree.node place = none → fs.node place ≠ none → ∀ root ∈ roots, ∀ l,
    leadsTo w.cwd fs root = some l → ¬Below l place

/-- What the check in advance accepts does not overlap when it is created; and whether or not it
    can be, creating it makes nothing in a library root. -/
structure CreatedSafely (w : Filesystem) (base : ConfigHost) (path : PathBuf)
    (roots : List PathBuf) : Prop where
  foreseen : checkOverlap (w.host base) path roots = .ok () →
    ∀ s l, (w.newStagingRoot path roots).2 ≠ .error (.overlapsLibrary s l)
  spares : w.Spares roots (w.newStagingRoot path roots).1.tree

/-- No directory that is missing on the way of a path lies in a library root. -/
def WayClear (w : Filesystem) (path : PathBuf) (roots : List PathBuf) : Prop :=
  isAbsolute path = true → 0 ∉ path.bytes → ∀ fs, w.OnTheWay path fs → w.Spares roots fs

/-- A path that the check accepts will lead apart from the library roots. -/
def EndsApart (w : Filesystem) (base : ConfigHost) (path : PathBuf) (roots : List PathBuf) : Prop :=
  checkOverlap (w.host base) path roots = .ok () →
    ∀ fs, Makes maxLinks w.refuses w.tree (stepsOf path) fs →
      ∀ root ∈ roots, ¬Meet w.cwd fs path root

theorem Spares.of_extends {fs fs' : FileTree FileName} (h : w.Spares roots fs')
    (hext : Extends fs fs') : w.Spares roots fs := by
  intro place hnone hthere root hroot l hl
  obtain ⟨x, hx⟩ := Option.ne_none_iff_exists'.1 hthere
  refine h place hnone ?_ root hroot l (leadsTo_extends hext hl)
  rw [hext.kept _ _ hx]
  nofun

theorem spares_refl : w.Spares roots w.tree := fun _ hnone hthere => absurd hnone hthere

/-- Creating the staging root makes nothing in a library root exactly when its way is clear. -/
theorem spares_newStagingRoot_iff :
    w.Spares roots (w.newStagingRoot path roots).1.tree ↔ w.WayClear path roots := by
  constructor
  · intro h habsolute hlegal fs hfs
    exact h.of_extends ((newStagingRoot_tree habsolute hlegal).2 fs hfs)
  · intro h
    by_cases hpath : isAbsolute path = true ∧ 0 ∉ path.bytes
    · exact h hpath.1 hpath.2 _ (newStagingRoot_tree hpath.1 hpath.2).1
    · rw [newStagingRoot_refused hpath]
      exact spares_refl

/-- The check in advance foresees where a settled path leads among settled library roots. -/
theorem endsApart_of_settled (base : ConfigHost) (hpath : w.Settled path)
    (hroots : ∀ root ∈ roots, w.Settled root) : w.EndsApart base path roots := by
  rintro hcheck fs hfs root hroot ⟨s, l, hs, hl, hover⟩
  obtain ⟨habsolute, happart⟩ := checkOverlap_ok_iff.1 hcheck
  -- the tree is that of a filesystem, so its places have proper names
  have hway : w.OnTheWay path fs := ⟨_, List.prefix_refl _, hfs⟩
  have hnames : ∀ {x place}, leadsTo w.cwd fs x = some place → ∀ n ∈ place, PathBuf.Name n :=
    fun hx => names_of_node (w := w.grown habsolute hway) (node_of_leads (w := w.grown habsolute hway) hx)
  have hseen := happart root hroot
  rw [(overlap_iff (lexicalResolve_exact base hway.extends hpath hs (hnames hs))
    (lexicalResolve_exact base hway.extends (hroots root hroot) hl (hnames hl))).2 hover] at hseen
  cases hseen

/-- Nothing but a root. -/
def bare : Filesystem where
  tree :=
    { node := fun l => if l = [] then some .dir else none
      data := fun _ => ⟨[], 0⟩
      unused := 0
      used := fun h => by split_ifs at h; cases h
      rooted := fun h => by simp at h }
  root := rfl
  names h := by simp at h
  cwd := []
  stands := rfl
  refuses _ := false
  complaint := "No such file or directory (os error 2)"

/-- A library and nothing else. -/
def oneLibrary : Filesystem := (bare.newStagingRoot (.ofString "/m/lib") []).1

example : (oneLibrary.newStagingRoot (.ofString "/m/lib/a") [.ofString "/m/lib"]).1.tree.node
    [fileName "m", fileName "lib", fileName "a"] = some .dir := by decide +kernel

end Filesystem

end SeedMedic
