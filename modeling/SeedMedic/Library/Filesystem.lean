/-
  Library files found by walking a library root (`library/adapters/filesystem.rs`).
-/
import Mathlib.Data.Finset.Basic
import SeedMedic.Lib.Descent
import SeedMedic.Lib.Fallible
import SeedMedic.Lib.Walk
import SeedMedic.Library.MatchingUnion
import SeedMedic.Repair.Effects
import SeedMedic.Staging.Outcomes

namespace SeedMedic

open Lib FileTree

namespace Filesystem

def MAX_DEPTH : ℕ := 16

/-- What the system answers about a library that does not change. -/
structure Answers where
  readDir : PathBuf → Except String (List (Except String FileName))
  symlinkMetadata : PathBuf → Except String Metadata

/-- The directories still to be read, the next one first, and the files found so far. -/
structure Walk where
  pending : List (PathBuf × ℕ)
  found : List Candidate

section
variable (sys : Answers) (root : PathBuf) (wanted : Finset ℕ)

def cannotRead (directory : PathBuf) (error : String) : CandidateError :=
  .io ("cannot read " ++ directory.toStringLossy ++ ": " ++ error)

/-- One entry of a directory. -/
def visit (directory : PathBuf) (depth : ℕ) (w : Walk) (entry : Except String FileName) :
    Except CandidateError Walk :=
  match entry with
  | .error e => .error (cannotRead directory e)
  | .ok name =>
    let path := directory.push name
    match sys.symlinkMetadata path with
    -- vanished, or not to be looked at
    | .error _ => .ok w
    | .ok metadata =>
      if metadata.fileType = .symlink then .ok w
      else if metadata.fileType = .dir then .ok { w with pending := (path, depth + 1) :: w.pending }
      else if metadata.fileType = .file ∧ metadata.len ∈ wanted then
        .ok { w with found := w.found ++ [⟨path, metadata.len, .filesystem root⟩] }
      else .ok w

/-- Read the pending directories, one after another. -/
def collectFrom : ℕ → Walk → Option (Except CandidateError (List Candidate))
  | _, ⟨[], found⟩ => some (.ok found)
  | 0, ⟨_ :: _, _⟩ => none
  | fuel + 1, ⟨(directory, depth) :: pending, found⟩ =>
    if MAX_DEPTH < depth then collectFrom fuel ⟨pending, found⟩
    else
      match sys.readDir directory with
      | .error e => some (.error (cannotRead directory e))
      | .ok entries =>
        match entries.foldlM (visit sys root wanted directory depth) ⟨pending, found⟩ with
        | .error e => some (.error e)
        | .ok w => collectFrom fuel w

/-- The files of a wanted size below a root, by path. -/
def collect (fuel : ℕ) : Option (Except CandidateError (List Candidate)) :=
  (collectFrom sys root wanted fuel ⟨[(root, 0)], []⟩).map fun r =>
    r.map fun found => found.insertionSort fun a b => a.path.le b.path

/-- `FilesystemCandidateSource::find_candidates`. -/
def findCandidates (fuel : ℕ) (query : CandidateQuery) :
    Option (Except CandidateError (List Candidate)) :=
  let wanted := (query.files.map (·.length)).toFinset
  if wanted = ∅ then some (.ok []) else collect sys root wanted fuel

end

/-! ## What a candidate was taken for -/

/-- The candidate is a regular file by itself, of the length that is told. -/
def Looked (sys : Answers) (c : Candidate) : Prop :=
  ∃ m, sys.symlinkMetadata c.path = .ok m ∧ m.fileType = .file ∧ m.len = c.sizeBytes

section
variable {sys : Answers} {root : PathBuf} {wanted : Finset ℕ}

theorem visit_looked {directory : PathBuf} {depth : ℕ} {w w' : Walk} {entry : Except String FileName}
    (h : visit sys root wanted directory depth w entry = .ok w') (hw : ∀ c ∈ w.found, Looked sys c) :
    ∀ c ∈ w'.found, Looked sys c := by
  rcases entry with e | name
  · cases h
  unfold visit at h
  dsimp only at h
  split at h
  · cases h
    exact hw
  · rename_i m hlook
    split_ifs at h with hlink hdir hfile <;> cases h
    · exact hw
    · exact hw
    · intro c hc
      rcases List.mem_append.1 hc with hc | hc
      · exact hw c hc
      · rw [List.mem_singleton.1 hc]
        exact ⟨m, hlook, hfile.1, rfl⟩
    · exact hw

theorem collectFrom_looked : ∀ {fuel : ℕ} {w : Walk} {found : List Candidate},
    collectFrom sys root wanted fuel w = some (.ok found) → (∀ c ∈ w.found, Looked sys c) →
      ∀ c ∈ found, Looked sys c := by
  intro fuel w found h hw
  fun_induction collectFrom sys root wanted fuel w with
  | case1 =>
    cases h
    exact hw
  | case2 => cases h
  | case3 _ _ _ _ _ _ ih => exact ih h hw
  | case4 => cases h
  | case5 => cases h
  | case6 _ _ _ _ _ _ _ _ w' hvisited ih =>
    exact ih h (foldlM_invariant (I := fun w => ∀ c ∈ w.found, Looked sys c) visit_looked hvisited hw)

/-- Whatever the system answers, what is found in a library was looked at. -/
theorem findCandidates_looked {fuel : ℕ} {query : CandidateQuery} {found : List Candidate}
    (h : findCandidates sys root fuel query = some (.ok found)) : ∀ c ∈ found, Looked sys c := by
  unfold findCandidates at h
  dsimp only at h
  split_ifs at h
  · cases h
    nofun
  · obtain ⟨r, hr, hsorted⟩ := Option.map_eq_some_iff.1 h
    rcases r with e | walked
    · cases hsorted
    · cases hsorted
      intro c hc
      exact collectFrom_looked hr nofun c ((List.mem_insertionSort _).1 hc)

end

/-! ## What the answers show -/

/-- The path of a place below a root. -/
def below (root : PathBuf) (ns : List FileName) : PathBuf := ns.foldl PathBuf.push root

theorem below_concat (root : PathBuf) (ns : List FileName) (n : FileName) :
    below root (ns ++ [n]) = (below root ns).push n := by
  simp [below]

/-- The answers about the library that has its root at the place `d` of a tree: its directories can
    be read, and what lies in them can be looked at. -/
structure Shows (sys : Answers) (fs : FileTree FileName) (d : List FileName) (root : PathBuf) :
    Prop where
  dir : fs.node d = some .dir
  named : ∀ ns n, fs.node (d ++ (ns ++ [n])) ≠ none → PathBuf.Name n
  lists : ∀ ns, ns.length ≤ MAX_DEPTH → fs.node (d ++ ns) = some .dir →
    ∃ names : List FileName, sys.readDir (below root ns) = .ok (names.map .ok) ∧ names.Nodup ∧
      ∀ n, n ∈ names ↔ fs.node (d ++ (ns ++ [n])) ≠ none
  looks : ∀ ns n, ns.length ≤ MAX_DEPTH → fs.node (d ++ (ns ++ [n])) ≠ none →
    ∃ m, sys.symlinkMetadata (below root (ns ++ [n])) = .ok m ∧ Describes fs (d ++ (ns ++ [n])) m

section
variable (sys : Answers) (root : PathBuf) (wanted : Finset ℕ)

/-- The names that are listed in a directory. -/
def listed (ns : List FileName) : List FileName :=
  match sys.readDir (below root ns) with
  | .ok entries => entries.filterMap Except.toOption
  | .error _ => []

/-- What is looked at is of a kind. -/
def isKind (kind : FileType) (ns : List FileName) : Bool :=
  match sys.symlinkMetadata (below root ns) with
  | .ok m => m.fileType = kind
  | .error _ => false

/-- The length that is told of an entry. -/
def size (ns : List FileName) : ℕ :=
  match sys.symlinkMetadata (below root ns) with
  | .ok m => m.len
  | .error _ => 0

/-- The directories in a directory, the one to be read first in front. -/
def subdirs (ns : List FileName) : List FileName :=
  if ns.length ≤ MAX_DEPTH then
    ((listed sys root ns).filter fun n => isKind sys root .dir (ns ++ [n])).reverse
  else []

/-- What is looked at is a file of a wanted size. -/
def isHit (ns : List FileName) : Bool :=
  isKind sys root .file ns && decide (size sys root ns ∈ wanted)

/-- The places of such files in a directory. -/
def hits (ns : List FileName) : List (List FileName) :=
  if ns.length ≤ MAX_DEPTH then
    ((listed sys root ns).filter fun n => isHit sys root wanted (ns ++ [n])).map fun n => ns ++ [n]
  else []

def candidateAt (ns : List FileName) : Candidate :=
  ⟨below root ns, size sys root ns, .filesystem root⟩

variable {sys root wanted} {fs : FileTree FileName} {d : List FileName}

theorem visit_ok (ns : List FileName) (w : Walk) (n : FileName) :
    visit sys root wanted (below root ns) ns.length w (.ok n) = .ok
      ⟨(if isKind sys root .dir (ns ++ [n]) then
          [(below root (ns ++ [n]), (ns ++ [n]).length)] else []) ++ w.pending,
        w.found ++ if isHit sys root wanted (ns ++ [n]) then [candidateAt sys root (ns ++ [n])]
          else []⟩ := by
  unfold visit isHit isKind candidateAt size
  simp only [below_concat, List.length_append, List.length_singleton]
  cases hlook : sys.symlinkMetadata ((below root ns).push n) with
  | error e => simp
  | ok m =>
    obtain ⟨kind, len, dev⟩ := m
    cases kind with
    | file => by_cases hwanted : len ∈ wanted <;> simp [hwanted]
    | dir => simp
    | symlink => simp
    | other => simp

/-- A directory is read: its directories come on top of the others, the last one first. -/
theorem foldlM_visit (ns names : List FileName) : ∀ w : Walk,
    (names.map Except.ok).foldlM (visit sys root wanted (below root ns) ns.length) w = .ok
      ⟨((names.filter fun n => isKind sys root .dir (ns ++ [n])).reverse.map fun n =>
          (below root (ns ++ [n]), (ns ++ [n]).length)) ++ w.pending,
        w.found ++ ((names.filter fun n => isHit sys root wanted (ns ++ [n])).map fun n =>
          ns ++ [n]).map (candidateAt sys root)⟩ := by
  induction names with
  | nil => intro w; simp [pure, Except.pure]
  | cons n names ih =>
    intro w
    rw [List.map_cons, List.foldlM_cons, visit_ok]
    refine (ih _).trans ?_
    cases hdir : isKind sys root .dir (ns ++ [n]) <;>
      cases hhit : isHit sys root wanted (ns ++ [n]) <;> simp [hdir, hhit]

theorem Shows.readDir (h : Shows sys fs d root) {ns : List FileName} (hdepth : ns.length ≤ MAX_DEPTH)
    (hns : fs.node (d ++ ns) = some .dir) :
    sys.readDir (below root ns) = .ok ((listed sys root ns).map .ok) ∧ (listed sys root ns).Nodup ∧
      ∀ n, n ∈ listed sys root ns ↔ fs.node (d ++ (ns ++ [n])) ≠ none := by
  obtain ⟨names, hread, hnodup, hmem⟩ := h.lists ns hdepth hns
  have hlisted : listed sys root ns = names := by
    rw [listed, hread]
    simp [List.filterMap_map, Function.comp_def, Except.toOption]
  rw [hlisted]
  exact ⟨hread, hnodup, hmem⟩

/-- What is told of an entry is what it is. -/
theorem Shows.look (h : Shows sys fs d root) {ns : List FileName} {n : FileName}
    (hdepth : ns.length ≤ MAX_DEPTH) (hns : fs.node (d ++ (ns ++ [n])) ≠ none) :
    (isKind sys root .dir (ns ++ [n]) = true ↔ fs.node (d ++ (ns ++ [n])) = some .dir) ∧
    (isKind sys root .file (ns ++ [n]) = true ↔ ∃ i, fs.node (d ++ (ns ++ [n])) = some (.file i) ∧
      size sys root (ns ++ [n]) = (fs.data i).bytes.length) := by
  obtain ⟨m, hlook, hm⟩ := h.looks ns n hdepth hns
  unfold isKind size
  simp only [hlook]
  unfold Describes at hm
  cases hnode : fs.node (d ++ (ns ++ [n])) with
  | none => exact absurd hnode hns
  | some x =>
    rw [hnode] at hm
    cases x with
    | dir =>
      have hkind : m.fileType = .dir := hm
      simp [hkind]
    | file i =>
      obtain ⟨hkind, hlen⟩ := hm
      simp [hkind, hlen]
    | link a t =>
      have hkind : m.fileType = .symlink := hm
      simp [hkind]
    | special =>
      have hkind : m.fileType = .other := hm
      simp [hkind]

theorem Shows.subdirs (h : Shows sys fs d root) {ns : List FileName}
    (hns : fs.node (d ++ ns) = some .dir) {n : FileName} : n ∈ Filesystem.subdirs sys root ns ↔
      ns.length ≤ MAX_DEPTH ∧ fs.node (d ++ (ns ++ [n])) = some .dir := by
  unfold Filesystem.subdirs
  split_ifs with hdepth
  · obtain ⟨-, -, hmem⟩ := h.readDir hdepth hns
    rw [List.mem_reverse, List.mem_filter, hmem]
    constructor
    · rintro ⟨hnode, hkind⟩
      exact ⟨hdepth, (h.look hdepth hnode).1.1 hkind⟩
    · rintro ⟨-, hdir⟩
      have hnode : fs.node (d ++ (ns ++ [n])) ≠ none := by simp [hdir]
      exact ⟨hnode, (h.look hdepth hnode).1.2 hdir⟩
  · exact iff_of_false List.not_mem_nil fun hn => hdepth hn.1

/-- A file of a wanted size at a place. -/
def FileAt (fs : FileTree FileName) (d : List FileName) (wanted : Finset ℕ) (t : List FileName)
    (length : ℕ) : Prop :=
  ∃ ns n i, t = ns ++ [n] ∧ ns.length ≤ MAX_DEPTH ∧ fs.node (d ++ t) = some (.file i) ∧
    (fs.data i).bytes.length = length ∧ length ∈ wanted

theorem Shows.hits (h : Shows sys fs d root) {ns t : List FileName}
    (hns : fs.node (d ++ ns) = some .dir) : t ∈ Filesystem.hits sys root wanted ns ↔
      FileAt fs d wanted t (size sys root t) ∧ t.dropLast = ns := by
  unfold Filesystem.hits isHit FileAt
  split_ifs with hdepth
  · obtain ⟨-, -, hmem⟩ := h.readDir hdepth hns
    simp only [List.mem_map, List.mem_filter, hmem, Bool.and_eq_true, decide_eq_true_eq]
    constructor
    · rintro ⟨n, ⟨hnode, hkind, hwanted⟩, rfl⟩
      obtain ⟨i, hfile, hsize⟩ := (h.look hdepth hnode).2.1 hkind
      exact ⟨⟨ns, n, i, rfl, hdepth, hfile, hsize.symm, hwanted⟩, List.dropLast_concat⟩
    · rintro ⟨⟨ns', n, i, rfl, -, hfile, hsize, hwanted⟩, hlast⟩
      obtain rfl : ns' = ns := List.dropLast_concat.symm.trans hlast
      have hnode : fs.node (d ++ (ns' ++ [n])) ≠ none := by simp [hfile]
      exact ⟨n, ⟨hnode, (h.look hdepth hnode).2.2 ⟨i, hfile, hsize.symm⟩, hwanted⟩, rfl⟩
  · refine iff_of_false List.not_mem_nil ?_
    rintro ⟨⟨ns', n, i, rfl, hdepth', -⟩, hlast⟩
    obtain rfl : ns' = ns := List.dropLast_concat.symm.trans hlast
    exact hdepth hdepth'

/-- The walk works off the stack of the places of its directories. -/
theorem Shows.collectFrom (h : Shows sys fs d root) : ∀ {fuel stack seen},
    (∀ ns ∈ stack, fs.node (d ++ ns) = some .dir) →
      Filesystem.collectFrom sys root wanted fuel
          ⟨stack.map fun ns => (below root ns, ns.length), seen⟩ =
        (drain (Filesystem.subdirs sys root) (fun ns =>
          (Filesystem.hits sys root wanted ns).map (candidateAt sys root)) fuel stack seen).map .ok
  | _, [], _, _ => by simp [Filesystem.collectFrom, drain]
  | 0, _ :: _, _, _ => rfl
  | fuel + 1, ns :: stack, seen, hstack => by
    obtain ⟨hns, hrest⟩ := List.forall_mem_cons.1 hstack
    have hall : ∀ t ∈ (Filesystem.subdirs sys root ns).map (fun n => ns ++ [n]) ++ stack,
        fs.node (d ++ t) = some .dir := by
      intro t ht
      rcases List.mem_append.1 ht with ht | ht
      · obtain ⟨n, hn, rfl⟩ := List.mem_map.1 ht
        exact ((h.subdirs hns).1 hn).2
      · exact hrest t ht
    rw [List.map_cons, Filesystem.collectFrom, drain, ← h.collectFrom hall]
    unfold Filesystem.subdirs Filesystem.hits
    by_cases hdepth : ns.length ≤ MAX_DEPTH
    · obtain ⟨hread, -⟩ := h.readDir hdepth hns
      rw [if_neg (not_lt.2 hdepth), if_pos hdepth, if_pos hdepth, hread]
      dsimp only
      rw [foldlM_visit]
      simp [List.map_append, List.map_map, Function.comp_def]
    · rw [if_pos (not_le.1 hdepth), if_neg hdepth, if_neg hdepth]
      simp

/-- The directories the walk comes to. -/
theorem Shows.mem_descend (h : Shows sys fs d root) {t : List FileName} :
    t ∈ descend (Filesystem.subdirs sys root) (MAX_DEPTH + 2) [] ↔
      t.length ≤ MAX_DEPTH + 1 ∧ fs.node (d ++ t) = some .dir := by
  rw [Lib.mem_descend]
  constructor
  · rintro ⟨ns, ht, hlength, hns⟩
    obtain rfl : t = ns := ht
    have hdirs : ∀ p, p <+: t → fs.node (d ++ p) = some .dir := by
      intro p
      induction p using List.reverseRecOn with
      | nil => exact fun _ => by simpa using h.dir
      | append_singleton p n ih =>
        intro hp
        exact ((h.subdirs (ih ((List.prefix_append p [n]).trans hp))).1 (hns p n hp)).2
    exact ⟨Nat.le_of_lt_succ hlength, hdirs t List.prefix_rfl⟩
  · rintro ⟨hlength, hdir⟩
    refine ⟨t, rfl, Nat.lt_succ_of_le hlength, fun p n hp => ?_⟩
    have hpn : fs.node (d ++ (p ++ [n])) = some .dir :=
      dir_of_isPrefix hdir ((List.prefix_append_right_inj d).2 hp)
    have hdepth : p.length ≤ MAX_DEPTH := by
      have hle := hp.length_le
      rw [List.length_append, List.length_singleton] at hle
      omega
    refine (h.subdirs ?_).2 ⟨hdepth, hpn⟩
    exact dir_of_isPrefix hpn ((List.prefix_append_right_inj d).2 (List.prefix_append p [n]))

/-- The places of the files that are found, as the walk comes to them. -/
def places (sys : Answers) (root : PathBuf) (wanted : Finset ℕ) : List (List FileName) :=
  (descend (Filesystem.subdirs sys root) (MAX_DEPTH + 2) []).flatMap
    (Filesystem.hits sys root wanted)

theorem Shows.mem_places (h : Shows sys fs d root) {t : List FileName} :
    t ∈ places sys root wanted ↔ FileAt fs d wanted t (size sys root t) := by
  simp only [places, List.mem_flatMap, h.mem_descend]
  constructor
  · rintro ⟨ns, ⟨-, hns⟩, ht⟩
    exact ((h.hits hns).1 ht).1
  · intro hfile
    obtain ⟨ns, n, i, rfl, hdepth, hnode, hlength⟩ := hfile
    have hns : fs.node (d ++ ns) = some .dir := by
      refine fs.rooted (n := n) ?_
      rw [List.append_assoc, hnode]
      exact Option.some_ne_none _
    exact ⟨ns, ⟨by omega, hns⟩, (h.hits hns).2
      ⟨⟨ns, n, i, rfl, hdepth, hnode, hlength⟩, List.dropLast_concat⟩⟩

theorem Shows.nodup_places (h : Shows sys fs d root) : (places sys root wanted).Nodup := by
  have hlisted : ∀ ns, fs.node (d ++ ns) = some .dir → ns.length ≤ MAX_DEPTH →
      (listed sys root ns).Nodup := fun ns hns hdepth => (h.readDir hdepth hns).2.1
  have hconcat : ∀ ns : List FileName, Function.Injective fun n => ns ++ [n] := by
    intro ns n m he
    simpa using he
  refine List.nodup_flatMap.2 ⟨fun ns hns => ?_, ?_⟩
  · unfold Filesystem.hits
    split_ifs with hdepth
    · exact ((hlisted ns (h.mem_descend.1 hns).2 hdepth).filter _).map (hconcat ns)
    · exact List.nodup_nil
  · refine (nodup_descend fun ns hns => ?_).imp_of_mem fun {ns ms} hns hms hne => ?_
    · unfold Filesystem.subdirs
      split_ifs with hdepth
      · exact List.nodup_reverse.2 ((hlisted ns (h.mem_descend.1 hns).2 hdepth).filter _)
      · exact List.nodup_nil
    · intro t ht ht'
      exact hne (((h.hits (h.mem_descend.1 hns).2).1 ht).2.symm.trans
        ((h.hits (h.mem_descend.1 hms).2).1 ht').2)

/-- The names on the way to an entry are names. -/
theorem Shows.names (h : Shows sys fs d root) {t : List FileName} (ht : fs.node (d ++ t) ≠ none) :
    ∀ n ∈ t, PathBuf.Name n := by
  induction t using List.reverseRecOn with
  | nil => exact fun n hn => nomatch hn
  | append_singleton t m ih =>
    have hdir : fs.node (d ++ t) = some .dir := fs.rooted (by simpa using ht)
    intro n hn
    rcases List.mem_append.1 hn with hn | hn
    · exact ih (by simp [hdir]) n hn
    · obtain rfl := List.mem_singleton.1 hn
      exact h.named t n ht

theorem components_below {ns : List FileName} (h : ∀ n ∈ ns, PathBuf.Name n) :
    (below root ns).components = root.components ++ ns.map .normal := by
  induction ns using List.reverseRecOn with
  | nil => simp [below]
  | append_singleton ns n ih =>
    have hns : ∀ m ∈ ns, PathBuf.Name m := fun m hm => h m (by simp [hm])
    rw [below_concat, PathBuf.components_push_name (h n (by simp)), ih hns]
    simp

theorem below_inj {ns ms : List FileName} (hns : ∀ n ∈ ns, PathBuf.Name n)
    (hms : ∀ n ∈ ms, PathBuf.Name n) (h : (below root ns == below root ms) = true) : ns = ms := by
  have hcomponents : (below root ns).components = (below root ms).components :=
    List.map_injective_iff.2 Component.rank_injective (PathBuf.beq_iff.1 h)
  rw [components_below hns, components_below hms, List.append_cancel_left_eq] at hcomponents
  exact List.map_injective_iff.2 (fun _ _ => Component.normal.inj) hcomponents

end

/-- The candidates that the tree below a root has: every regular file of a wanted size that lies in
    a directory not too deep, once, in the order of the paths. -/
structure Collected (fs : FileTree FileName) (d : List FileName) (root : PathBuf)
    (wanted : Finset ℕ) (found : List Candidate) : Prop where
  mem : ∀ c, c ∈ found ↔ ∃ t length, FileAt fs d wanted t length ∧
    c = ⟨below root t, length, .filesystem root⟩
  once : (found.map Candidate.path).Nodup
  sorted : found.Pairwise fun a b => a.path.le b.path = true

section
variable {sys : Answers} {root : PathBuf} {wanted : Finset ℕ} {fs : FileTree FileName}
  {d : List FileName} {found found' : List Candidate}

theorem FileAt.node_ne {t : List FileName} {length : ℕ} (h : FileAt fs d wanted t length) :
    fs.node (d ++ t) ≠ none := by
  obtain ⟨ns, n, i, rfl, -, hnode, -⟩ := h
  simp [hnode]

/-- There is one such list. -/
theorem Collected.unique (h : Shows sys fs d root) (hf : Collected fs d root wanted found)
    (hf' : Collected fs d root wanted found') : found = found' := by
  have hperm : found.Perm found' :=
    (List.perm_ext_iff_of_nodup hf.once.of_map hf'.once.of_map).2 fun c =>
      (hf.mem c).trans (hf'.mem c).symm
  have hsame := map_eq_of_sorted (f := id) hperm hf.sorted hf'.sorted fun a ha b hb hab hba => by
    obtain ⟨t, length, ht, rfl⟩ := (hf.mem a).1 ha
    obtain ⟨u, length', hu, rfl⟩ := (hf.mem b).1 hb
    obtain rfl := below_inj (h.names ht.node_ne) (h.names hu.node_ne)
      (PathBuf.le_and_le_iff.1 ⟨hab, hba⟩)
    obtain ⟨-, -, i, -, -, hi, rfl, -⟩ := ht
    obtain ⟨-, -, j, -, -, hj, rfl, -⟩ := hu
    rw [hi] at hj
    cases hj
    rfl
  simpa using hsame

/-- The walk comes to an end, with that list. -/
theorem Shows.collect (h : Shows sys fs d root) : ∃ found, Collected fs d root wanted found ∧
    ∃ enough, ∀ fuel, enough ≤ fuel →
      Filesystem.collect sys root wanted fuel = some (.ok found) := by
  have hsize : ∀ {t length}, FileAt fs d wanted t length → size sys root t = length := by
    intro t length ht
    obtain ⟨ns, n, i, rfl, hdepth, hnode, rfl, -⟩ := ht
    have hne : fs.node (d ++ (ns ++ [n])) ≠ none := by simp [hnode]
    obtain ⟨m, hlook, hm⟩ := h.looks ns n hdepth hne
    rw [Describes, hnode] at hm
    rw [size, hlook]
    exact hm.2
  refine ⟨((places sys root wanted).map (candidateAt sys root)).insertionSort fun a b =>
    a.path.le b.path, ⟨fun c => ?_, ?_, List.pairwise_insertionSort _ _⟩, ?_⟩
  · simp only [List.mem_insertionSort, List.mem_map, h.mem_places]
    constructor
    · rintro ⟨t, ht, rfl⟩
      exact ⟨t, _, ht, rfl⟩
    · rintro ⟨t, length, ht, rfl⟩
      obtain rfl := hsize ht
      exact ⟨t, ht, rfl⟩
  · refine ((List.perm_insertionSort _ _).map Candidate.path).nodup_iff.2 ?_
    rw [List.map_map]
    refine h.nodup_places.map_on fun t ht u hu he => ?_
    have hpath : (below root t == below root u) = true := PathBuf.beq_iff.2 (congrArg _ he)
    exact below_inj (h.names (h.mem_places.1 ht).node_ne) (h.names (h.mem_places.1 hu).node_ne) hpath
  · have hdeep : ∀ s : List FileName, MAX_DEPTH < s.length → Filesystem.subdirs sys root s = [] :=
      fun s hs => if_neg (not_le.2 hs)
    obtain ⟨enough, henough⟩ := drain_eq (fun ns =>
      (Filesystem.hits sys root wanted ns).map (candidateAt sys root)) hdeep
    refine ⟨enough, fun fuel hfuel => ?_⟩
    have hwalk : Filesystem.collectFrom sys root wanted fuel
        ⟨[[]].map fun ns => (below root ns, ns.length), []⟩ = _ :=
      h.collectFrom (by simpa using h.dir)
    rw [henough fuel hfuel] at hwalk
    change (Filesystem.collectFrom sys root wanted fuel
      ⟨[[]].map fun ns => (below root ns, ns.length), []⟩).map _ = _
    rw [hwalk, places, List.map_flatMap]
    rfl

end

end Filesystem

open Filesystem in
/-- In a library that does not change and whose directories can be read, the walk ends with exactly
    the regular files of a wanted size that directories below the root lead to, not too deep and
    through no link, each once and in the order of their paths; in whatever order directories list
    their entries. -/
theorem collect_collected {sys : Filesystem.Answers} {fs : FileTree FileName} {d : List FileName}
    {root : PathBuf} (h : Shows sys fs d root) (wanted : Finset ℕ) :
    ∃ found, Collected fs d root wanted found ∧ ∀ sys', Shows sys' fs d root →
      ∃ enough, ∀ fuel, enough ≤ fuel → collect sys' root wanted fuel = some (.ok found) ∧
        ∀ query : CandidateQuery, (query.files.map (·.length)).toFinset = wanted →
          findCandidates sys' root fuel query = some (.ok found) := by
  obtain ⟨found, hfound, -⟩ : ∃ found, Collected fs d root wanted found ∧ _ := h.collect
  refine ⟨found, hfound, fun sys' h' => ?_⟩
  obtain ⟨found', hfound', enough, henough⟩ : ∃ found, Collected fs d root wanted found ∧ _ :=
    h'.collect
  obtain rfl := hfound.unique h hfound'
  refine ⟨enough, fun fuel hfuel => ⟨henough fuel hfuel, ?_⟩⟩
  rintro query rfl
  unfold findCandidates
  dsimp only
  split_ifs with hnone
  · -- nothing is wanted
    rw [hnone] at hfound
    have hempty : found = [] := List.eq_nil_iff_forall_not_mem.2 fun c hc => by
      obtain ⟨t, length, ⟨-, -, -, -, -, -, -, hwanted⟩, -⟩ := (hfound.mem c).1 hc
      exact absurd hwanted (Finset.notMem_empty _)
    rw [hempty]
  · exact henough fuel hfuel

/-- A library of one file. -/
def shelf : FileTree FileName :=
  layOut [([fileName "e01.mkv"], [1])] (List.pairwise_singleton _ _)

namespace Filesystem

def shelfRoot : PathBuf := .ofString "/library"

def shelfAnswers : Answers where
  readDir p := .ok (if p = shelfRoot then [.ok (fileName "e01.mkv")] else [])
  symlinkMetadata p :=
    if p = shelfRoot.push (fileName "e01.mkv") then .ok ⟨.file, 1, 7⟩ else .error "not found"

theorem shelf_node {t : List FileName} : shelf.node t =
    if t = [fileName "e01.mkv"] then some (.file 0) else if t = [] then some .dir else none := by
  change (if (List.any [([fileName "e01.mkv"], [(1 : UInt8)])] fun f => f.1 = t) = true then _
    else if t = [] ∨ _ then _ else _) = _
  by_cases hfile : t = [fileName "e01.mkv"]
  · subst hfile
    rfl
  · have hne : ¬[fileName "e01.mkv"] = t := fun h => hfile h.symm
    by_cases hnil : t = []
    · subst hnil
      rfl
    · -- the only beginnings of the path of the file are these two
      have hpre : ¬t <+: [fileName "e01.mkv"] := by
        rw [List.prefix_cons_iff]
        rintro (rfl | ⟨t', rfl, ht'⟩)
        · exact hnil rfl
        · exact hfile (by rw [List.prefix_nil.1 ht'])
      simp [hfile, hnil, hne, hpre]

theorem shelf_shows : Shows shelfAnswers shelf [] shelfRoot where
  dir := rfl
  named ns n h := by
    rw [List.nil_append, shelf_node] at h
    have hname : ns ++ [n] = [fileName "e01.mkv"] := by
      by_contra hne
      simp [hne] at h
    obtain ⟨rfl, rfl⟩ : ns = [] ∧ n = fileName "e01.mkv" := by
      obtain ⟨hns, hn⟩ := List.append_inj' (hname.trans (List.nil_append _).symm) rfl
      exact ⟨hns, by simpa using hn⟩
    exact ⟨by decide, by decide, by decide, by decide⟩
  lists ns hdepth h := by
    rw [List.nil_append, shelf_node] at h
    obtain rfl : ns = [] := by
      by_contra hne
      split_ifs at h
      cases h
    refine ⟨[fileName "e01.mkv"], rfl, List.nodup_singleton _, fun n => ?_⟩
    rw [List.nil_append, List.nil_append, shelf_node]
    by_cases hn : n = fileName "e01.mkv" <;> simp [hn]
  looks ns n hdepth h := by
    rw [List.nil_append, shelf_node] at h
    have hname : ns ++ [n] = [fileName "e01.mkv"] := by
      by_contra hne
      simp [hne] at h
    rw [hname]
    exact ⟨⟨.file, 1, 7⟩, rfl, rfl, rfl⟩

theorem shelf_collected : ∃ found, Collected shelf [] shelfRoot {1} found ∧
    ∃ enough, ∀ fuel, enough ≤ fuel →
      collect shelfAnswers shelfRoot {1} fuel = some (.ok found) := by
  obtain ⟨found, hfound, hall⟩ := collect_collected shelf_shows {1}
  obtain ⟨enough, henough⟩ := hall shelfAnswers shelf_shows
  exact ⟨found, hfound, enough, fun fuel hfuel => (henough fuel hfuel).1⟩

end Filesystem

end SeedMedic
