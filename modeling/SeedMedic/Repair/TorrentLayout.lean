/-
  Whether the files of an accepted torrent can all be had at once: as rows of a plan, and on disk.
-/
import SeedMedic.Repair.StoreSpec
import SeedMedic.Repair.Steps
import SeedMedic.Torrent.FileLists

namespace SeedMedic

open Lib FileTree Bencode

variable {sha1 : List UInt8 → Digest} {bytes : List UInt8} {m : TorrentMetadata}

/-- What is expected of the files of an accepted torrent. -/
structure Layable (m : TorrentMetadata) : Prop where
  distinct : m.files.Pairwise fun f g => f.path ≠ g.path
  /-- No file is a directory of another. -/
  unnested : ∀ f ∈ m.files, ∀ g ∈ m.files, ¬f.path.Holds g.path
  /-- The rows that the fetch writes are taken, whatever the store holds. -/
  keyed : ∀ (s : SqliteRepairStore) (now : Time) (id : JobId) (t : Transition)
    (u : TransitionUpdate) (bytes : List UInt8) (r : JobRow), s.jobs.get? id = some r →
      r.state = t.fromState →
      ∃ s', s.apply now id t { u with patch := fetchedPatch m bytes } = .ok (.applied, s')
  /-- There is a tree that has every file, with its length. -/
  laid : ∃ tree : FileTree (List UInt8), ∀ f ∈ m.files, ∃ i,
    tree.node f.path.names = some (.file i) ∧ (tree.data i).bytes.length = f.length

/-- Paths that are no parts of each other are those that diverge. -/
theorem diverge_iff {files : List TorrentFile} : Diverge (files.map fun f => f.path.names) ↔
    (files.Pairwise fun f g => f.path ≠ g.path) ∧
      ∀ f ∈ files, ∀ g ∈ files, ¬f.path.Holds g.path := by
  constructor
  · intro h
    refine ⟨List.Pairwise.imp ?_ (List.pairwise_map.1 h), fun f hf g hg hholds => ?_⟩
    · rintro f g ⟨hfg, -⟩ he
      exact hfg (by rw [he])
    · obtain ⟨hpre, hne⟩ := SafeRelativePath.holds_iff.1 hholds
      exact hne (SafeRelativePath.names_inj
        (h.eq_of_isPrefix (List.mem_map_of_mem hf) (List.mem_map_of_mem hg) hpre))
  · rintro ⟨hdistinct, hunnested⟩
    refine List.pairwise_map.2 (hdistinct.imp_of_mem fun {f g} hf hg hne => ⟨?_, ?_⟩)
    · intro h
      exact hunnested f hf g hg (SafeRelativePath.holds_iff.2 ⟨h, hne⟩)
    · intro h
      exact hunnested g hg f hf (SafeRelativePath.holds_iff.2 ⟨h, hne.symm⟩)

/-- The files of a torrent fit together when their paths diverge. -/
theorem layable_iff : Layable m ↔ Diverge (m.files.map fun f => f.path.names) := by
  rw [diverge_iff]
  refine ⟨fun h => ⟨h.distinct, h.unnested⟩, fun ⟨hdistinct, hunnested⟩ =>
    ⟨hdistinct, hunnested, fun s now id t u bytes r hr hfrom => ?_, ?_⟩⟩
  · refine (SqliteRepairStore.apply_applied_iff hr hfrom).2 fun files hfiles => ?_
    obtain rfl : fetchedFiles m = files := Option.some.inj hfiles
    rw [fetchedFiles, List.map_map]
    exact List.pairwise_map.2 hdistinct
  · let files := m.files.map fun f => (f.path.names, List.replicate f.length (0 : UInt8))
    have hdiverge : Diverge (files.map Prod.fst) := by
      rw [List.map_map]
      exact diverge_iff.2 ⟨hdistinct, hunnested⟩
    refine ⟨layOut files hdiverge, fun f hf => ?_⟩
    obtain ⟨i, hnode, hdata⟩ := layOut_node files hdiverge
      (f := (f.path.names, List.replicate f.length 0)) (List.mem_map_of_mem hf)
    exact ⟨i, hnode, by rw [hdata, List.length_replicate]⟩

/-- The files of an accepted torrent have paths of their own, none of them a directory of another,
    so that the store takes their rows and a disk can hold them, exactly when no path that the
    document lists is another one or the beginning of it. -/
theorem inspect_layable_iff (h : inspect sha1 bytes = .ok m) : Layable m ↔
    ∀ (t : Tree) (rest : List UInt8), bytes = t.encode ++ rest → Diverge t.filePaths :=
  layable_iff.trans (inspect_diverge h)

/-- A torrent of two files. -/
def pairTorrent (first second : List String) : Tree :=
  let bytes := fun s => (PathBuf.ofString s).bytes
  let file := fun length path => Tree.dict [(bytes "length", .int length),
    (bytes "path", .list (path.map fun s => .bytes (bytes s)))]
  .dict [(bytes "info", .dict [(bytes "files", .list [file 1 first, file 2 second]),
    (bytes "name", .bytes (bytes "t")), (bytes "piece length", .int 1)])]

/-- How such a torrent is read, with a hash that is zero. -/
def inspectPair (first second : List String) : Except InspectError TorrentMetadata :=
  inspect (fun _ => Vector.replicate 20 0) (pairTorrent first second).encode

def pathTexts (r : Except InspectError TorrentMetadata) : Option (List String) :=
  r.toOption.map fun m => m.files.map fun f => f.path.str

theorem exists_of_pathTexts {r : Except InspectError TorrentMetadata} {texts : List String}
    (h : pathTexts r = some texts) :
    ∃ m, r = .ok m ∧ m.files.map (fun f => f.path.str) = texts := by
  cases r with
  | error e => cases h
  | ok m => exact ⟨m, rfl, Option.some.inj h⟩

/-- A torrent that names one file twice is accepted, and so is one that has a file where it has a
    directory. -/
theorem clashing_paths_accepted :
    (∃ m, inspectPair ["a"] ["a"] = .ok m ∧ ¬Layable m) ∧
      ∃ m, inspectPair ["a"] ["a", "b"] = .ok m ∧ ¬Layable m := by
  constructor
  · have hread : pathTexts (inspectPair ["a"] ["a"]) = some ["t/a", "t/a"] := by decide +kernel
    obtain ⟨m, hm, htexts⟩ := exists_of_pathTexts hread
    refine ⟨m, hm, fun h => ?_⟩
    have hne : (m.files.map fun f => f.path.str).Nodup :=
      List.pairwise_map.2 (h.distinct.imp fun hne he => hne (SafeRelativePath.ext_str he))
    rw [htexts] at hne
    exact absurd hne (by decide)
  · have hread : pathTexts (inspectPair ["a"] ["a", "b"]) = some ["t/a", "t/a/b"] := by
      decide +kernel
    obtain ⟨m, hm, htexts⟩ := exists_of_pathTexts hread
    refine ⟨m, hm, fun h => ?_⟩
    have hdiverge := layable_iff.1 h
    have hnames : m.files.map (fun f => f.path.names) = ["t/a", "t/a/b"].map
        fun s => (splitParts s).map fun c => (PathBuf.ofString c).bytes := by
      rw [← htexts, List.map_map]
      rfl
    rw [hnames] at hdiverge
    exact absurd hdiverge (by unfold Diverge; decide +kernel)

theorem pair_layable : ∃ m, inspectPair ["a"] ["b"] = .ok m ∧ Layable m := by
  have hread : pathTexts (inspectPair ["a"] ["b"]) = some ["t/a", "t/b"] := by decide +kernel
  obtain ⟨m, hm, -⟩ := exists_of_pathTexts hread
  refine ⟨m, hm, (inspect_layable_iff hm).2 fun t rest h => ?_⟩
  have h' : (pairTorrent ["a"] ["b"]).encode ++ [] = t.encode ++ rest := (List.append_nil _).trans h
  obtain ⟨rfl, -⟩ := encode_unique h'
  unfold Diverge
  decide +kernel

end SeedMedic
