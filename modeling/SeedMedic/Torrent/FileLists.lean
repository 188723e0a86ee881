/-
  The files that a torrent names: a document is decoded in one way, and the paths of an accepted
  torrent are those its info entry lists, below the name of the torrent.
-/
import SeedMedic.Lib.FileTree
import SeedMedic.Torrent.BencodeComplete

namespace SeedMedic

open Lib FileTree

namespace Bencode

/-! ## One decoding -/

/-- What stands in front of a delimiter is found again. -/
theorem append_cons_inj {α : Type} {d : α} {a b x y : List α} (ha : d ∉ a) (hb : d ∉ b)
    (h : a ++ d :: x = b ++ d :: y) : a = b ∧ x = y := by
  induction a generalizing b with
  | nil =>
    cases b with
    | nil => exact ⟨rfl, (List.cons.inj h).2⟩
    | cons c b => exact absurd (List.mem_cons.2 (.inl (List.cons.inj h).1)) hb
  | cons c a ih =>
    cases b with
    | nil => exact absurd (List.mem_cons.2 (.inl (List.cons.inj h).1.symm)) ha
    | cons c' b =>
      obtain ⟨rfl, hrest⟩ := List.cons.inj h
      obtain ⟨rfl, hxy⟩ := ih (fun hd => ha (List.mem_cons_of_mem _ hd))
        (fun hd => hb (List.mem_cons_of_mem _ hd)) hrest
      exact ⟨rfl, hxy⟩

theorem not_mem_decimal {d : UInt8} (hd : isDigit d = false) (n : ℕ) : d ∉ decimal n := by
  intro hmem
  have hdigit := isDigit_decimal d hmem
  simp [hd] at hdigit

theorem decimal_inj {n m : ℕ} (h : decimal n = decimal m) : n = m := by
  rw [← spelled_decimal n, h, spelled_decimal m]

theorem not_mem_decimalInt (i : ℤ) : 101 ∉ decimalInt i := fun h => (numeric_decimalInt _ h).2 rfl

theorem decimalInt_inj {i j : ℤ} (h : decimalInt i = decimalInt j) : i = j := by
  have hminus : ∀ n m, decimal n ≠ 45 :: decimal m := by
    intro n m he
    have hmem : (45 : UInt8) ∈ decimal n := by simp [he]
    exact not_mem_decimal (by decide) n hmem
  cases i with
  | ofNat n =>
    cases j with
    | ofNat m => exact congrArg Int.ofNat (decimal_inj h)
    | negSucc m => exact absurd h (hminus n (m + 1))
  | negSucc n =>
    cases j with
    | ofNat m => exact absurd h.symm (hminus m (n + 1))
    | negSucc m => exact congrArg Int.negSucc (Nat.succ.inj (decimal_inj (List.cons.inj h).2))

theorem encodeBytes_unique {a b x y : List UInt8} (h : encodeBytes a ++ x = encodeBytes b ++ y) :
    a = b ∧ x = y := by
  simp only [encodeBytes, List.append_assoc, List.cons_append] at h
  obtain ⟨hlength, hrest⟩ := append_cons_inj (not_mem_decimal (by decide) _)
    (not_mem_decimal (by decide) _) h
  exact List.append_inj hrest (decimal_inj hlength)

/-- The letter a value starts with tells what kind it is. -/
theorem lead_ne {c : UInt8} {bs x y : List UInt8} (hc : isDigit c = false) :
    c :: x ≠ encodeBytes bs ++ y := by
  obtain ⟨d, ds, hd, hdigit⟩ := encodeBytes_cons bs
  rw [hd]
  intro h
  obtain ⟨rfl, -⟩ := List.cons.inj h
  simp [hc] at hdigit

mutual

/-- Two values that are written at one place are one. -/
theorem encode_unique : ∀ {t u : Tree} {x y : List UInt8}, t.encode ++ x = u.encode ++ y →
    t = u ∧ x = y
  | .int i, .int j, x, y, h => by
    simp only [Tree.encode, List.cons_append, List.append_assoc] at h
    obtain ⟨hi, hxy⟩ := append_cons_inj (not_mem_decimalInt i) (not_mem_decimalInt j)
      (List.cons.inj h).2
    exact ⟨congrArg _ (decimalInt_inj hi), hxy⟩
  | .bytes a, .bytes b, x, y, h => by
    simp only [Tree.encode] at h
    obtain ⟨rfl, hxy⟩ := encodeBytes_unique h
    exact ⟨rfl, hxy⟩
  | .list ts, .list us, x, y, h => by
    simp only [Tree.encode, List.cons_append, List.append_assoc] at h
    obtain ⟨rfl, hxy⟩ := encodeItems_unique (List.cons.inj h).2
    exact ⟨rfl, hxy⟩
  | .dict es, .dict fs, x, y, h => by
    simp only [Tree.encode, List.cons_append, List.append_assoc] at h
    obtain ⟨rfl, hxy⟩ := encodeEntries_unique (List.cons.inj h).2
    exact ⟨rfl, hxy⟩
  | .int _, .bytes _, _, _, h => absurd h (lead_ne (by decide))
  | .int _, .list _, _, _, h => by simp [Tree.encode] at h
  | .int _, .dict _, _, _, h => by simp [Tree.encode] at h
  | .bytes _, .int _, _, _, h => absurd h.symm (lead_ne (by decide))
  | .bytes _, .list _, _, _, h => absurd h.symm (lead_ne (by decide))
  | .bytes _, .dict _, _, _, h => absurd h.symm (lead_ne (by decide))
  | .list _, .int _, _, _, h => by simp [Tree.encode] at h
  | .list _, .bytes _, _, _, h => absurd h (lead_ne (by decide))
  | .list _, .dict _, _, _, h => by simp [Tree.encode] at h
  | .dict _, .int _, _, _, h => by simp [Tree.encode] at h
  | .dict _, .bytes _, _, _, h => absurd h (lead_ne (by decide))
  | .dict _, .list _, _, _, h => by simp [Tree.encode] at h

theorem encodeItems_unique : ∀ {ts us : List Tree} {x y : List UInt8},
    encodeItems ts ++ 101 :: x = encodeItems us ++ 101 :: y → ts = us ∧ x = y
  | [], [], _, _, h => ⟨rfl, (List.cons.inj h).2⟩
  | [], u :: us, _, _, h => by
    obtain ⟨c, cs, hc, hend⟩ := encode_cons u
    rw [encodeItems, encodeItems, hc] at h
    exact absurd (List.cons.inj h).1.symm hend
  | t :: ts, [], _, _, h => by
    obtain ⟨c, cs, hc, hend⟩ := encode_cons t
    rw [encodeItems, encodeItems, hc] at h
    exact absurd (List.cons.inj h).1 hend
  | t :: ts, u :: us, x, y, h => by
    simp only [encodeItems, List.append_assoc] at h
    obtain ⟨rfl, hrest⟩ := encode_unique h
    obtain ⟨rfl, hxy⟩ := encodeItems_unique hrest
    exact ⟨rfl, hxy⟩

theorem encodeEntries_unique : ∀ {es fs : List (List UInt8 × Tree)} {x y : List UInt8},
    encodeEntries es ++ 101 :: x = encodeEntries fs ++ 101 :: y → es = fs ∧ x = y
  | [], [], _, _, h => ⟨rfl, (List.cons.inj h).2⟩
  | [], (key, u) :: fs, _, _, h => by
    simp only [encodeEntries, List.nil_append, List.append_assoc] at h
    exact absurd h (lead_ne (by decide))
  | (key, t) :: es, [], _, _, h => by
    simp only [encodeEntries, List.nil_append, List.append_assoc] at h
    exact absurd h.symm (lead_ne (by decide))
  | (key, t) :: es, (key', u) :: fs, x, y, h => by
    simp only [encodeEntries, List.append_assoc] at h
    obtain ⟨rfl, hvalue⟩ := encodeBytes_unique h
    obtain ⟨rfl, hrest⟩ := encode_unique hvalue
    obtain ⟨rfl, hxy⟩ := encodeEntries_unique hrest
    exact ⟨rfl, hxy⟩

end

end Bencode

/-! ## Paths as names -/

namespace SafeRelativePath

/-- The names a path consists of, as the system has them. -/
def names (p : SafeRelativePath) : List (List UInt8) :=
  (splitParts p.str).map fun c => (PathBuf.ofString c).bytes

theorem names_ne_nil (p : SafeRelativePath) : p.names ≠ [] := by
  simpa [names] using p.parts_spec.1

theorem names_inj {p q : SafeRelativePath} (h : p.names = q.names) : p = q := by
  have hparts : splitParts p.str = splitParts q.str :=
    List.map_injective_iff.2 (fun _ _ => bytes_ofString_inj) h
  exact ext_str (p.parts_spec.2.2.trans ((congrArg joinParts hparts).trans q.parts_spec.2.2.symm))

theorem names_of_str {p : SafeRelativePath} {parts : List String} (hne : parts ≠ [])
    (h : ∀ c ∈ parts, validateComponent c = .ok ()) (hp : p.str = joinParts parts) :
    p.names = parts.map fun c => (PathBuf.ofString c).bytes := by
  rw [names, hp, splitParts_joinParts hne h]

theorem names_under (p d : SafeRelativePath) : (p.under d).names = d.names ++ p.names := by
  obtain ⟨hp, hpv, hps⟩ := p.parts_spec
  obtain ⟨hd, hdv, hds⟩ := d.parts_spec
  have hstr : (p.under d).str = joinParts (splitParts d.str ++ splitParts p.str) := by
    rw [joinParts_append hd hp, ← hps, ← hds]
    rfl
  rw [names_of_str (by simp [hd]) (fun c hc => ?_) hstr, List.map_append]
  · rfl
  · rcases List.mem_append.1 hc with hc | hc
    · exact validateComponent_iff.2 (hdv c hc)
    · exact validateComponent_iff.2 (hpv c hc)

theorem names_fromComponents {cs : List String} {p : SafeRelativePath}
    (h : fromComponents cs = .ok p) : p.names = cs.map fun c => (PathBuf.ofString c).bytes := by
  unfold fromComponents at h
  split at h
  · cases h
  · rename_i hvalid
    split_ifs at h with hne
    cases h
    exact names_of_str hne (validateAll_ok hvalid) rfl

/-- A path names a directory that another one lies in. -/
def Holds (p q : SafeRelativePath) : Prop := ∃ r : SafeRelativePath, q = r.under p

theorem holds_iff {p q : SafeRelativePath} : p.Holds q ↔ p.names <+: q.names ∧ p ≠ q := by
  constructor
  · rintro ⟨r, rfl⟩
    rw [names_under]
    refine ⟨List.prefix_append _ _, fun h => r.names_ne_nil ?_⟩
    have hnames := congrArg names h
    rw [names_under] at hnames
    exact List.self_eq_append_right.1 hnames
  · rintro ⟨⟨rest, hrest⟩, hne⟩
    obtain ⟨-, hq, hqs⟩ := q.parts_spec
    -- the components behind those of `p`
    let k := (splitParts p.str).length
    have htake : (splitParts q.str).take k = splitParts p.str := by
      refine List.map_injective_iff.2 (fun _ _ => bytes_ofString_inj) ?_
      change List.map (fun c => (PathBuf.ofString c).bytes) _ = p.names
      rw [List.map_take]
      change List.take _ q.names = p.names
      rw [← hrest, List.take_left' (by simp [k, names])]
    have hsplit : splitParts p.str ++ (splitParts q.str).drop k = splitParts q.str := by
      rw [← htake]
      exact List.take_append_drop _ _
    have hdrop : (splitParts q.str).drop k ≠ [] := by
      intro hnil
      rw [hnil, List.append_nil] at hsplit
      exact hne (ext_str (p.parts_spec.2.2.trans ((congrArg joinParts hsplit).trans hqs.symm)))
    refine ⟨⟨joinParts ((splitParts q.str).drop k), _, hdrop, fun c hc => ?_, rfl⟩, ext_str ?_⟩
    · exact validateComponent_iff.2 (hq c (List.mem_of_mem_drop hc))
    · change q.str = p.str ++ "/" ++ joinParts ((splitParts q.str).drop k)
      conv_lhs => rw [hqs, ← hsplit]
      rw [joinParts_append p.parts_spec.1 hdrop, ← p.parts_spec.2.2]

end SafeRelativePath

namespace Bencode

/-! ## What a document declares -/

/-- The first entry of a key. -/
def Tree.entry (key : String) : Tree → Option Tree
  | .dict entries => (entries.find? fun e => e.1 = (PathBuf.ofString key).bytes).map (·.2)
  | _ => none

def Tree.items : Tree → List Tree
  | .list items => items
  | _ => []

def Tree.text : Tree → List UInt8
  | .bytes b => b
  | _ => []

/-- The names an entry of a file list has for its file. -/
def Tree.path (file : Tree) : List (List UInt8) :=
  ((file.entry "path").elim [] Tree.items).map Tree.text

/-- What a document lists as the paths of its files. -/
def Tree.filePaths (t : Tree) : List (List (List UInt8)) :=
  (((t.entry "info").bind (Tree.entry "files")).elim [] Tree.items).map Tree.path

theorem entry_tree {entries : List (List UInt8 × Node)} {start stop : ℕ} (key : String) :
    (Node.mk (.dict entries) start stop).tree.entry key = (find entries key).map Node.tree := by
  change ((entryTrees entries).find? fun e => e.1 = (PathBuf.ofString key).bytes).map (·.2) = _
  unfold find
  induction entries with
  | nil => rfl
  | cons e es ih =>
    obtain ⟨k, n⟩ := e
    simp only [entryTrees, List.find?_cons]
    by_cases hk : k = (PathBuf.ofString key).bytes
    · simp [hk]
    · simpa [hk] using ih

theorem trees_eq_map (ns : List Node) : trees ns = ns.map Node.tree := by
  induction ns with
  | nil => rfl
  | cons n ns ih => rw [trees, ih, List.map_cons]

theorem entry_of_find {n m : Node} {entries : List (List UInt8 × Node)} {key : String}
    (hn : n.value.asDict = .ok entries) (h : find entries key = some m) :
    n.tree.entry key = some m.tree := by
  obtain ⟨value, start, stop⟩ := n
  obtain rfl : value = .dict entries := asDict_ok.1 hn
  rw [entry_tree, h]
  rfl

theorem items_tree {n : Node} {items : List Node} (h : n.value.asList = .ok items) :
    n.tree.items = items.map Node.tree := by
  obtain ⟨value, start, stop⟩ := n
  obtain rfl : value = .list items := asList_ok.1 h
  exact trees_eq_map items

theorem asBytes_ok {v : Value} {b : List UInt8} : v.asBytes = .ok b ↔ v = .bytes b := by
  cases v <;> simp [Value.asBytes]

/-- The text of a component is what stands in the document. -/
theorem text_tree {n : Node} {c : String} (h : decodePathComponent n = .ok c) :
    n.tree.text = (PathBuf.ofString c).bytes := by
  obtain ⟨value, start, stop⟩ := n
  unfold decodePathComponent at h
  obtain ⟨b, hb, htext⟩ := bind_eq_ok.1 h
  obtain rfl : value = .bytes b := asBytes_ok.1 (malformed_ok.1 hb)
  split at htext
  · rename_i text hutf8
    cases htext
    unfold fromUtf8 PathBuf.toStr String.fromUTF8? at hutf8
    split_ifs at hutf8
    obtain rfl := Option.some.inj hutf8
    rfl
  · cases htext

theorem texts_trees {ns : List Node} {cs : List String} (h : ns.mapM decodePathComponent = .ok cs) :
    (ns.map Node.tree).map Tree.text = cs.map fun c => (PathBuf.ofString c).bytes := by
  rw [List.map_map]
  exact (map_mapM (fun hc => (text_tree hc).symm) h).symm

theorem unsafePath_ok {α : Type} {x : Except PathRejection α} {a : α} :
    unsafePath x = .ok a ↔ x = .ok a := by
  cases x <;> simp [unsafePath, Except.mapError]

/-- A file has the names of its entry, below those of the torrent. -/
theorem decodeFile_names {name : SafeRelativePath} {node : Node} {f : TorrentFile}
    (h : decodeFile name node = .ok f) : f.path.names = name.names ++ node.tree.path := by
  unfold decodeFile at h
  obtain ⟨entries, hentries, h₁⟩ := bind_eq_ok.1 h
  obtain ⟨lengthNode, -, h₂⟩ := bind_eq_ok.1 h₁
  obtain ⟨length, -, h₃⟩ := bind_eq_ok.1 h₂
  obtain ⟨pathNode, hpath, h₄⟩ := bind_eq_ok.1 h₃
  obtain ⟨components, hcomponents, h₅⟩ := bind_eq_ok.1 h₄
  split_ifs at h₅
  obtain ⟨texts, htexts, h₆⟩ := bind_eq_ok.1 h₅
  obtain ⟨path, hsafe, h₇⟩ := bind_eq_ok.1 h₆
  cases h₇
  have hentry := entry_of_find (malformed_ok.1 hentries) (required_ok.1 hpath)
  have hitems := items_tree (malformed_ok.1 hcomponents)
  rw [SafeRelativePath.names_under, SafeRelativePath.names_fromComponents (unsafePath_ok.1 hsafe),
    Tree.path, hentry, Option.elim_some, hitems, texts_trees htexts]

theorem decodeFiles_names {name : SafeRelativePath} {node : Node} {files : List TorrentFile}
    (h : decodeFiles node name = .ok files) : files.map (fun f => f.path.names) =
      (node.tree.items.map Tree.path).map fun path => name.names ++ path := by
  unfold decodeFiles at h
  obtain ⟨entries, hentries, hfiles⟩ := bind_eq_ok.1 h
  split_ifs at hfiles
  rw [items_tree (malformed_ok.1 hentries), List.map_map, List.map_map]
  exact map_mapM decodeFile_names hfiles

/-- What an accepted document lists, and what is made of it. -/
theorem inspect_names {sha1 : List UInt8 → Digest} {bytes : List UInt8} {m : TorrentMetadata}
    (h : inspect sha1 bytes = .ok m) : ∃ (t : Tree) (rest : List UInt8), bytes = t.encode ++ rest ∧
      ((∃ length, m.files = [⟨m.name, length⟩] ∧ t.filePaths = []) ∨
        m.files.map (fun f => f.path.names) = t.filePaths.map fun path => m.name.names ++ path) := by
  obtain ⟨entries, start, stop, infoNode, infoEntries, hroot, hinfo, -, hdict, hfrom⟩ := inspect_ok h
  obtain ⟨hstart, hexact⟩ := parse_exact hroot
  obtain rfl : start = 0 := hstart
  refine ⟨_, bytes.drop stop, (hexact _ (.self _)).reads.rest, ?_⟩
  have hentry : (Node.mk (.dict entries) 0 stop).tree.entry "info" =
      (find entries "info").map Node.tree := entry_tree "info"
  rw [hinfo, Option.map_some] at hentry
  generalize m.files = files at hfrom ⊢
  cases hfrom with
  | single found alone read =>
    refine .inl ⟨_, rfl, ?_⟩
    obtain ⟨value, start', stop'⟩ := infoNode
    obtain rfl : value = .dict infoEntries := asDict_ok.1 hdict
    rw [Tree.filePaths, hentry, Option.bind_some, entry_tree, alone]
    rfl
  | listed found read =>
    refine .inr ?_
    rw [Tree.filePaths, hentry, Option.bind_some, entry_of_find hdict found, decodeFiles_names read]
    rfl

/-- The paths of an accepted torrent diverge when those its document lists do. -/
theorem inspect_diverge {sha1 : List UInt8 → Digest} {bytes : List UInt8} {m : TorrentMetadata}
    (h : inspect sha1 bytes = .ok m) : Diverge (m.files.map fun f => f.path.names) ↔
      ∀ (t : Tree) (rest : List UInt8), bytes = t.encode ++ rest → Diverge t.filePaths := by
  obtain ⟨t, rest, rfl, hfiles⟩ := inspect_names h
  have hone : Diverge (m.files.map fun f => f.path.names) ↔ Diverge t.filePaths := by
    rcases hfiles with ⟨length, hsingle, hnone⟩ | hlisted
    · rw [hsingle, hnone]
      exact ⟨fun _ => List.Pairwise.nil, fun _ => List.pairwise_singleton _ _⟩
    · rw [hlisted, diverge_map_append]
  refine hone.trans ⟨fun ht u rest' hu => ?_, fun hall => hall t rest rfl⟩
  obtain ⟨rfl, -⟩ := encode_unique hu
  exact ht

end Bencode

end SeedMedic
