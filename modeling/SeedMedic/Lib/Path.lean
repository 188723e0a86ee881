/-
  Paths of a Unix system: byte strings, the components they spell, and their
  reading as text.
-/
import Mathlib.Data.List.Lex
import Mathlib.Order.Defs.LinearOrder

namespace Lib

/-- A path as the system has it: any bytes. -/
structure PathBuf where
  bytes : List UInt8
  deriving DecidableEq, Inhabited

inductive Component where
  | rootDir
  | curDir
  | parentDir
  | normal (name : List UInt8)
  deriving DecidableEq

/-- Components in the order paths compare in. -/
def Component.rank : Component → List ℕ
  | .rootDir => [0]
  | .curDir => [1]
  | .parentDir => [2]
  | .normal name => 3 :: name.map UInt8.toNat

theorem Component.rank_injective : Function.Injective Component.rank := by
  intro a b h
  cases a <;> cases b <;> simp only [Component.rank, List.cons.injEq] at h
  case normal.normal left right =>
    rw [List.map_injective_iff.2 (fun x y hxy => UInt8.toNat_inj.1 hxy) h.2]
  all_goals first | rfl | omega

namespace PathBuf

/-- A path spelled in UTF-8. -/
def ofString (s : String) : PathBuf := ⟨s.toByteArray.data.toList⟩

/-- The byte of a slash. -/
def slash : UInt8 := 47

/-- The byte of a full stop. -/
def dot : UInt8 := 46

/-- The component one segment between slashes stands for; empty segments and all
    but a leading full stop are skipped. -/
def segment (leading : Bool) (s : List UInt8) : Option Component :=
  if s = [] then none
  else if s = [dot] then (if leading then some .curDir else none)
  else if s = [dot, dot] then some .parentDir
  else some (.normal s)

/-- The components of a path. -/
def components (p : PathBuf) : List Component :=
  match p.bytes.splitOn slash with
  | [] => []
  | s :: ss =>
    (if s = [] ∧ ss ≠ [] then [.rootDir] else (segment true s).toList) ++
      ss.filterMap (segment false)

/-- What two paths are compared by. -/
def sortKey (p : PathBuf) : List (List ℕ) := p.components.map Component.rank

/-- Paths compare component by component. -/
def le (p q : PathBuf) : Bool := decide (p.sortKey ≤ q.sortKey)

/-- Two paths are equal when they spell the same components. -/
instance : BEq PathBuf := ⟨fun p q => decide (p.sortKey = q.sortKey)⟩

theorem beq_iff {p q : PathBuf} : (p == q) = true ↔ p.sortKey = q.sortKey := decide_eq_true_iff

/-- The bytes as text, when they are UTF-8. -/
def toStr (p : PathBuf) : Option String := String.fromUTF8? ⟨p.bytes.toArray⟩

/-- The last component, when it is a name. -/
def fileName (p : PathBuf) : Option (List UInt8) :=
  match p.components.getLast? with
  | some (.normal name) => some name
  | _ => none

theorem fileName_of_beq {p q : PathBuf} (h : (p == q) = true) : p.fileName = q.fileName := by
  have hcomponents : p.components = q.components :=
    List.map_injective_iff.2 Component.rank_injective (beq_iff.1 h)
  unfold fileName
  rw [hcomponents]

/-- Whether a path starts at the root of the system. -/
def isAbsolute (p : PathBuf) : Bool := p.bytes.head? = some slash

/-- A relative path below this one, or an absolute one in its place. -/
def join (p : PathBuf) (s : String) : PathBuf :=
  if (ofString s).isAbsolute then ofString s
  else ⟨(if p.bytes.getLast? = some slash ∨ p.bytes = [] then p.bytes else p.bytes ++ [slash]) ++
    (ofString s).bytes⟩

/-- An entry of a directory: a name below this path, or an absolute path in its place. -/
def push (p : PathBuf) (b : List UInt8) : PathBuf :=
  if (⟨b⟩ : PathBuf).isAbsolute then ⟨b⟩
  else ⟨(if p.bytes.getLast? = some slash ∨ p.bytes = [] then p.bytes else p.bytes ++ [slash]) ++ b⟩

/-- A segment behind the first one that spells nothing. -/
def isBlank (s : List UInt8) : Bool := s = [] || s = [dot]

/-- The segments without blank ones at their end. -/
def trimRight (ss : List (List UInt8)) : List (List UInt8) := (ss.reverse.dropWhile isBlank).reverse

/-- The segments behind the first `n` that spell something, without blank ones at either end. -/
def skip : ℕ → List (List UInt8) → List (List UInt8)
  | 0, ss => trimRight (ss.dropWhile isBlank)
  | _ + 1, [] => []
  | n + 1, s :: ss => if isBlank s then skip (n + 1) ss else skip n ss

/-- What follows the components of `base`. -/
def stripPrefix (p base : PathBuf) : Option PathBuf :=
  if base.components.isPrefixOf p.components then
    match base.components.length, p.bytes.splitOn slash with
    | _, [] => some p
    | 0, s :: ss =>
      if s = [] ∧ ss ≠ [] then some ⟨slash :: [slash].intercalate (trimRight ss)⟩
      else some ⟨[slash].intercalate (s :: trimRight ss)⟩
    | n + 1, _ :: ss => some ⟨[slash].intercalate (skip n ss)⟩
  else none

/-- A path that can only name a directory: it ends in a slash, or in a full stop behind one. -/
def endsOpen (p : PathBuf) : Bool := (p.bytes.splitOn slash).getLast?.any isBlank

/-! ## Components of a joined path -/

theorem components_of_splitOn {b s : List UInt8} {ss : List (List UInt8)}
    (h : b.splitOn slash = s :: ss) :
    (⟨b⟩ : PathBuf).components = (if s = [] ∧ ss ≠ [] then [.rootDir] else (segment true s).toList) ++
      ss.filterMap (segment false) := by
  rw [components, h]

/-- The bytes of one ordinary name. -/
structure Name (n : List UInt8) : Prop where
  ne_nil : n ≠ []
  ne_dot : n ≠ [dot]
  ne_dots : n ≠ [dot, dot]
  plain : slash ∉ n

/-- What stands between two separators holds none, and nothing else than the whole does. -/
theorem mem_splitOn {α : Type} [DecidableEq α] {a : α} {l s : List α} (hs : s ∈ l.splitOn a) :
    a ∉ s ∧ s ⊆ l := by
  induction l generalizing s with
  | nil =>
    rw [List.splitOn_nil, List.mem_singleton] at hs
    subst hs
    exact ⟨List.not_mem_nil, List.Subset.refl _⟩
  | cons x l ih =>
    rw [List.splitOn_cons_eq_if_modifyHead] at hs
    split_ifs at hs with hx
    · rcases List.mem_cons.1 hs with rfl | hs
      · exact ⟨List.not_mem_nil, List.nil_subset _⟩
      · exact ⟨(ih hs).1, List.subset_cons_of_subset x (ih hs).2⟩
    · obtain ⟨t, ts, ht⟩ := List.exists_cons_of_ne_nil (List.splitOn_ne_nil a l)
      rw [ht, List.modifyHead_cons] at hs
      rcases List.mem_cons.1 hs with rfl | hs
      · obtain ⟨hplain, hsub⟩ := ih (ht ▸ List.mem_cons_self)
        refine ⟨?_, List.cons_subset_cons x hsub⟩
        rintro (_ | ⟨_, h⟩)
        · exact hx (by simp)
        · exact hplain h
      · obtain ⟨hplain, hsub⟩ := ih (ht ▸ List.mem_cons_of_mem _ hs)
        exact ⟨hplain, List.subset_cons_of_subset x hsub⟩

theorem Name.segment {n : List UInt8} (h : Name n) (leading : Bool) :
    segment leading n = some (.normal n) := by
  rw [PathBuf.segment, if_neg h.ne_nil, if_neg h.ne_dot, if_neg h.ne_dots]

theorem filterMap_segment {names : List (List UInt8)} (h : ∀ n ∈ names, Name n) :
    names.filterMap (segment false) = names.map .normal := by
  rw [List.filterMap_congr fun n hn => (h n hn).segment false, ← List.filterMap_eq_map]
  rfl

/-- Names between slashes are the components of what they spell. -/
theorem components_intercalate {names : List (List UInt8)} (hne : names ≠ [])
    (h : ∀ n ∈ names, Name n) :
    (⟨[slash].intercalate names⟩ : PathBuf).components = names.map .normal := by
  have hsplit : ([slash].intercalate names).splitOn slash = names :=
    List.splitOn_intercalate slash (fun n hn => (h n hn).plain) hne
  obtain ⟨n, ns, rfl⟩ := List.exists_cons_of_ne_nil hne
  obtain ⟨hn, hns⟩ := List.forall_mem_cons.1 h
  rw [components_of_splitOn hsplit, if_neg fun hroot => hn.ne_nil hroot.1, hn.segment,
    filterMap_segment hns]
  rfl

/-- Names behind a slash come after the components of what stands before it. -/
theorem components_append_slash {b : List UInt8} {names : List (List UInt8)} (hne : names ≠ [])
    (h : ∀ n ∈ names, Name n) :
    (⟨b ++ slash :: [slash].intercalate names⟩ : PathBuf).components =
      (⟨b ++ [slash]⟩ : PathBuf).components ++ names.map .normal := by
  obtain ⟨s, ss, hb⟩ := List.exists_cons_of_ne_nil (List.splitOn_ne_nil slash b)
  have hnames : (b ++ slash :: [slash].intercalate names).splitOn slash = s :: (ss ++ names) := by
    rw [List.splitOn_append_cons_self, hb,
      List.splitOn_intercalate slash (fun n hn => (h n hn).plain) hne]
    rfl
  have hlone : (b ++ [slash]).splitOn slash = s :: (ss ++ [[]]) := by
    rw [List.splitOn_append_cons_self, hb, List.splitOn_nil]
    rfl
  rw [components_of_splitOn hnames, components_of_splitOn hlone, List.filterMap_append,
    List.filterMap_append, filterMap_segment h]
  simp [hne, segment]

/-- A slash at the end of a path spells nothing. -/
theorem components_concat_slash {b : List UInt8} (hb : b ≠ []) :
    (⟨b ++ [slash]⟩ : PathBuf).components = (⟨b⟩ : PathBuf).components := by
  obtain ⟨s, ss, hsplit⟩ := List.exists_cons_of_ne_nil (List.splitOn_ne_nil slash b)
  have hlone : (b ++ [slash]).splitOn slash = s :: (ss ++ [[]]) := by
    rw [List.splitOn_append_cons_self, hsplit, List.splitOn_nil]
    rfl
  have hroot : (s = [] ∧ ss ++ [[]] ≠ []) ↔ s = [] ∧ ss ≠ [] := by
    refine and_congr_right fun hs => ⟨fun _ hss => ?_, fun _ => by simp⟩
    -- the only text of one empty segment is the empty one
    have hjoin : [slash].intercalate (b.splitOn slash) = b := List.intercalate_splitOn slash
    rw [hsplit, hs, hss] at hjoin
    exact hb hjoin.symm
  rw [components_of_splitOn hlone, components_of_splitOn hsplit]
  simp only [hroot, List.filterMap_append]
  simp [segment]

/-- What is pushed onto a directory stays below it, if it is names. -/
theorem components_push {p : PathBuf} {b : List UInt8} {names : List (List UInt8)} (hne : names ≠ [])
    (h : ∀ n ∈ names, Name n) (hb : b = [slash].intercalate names) :
    (p.push b).components = p.components ++ names.map .normal := by
  have hrelative : (⟨b⟩ : PathBuf).isAbsolute = false := by
    obtain ⟨n, ns, rfl⟩ := List.exists_cons_of_ne_nil hne
    have hn := h n (List.mem_cons_self ..)
    obtain ⟨c, cs, rfl⟩ := List.exists_cons_of_ne_nil hn.ne_nil
    have hc : c ≠ slash := fun hc => hn.plain (hc ▸ List.mem_cons_self ..)
    have hhead : ([slash].intercalate ((c :: cs) :: ns)).head? = some c := by
      cases ns <;> rfl
    rw [isAbsolute, hb, hhead]
    exact decide_eq_false fun he => hc (Option.some.inj he)
  rw [push, hrelative, if_neg Bool.false_ne_true, hb]
  obtain ⟨bytes⟩ := p
  by_cases hempty : bytes = []
  · subst hempty
    exact components_intercalate hne h
  by_cases hlast : bytes.getLast? = some slash
  · obtain ⟨b, rfl⟩ := List.getLast?_eq_some_iff.1 hlast
    rw [if_pos (.inl hlast)]
    simpa using components_append_slash (b := b) hne h
  · rw [if_neg (by simp [hlast, hempty]), List.append_assoc, List.singleton_append,
      components_append_slash hne h, components_concat_slash hempty]

/-- A path of names that is joined onto a directory stays below it. -/
theorem components_join {p : PathBuf} {s : String} {names : List (List UInt8)} (hne : names ≠ [])
    (h : ∀ n ∈ names, Name n) (hs : (ofString s).bytes = [slash].intercalate names) :
    (p.join s).components = p.components ++ names.map .normal := components_push hne h hs

theorem components_push_name {p : PathBuf} {n : List UInt8} (h : Name n) :
    (p.push n).components = p.components ++ [.normal n] :=
  components_push (List.cons_ne_nil n []) (by simpa using h) (by simp [List.intercalate])

/-! ## Text as bytes -/

theorem bytes_ofString (s : String) :
    (ofString s).bytes = s.toList.flatMap String.utf8EncodeChar := by
  rw [ofString, ← String.utf8Encode_toList]
  simp [List.utf8Encode]

/-- An ASCII byte stands for itself only. -/
theorem mem_utf8EncodeChar {b : UInt8} {c : Char} (hb : b.toNat < 128)
    (h : b ∈ String.utf8EncodeChar c) : c.val.toNat = b.toNat := by
  -- the bytes of longer encodings all have their first bit set
  have hhigh : ∀ n, 128 ≤ n → n < 256 → b ≠ UInt8.ofNat n := by
    rintro n hn hn' rfl
    rw [UInt8.toNat_ofNat'] at hb
    omega
  unfold String.utf8EncodeChar at h
  dsimp only at h
  split_ifs at h <;> simp only [List.mem_cons, List.not_mem_nil, or_false] at h
  · subst h
    rw [UInt8.toNat_ofNat']
    omega
  · rcases h with h | h <;> exact absurd h (hhigh _ (by omega) (by omega))
  · rcases h with h | h | h <;> exact absurd h (hhigh _ (by omega) (by omega))
  · rcases h with h | h | h | h <;> exact absurd h (hhigh _ (by omega) (by omega))

/-! ## Lossy reading -/

/-- Whether `b` may stand at place `i` behind the lead byte `lead`. -/
def continues (lead : UInt8) (i : ℕ) (b : UInt8) : Bool :=
  if i = 0 then
    (if lead = 0xE0 then 0xA0 ≤ b && b ≤ 0xBF
    else if lead = 0xED then 0x80 ≤ b && b ≤ 0x9F
    else if lead = 0xF0 then 0x90 ≤ b && b ≤ 0xBF
    else if lead = 0xF4 then 0x80 ≤ b && b ≤ 0x8F
    else 0x80 ≤ b && b ≤ 0xBF)
  else 0x80 ≤ b && b ≤ 0xBF

/-- How many bytes must follow a lead byte; none where it leads nothing. -/
def follow (lead : UInt8) : Option ℕ :=
  if lead ≤ 0x7F then some 0
  else if 0xC2 ≤ lead && lead ≤ 0xDF then some 1
  else if 0xE0 ≤ lead && lead ≤ 0xEF then some 2
  else if 0xF0 ≤ lead && lead ≤ 0xF4 then some 3
  else none

/-- How many of the bytes behind `lead` continue it, from place `i`, `n` at most. -/
def taken (lead : UInt8) : ℕ → ℕ → List UInt8 → ℕ
  | 0, _, _ => 0
  | _, _, [] => 0
  | n + 1, i, b :: bs => if continues lead i b then 1 + taken lead n (i + 1) bs else 0

/-- The encoding of the replacement character. -/
def replacement : List UInt8 := [0xEF, 0xBF, 0xBD]

/-- The bytes with every maximal broken sequence replaced; `fuel` bounds the sequences. -/
def lossyBytes : ℕ → List UInt8 → List UInt8
  | 0, _ => []
  | _, [] => []
  | fuel + 1, b :: bs =>
    match follow b with
    | none => replacement ++ lossyBytes fuel bs
    | some n =>
      let k := taken b n 0 bs
      if k = n then b :: bs.take k ++ lossyBytes fuel (bs.drop k)
      else replacement ++ lossyBytes fuel (bs.drop k)

/-- The bytes as text, with replacement characters where they are not UTF-8. -/
def toStringLossy (p : PathBuf) : String :=
  match p.toStr with
  | some s => s
  | none => (String.fromUTF8? ⟨(lossyBytes p.bytes.length p.bytes).toArray⟩).getD ""

theorem toStr_ofString (s : String) : (ofString s).toStr = some s := by
  have h : (⟨s.toByteArray.data.toList.toArray⟩ : ByteArray) = s.toByteArray := rfl
  simp only [toStr, ofString, h, String.fromUTF8?, String.fromUTF8, dif_pos s.isValidUTF8]

/-- What is read as text is spelled by it. -/
theorem ofString_of_toStr {p : PathBuf} {s : String} (h : p.toStr = some s) : ofString s = p := by
  simp only [toStr, String.fromUTF8?] at h
  split_ifs at h
  cases h
  rfl

@[simp] theorem toStringLossy_ofString (s : String) : (ofString s).toStringLossy = s := by
  simp only [toStringLossy, toStr_ofString]

end PathBuf

end Lib
