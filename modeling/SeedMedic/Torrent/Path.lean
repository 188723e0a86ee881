/-
  The path-traversal boundary: relative paths that are safe to join onto a
  directory the program owns (`torrent/path.rs`).
-/
import SeedMedic.Lib.Path
import Mathlib.Data.List.Nodup
import Mathlib.Order.Basic

namespace SeedMedic

open Lib

/-- The longest single component that is created. -/
def maxComponentBytes : ℕ := 255

inductive PathRejection where
  | empty
  | emptyComponent
  | absolute
  | parentTraversal
  | currentDirectory
  | separatorInComponent (component : String)
  | controlCharacter (component : String)
  | componentTooLong (len : ℕ)
  deriving DecidableEq

namespace PathRejection

/-- The character as it stands between quotes in a debug rendering. -/
def escape : Char → List Char
  | '\\' => ['\\', '\\']
  | '"' => ['\\', '"']
  | '\n' => ['\\', 'n']
  | '\r' => ['\\', 'r']
  | '\t' => ['\\', 't']
  | '\x00' => ['\\', '0']
  | c => [c]

/-- The debug rendering of a string. -/
def debugStr (s : String) : String := "\"" ++ String.ofList (s.toList.flatMap escape) ++ "\""

/-- The text of a rejection. -/
def toText : PathRejection → String
  | empty => "path has no components"
  | emptyComponent => "path component is empty"
  | absolute => "absolute paths are not allowed"
  | parentTraversal => "`..` components are not allowed"
  | currentDirectory => "`.` components are not allowed"
  | separatorInComponent c => "component contains a path separator: " ++ debugStr c
  | controlCharacter c => "component contains a NUL or control byte: " ++ debugStr c
  | componentTooLong len => "component is " ++ toString len ++ " bytes, limit is " ++
      toString maxComponentBytes

end PathRejection

/-- The control characters of Unicode. -/
def isControl (c : Char) : Bool := c.val < 0x20 || (0x7F ≤ c.val && c.val ≤ 0x9F)

/-- Whether the system agrees that a component is exactly one ordinary name. -/
def agreedComponent (component : String) : Except PathRejection Unit :=
  match (PathBuf.ofString component).components with
  | [.normal _] => .ok ()
  | .rootDir :: _ => .error .absolute
  | .parentDir :: _ => .error .parentTraversal
  | .curDir :: _ => .error .currentDirectory
  | _ => .error (.separatorInComponent component)

/-- Whether one component of a path is an ordinary name. -/
def validateComponent (component : String) : Except PathRejection Unit :=
  if component = "" then .error .emptyComponent
  else if maxComponentBytes < component.utf8ByteSize then
    .error (.componentTooLong component.utf8ByteSize)
  else if component = ".." then .error .parentTraversal
  else if component = "." then .error .currentDirectory
  else if component.toList.head? = some '/' ∨ component.toList.head? = some '\\' then
    .error .absolute
  else if '/' ∈ component.toList ∨ '\\' ∈ component.toList then
    .error (.separatorInComponent component)
  else if component.toList.any isControl then .error (.controlCharacter component)
  else agreedComponent component

/-- What is asked of a component: not empty, not too long, neither of the names the system keeps for
    itself, and without separators and control characters. -/
structure PlainName (c : String) : Prop where
  ne_empty : c ≠ ""
  short : c.utf8ByteSize ≤ maxComponentBytes
  ne_dot : c ≠ "."
  ne_dots : c ≠ ".."
  plain : ∀ d ∈ c.toList, d ≠ '/' ∧ d ≠ '\\' ∧ isControl d = false

theorem bytes_ofString_inj {s t : String} (h : (PathBuf.ofString s).bytes = (PathBuf.ofString t).bytes) :
    s = t := by
  have hpath : PathBuf.ofString s = PathBuf.ofString t := congrArg PathBuf.mk h
  have hread := congrArg PathBuf.toStr hpath
  rw [PathBuf.toStr_ofString, PathBuf.toStr_ofString] at hread
  exact Option.some.inj hread

/-- The bytes of such a component are one name to the system. -/
theorem PlainName.name {c : String} (h : PlainName c) : PathBuf.Name (PathBuf.ofString c).bytes where
  ne_nil hb := h.ne_empty (bytes_ofString_inj hb)
  ne_dot hb := h.ne_dot (bytes_ofString_inj hb)
  ne_dots hb := h.ne_dots (bytes_ofString_inj hb)
  plain hb := by
    rw [PathBuf.bytes_ofString, List.mem_flatMap] at hb
    obtain ⟨d, hd, hslash⟩ := hb
    have hval := PathBuf.mem_utf8EncodeChar (by decide) hslash
    exact (h.plain d hd).1 (Char.toNat_inj.1 hval)

theorem PlainName.agreed {c : String} (h : PlainName c) : agreedComponent c = .ok () := by
  have hone := PathBuf.components_intercalate (List.cons_ne_nil (PathBuf.ofString c).bytes [])
    (by simpa using h.name)
  rw [agreedComponent, show (PathBuf.ofString c).components = [.normal (PathBuf.ofString c).bytes] by
    simpa using hone]

/-- A component is accepted when it is such a name. -/
theorem validateComponent_iff {c : String} : validateComponent c = .ok () ↔ PlainName c := by
  constructor
  · intro h
    unfold validateComponent at h
    split_ifs at h with h1 h2 h3 h4 h5 h6 h7
    refine ⟨h1, not_lt.1 h2, h4, h3, fun d hd => ⟨?_, ?_, ?_⟩⟩
    · rintro rfl
      exact h6 (.inl hd)
    · rintro rfl
      exact h6 (.inr hd)
    · by_contra hctl
      exact h7 (List.any_eq_true.2 ⟨d, hd, by simpa using hctl⟩)
  · intro h
    have hhead : ∀ d, c.toList.head? = some d → d ≠ '/' ∧ d ≠ '\\' := fun d hd =>
      ⟨(h.plain d (List.mem_of_head? hd)).1, (h.plain d (List.mem_of_head? hd)).2.1⟩
    unfold validateComponent
    rw [if_neg h.ne_empty, if_neg (not_lt.2 h.short), if_neg h.ne_dots, if_neg h.ne_dot, if_neg,
      if_neg, if_neg]
    · exact h.agreed
    · rw [List.any_eq_true]
      rintro ⟨d, hd, hctl⟩
      rw [(h.plain d hd).2.2] at hctl
      cases hctl
    · rintro (hs | hs)
      · exact (h.plain _ hs).1 rfl
      · exact (h.plain _ hs).2.1 rfl
    · rintro (hs | hs)
      · exact (hhead _ hs).1 rfl
      · exact (hhead _ hs).2 rfl

theorem utf8ByteSize_ofList_le (cs : List Char) :
    (String.ofList cs).utf8ByteSize ≤ 4 * cs.length := by
  induction cs with
  | nil => simp
  | cons c cs ih =>
    have h : String.ofList (c :: cs) = String.singleton c ++ String.ofList cs :=
      String.toList_inj.1 (by simp)
    have hc := c.utf8Size_le_four
    rw [h, String.utf8ByteSize_append, String.utf8ByteSize_singleton, List.length_cons]
    omega

/-- A name of ordinary characters is a valid component. -/
theorem validateComponent_ok {cs : List Char} {c : Char} (hc : c ∈ cs) (hdot : c ≠ '.')
    (hlen : cs.length ≤ 63) (hsep : '/' ∉ cs ∧ '\\' ∉ cs) (hctl : ∀ d ∈ cs, isControl d = false) :
    validateComponent (String.ofList cs) = .ok () := by
  have hsize := utf8ByteSize_ofList_le cs
  have hnd : ∀ s : String, c ∉ s.toList → String.ofList cs ≠ s := fun s hs he =>
    hs (he ▸ by rwa [String.toList_ofList])
  refine validateComponent_iff.2 ⟨hnd "" (by simp), hsize.trans (by simp only [maxComponentBytes]; omega), hnd "." (by simpa using hdot),
    hnd ".." (by simpa using hdot), fun d hd => ?_⟩
  rw [String.toList_ofList] at hd
  exact ⟨fun he => hsep.1 (he ▸ hd), fun he => hsep.2 (he ▸ hd), hctl d hd⟩

/-- A valid component is a name without separators. -/
theorem validateComponent_name {c : String} (h : validateComponent c = .ok ()) :
    c ≠ "" ∧ '/' ∉ c.toList ∧ '\\' ∉ c.toList := by
  have hname := validateComponent_iff.1 h
  exact ⟨hname.ne_empty, fun hm => (hname.plain _ hm).1 rfl, fun hm => (hname.plain _ hm).2.1 rfl⟩

/-- The components joined by slashes. -/
def joinParts (parts : List String) : String :=
  String.ofList (['/'].intercalate (parts.map String.toList))

/-- The pieces between slashes. -/
def splitParts (path : String) : List String := (path.toList.splitOn '/').map String.ofList

/-- A relative path every component of which was checked. -/
structure SafeRelativePath where
  str : String
  safe : ∃ parts : List String,
    parts ≠ [] ∧ (∀ c ∈ parts, validateComponent c = .ok ()) ∧ str = joinParts parts

namespace SafeRelativePath

theorem ext_str {p q : SafeRelativePath} (h : p.str = q.str) : p = q := by
  cases p; cases q; cases h; rfl

instance : DecidableEq SafeRelativePath := fun p q =>
  decidable_of_iff (p.str = q.str) ⟨ext_str, fun h => h ▸ rfl⟩

/-- The first rejection among the components. -/
def validateAll : List String → Except PathRejection Unit
  | [] => .ok ()
  | c :: cs =>
    match validateComponent c with
    | .error e => .error e
    | .ok () => validateAll cs

theorem validateAll_ok {cs : List String} (h : validateAll cs = .ok ()) :
    ∀ c ∈ cs, validateComponent c = .ok () := by
  induction cs with
  | nil => simp
  | cons c cs ih =>
    simp only [validateAll] at h
    split at h
    · cases h
    · rename_i hc
      intro c' hc'
      rcases List.mem_cons.1 hc' with rfl | hc'
      · exact hc
      · exact ih h c' hc'

/-- Build from the component list of a torrent. -/
def fromComponents (components : List String) : Except PathRejection SafeRelativePath :=
  match h : validateAll components with
  | .error e => .error e
  | .ok () =>
    if hne : components = [] then .error .empty
    else .ok ⟨joinParts components, components, hne, validateAll_ok h, rfl⟩

/-- Build from a path that is already joined. -/
def parse (path : String) : Except PathRejection SafeRelativePath :=
  if path.toList.head? = some '/' ∨ path.toList.head? = some '\\' then .error .absolute
  else fromComponents (splitParts path)

def asStr (p : SafeRelativePath) : String := p.str

/-- A path of one component. -/
def ofComponent (c : String) (h : validateComponent c = .ok ()) : SafeRelativePath :=
  ⟨c, [c], by simp, by simpa using h, by
    apply String.toList_inj.1
    simp [joinParts, List.intercalate]⟩

theorem joinParts_append {ps qs : List String} (hp : ps ≠ []) (hq : qs ≠ []) :
    joinParts (ps ++ qs) = joinParts ps ++ "/" ++ joinParts qs := by
  have h : ∀ {xs ys : List (List Char)}, xs ≠ [] → ys ≠ [] →
      ['/'].intercalate (xs ++ ys) = ['/'].intercalate xs ++ ['/'] ++ ['/'].intercalate ys := by
    intro xs ys hx hy
    induction xs with
    | nil => exact absurd rfl hx
    | cons x xs ih =>
      rcases xs with _ | ⟨x', xs⟩
      · obtain ⟨y, ys, rfl⟩ := List.exists_cons_of_ne_nil hy
        simp [List.intercalate, List.intersperse]
      · have := ih (by simp)
        simp only [List.cons_append, List.intercalate, List.intersperse, List.flatten_cons] at this ⊢
        rw [this]
        simp
  apply String.toList_inj.1
  simp only [joinParts, List.map_append, String.toList_ofList, String.toList_append]
  rw [h (by simpa using hp) (by simpa using hq)]
  rfl

theorem validateAll_of {cs : List String} (h : ∀ c ∈ cs, validateComponent c = .ok ()) :
    validateAll cs = .ok () := by
  induction cs with
  | nil => rfl
  | cons c cs ih =>
    rw [validateAll, h c (List.mem_cons_self ..)]
    exact ih fun c' hc' => h c' (List.mem_cons_of_mem _ hc')

theorem splitParts_joinParts {ps : List String} (hp : ps ≠ [])
    (h : ∀ c ∈ ps, validateComponent c = .ok ()) : splitParts (joinParts ps) = ps := by
  have hx : ∀ l ∈ ps.map String.toList, '/' ∉ l := by
    rintro l hl
    obtain ⟨c, hc, rfl⟩ := List.mem_map.1 hl
    exact (validateComponent_name (h c hc)).2.1
  rw [splitParts, joinParts, String.toList_ofList, List.splitOn_intercalate '/' hx (by simpa using hp),
    List.map_map]
  exact (List.map_congr_left fun c _ => String.ofList_toList).trans (List.map_id ps)

theorem splitParts_ofComponent {c : String} {h : validateComponent c = .ok ()} :
    splitParts (ofComponent c h).asStr = [c] := by
  have hjoin : (ofComponent c h).asStr = joinParts [c] := by
    apply String.toList_inj.1
    simp [ofComponent, asStr, joinParts, List.intercalate]
  rw [hjoin, splitParts_joinParts (List.cons_ne_nil _ _) (by simpa using h)]

theorem fromComponents_ok {cs : List String} (hne : cs ≠ [])
    (h : ∀ c ∈ cs, validateComponent c = .ok ()) :
    fromComponents cs = .ok ⟨joinParts cs, cs, hne, h, rfl⟩ := by
  unfold fromComponents
  split
  · rename_i e he
    rw [validateAll_of h] at he
    cases he
  · rw [dif_neg hne]

/-- A path is read back from its text. -/
theorem parse_asStr (p : SafeRelativePath) : parse p.asStr = .ok p := by
  obtain ⟨str, parts, hne, hvalid, rfl⟩ := p
  obtain ⟨c, cs, rfl⟩ := List.exists_cons_of_ne_nil hne
  obtain ⟨hc, hslash, hback⟩ := validateComponent_name (hvalid c (List.mem_cons_self ..))
  -- the text starts with the first character of the first component
  have hhead : ∀ d, (joinParts (c :: cs)).toList.head? = some d → d ∈ c.toList := by
    intro d hd
    rw [joinParts, String.toList_ofList] at hd
    cases hl : c.toList with
    | nil => exact absurd (String.toList_inj.1 (hl.trans (by rfl : [] = "".toList))) hc
    | cons a as =>
      cases cs <;> simp [List.intercalate, hl] at hd <;> simp [hd]
  have hnabs : ¬((joinParts (c :: cs)).toList.head? = some '/' ∨
      (joinParts (c :: cs)).toList.head? = some '\\') := by
    rintro (h | h)
    · exact hslash (hhead _ h)
    · exact hback (hhead _ h)
  rw [parse, asStr, if_neg hnabs, splitParts_joinParts hne hvalid, fromComponents_ok hne hvalid]

/-- Put a component in front of this path. -/
def prefixedWith (p : SafeRelativePath) (component : String) :
    Except PathRejection SafeRelativePath :=
  match h : validateComponent component with
  | .error e => .error e
  | .ok () => .ok
    { str := component ++ "/" ++ p.str
      safe := by
        obtain ⟨ps, hp, hpv, hps⟩ := p.safe
        refine ⟨component :: ps, List.cons_ne_nil _ _, List.forall_mem_cons.2 ⟨h, hpv⟩, ?_⟩
        have hone : joinParts [component] = component :=
          String.toList_inj.1 (by simp [joinParts, List.intercalate])
        rw [← List.singleton_append, joinParts_append (List.cons_ne_nil _ _) hp, hone, ← hps] }

/-- Read a path that reaches the program as text; it is looked at like any other. -/
def deserialize (raw : String) : Except String SafeRelativePath :=
  (parse raw).mapError PathRejection.toText

/-- Nest this path below `pre`. -/
def under (p pre : SafeRelativePath) : SafeRelativePath where
  str := pre.str ++ "/" ++ p.str
  safe := by
    obtain ⟨ps, hp, hpv, hps⟩ := p.safe
    obtain ⟨qs, hq, hqv, hqs⟩ := pre.safe
    refine ⟨qs ++ ps, by simp [hq], fun c hc => ?_, ?_⟩
    · rcases List.mem_append.1 hc with hc | hc
      · exact hqv c hc
      · exact hpv c hc
    · rw [joinParts_append hq hp, ← hps, ← hqs]

/-- Join onto a directory. -/
def joinOnto (p : SafeRelativePath) (root : PathBuf) : PathBuf := root.join p.str

/-- The components above the last, outermost first. -/
def parentComponents (p : SafeRelativePath) : List String := (splitParts p.str).dropLast

/-- A path is its components, each of which is a plain name. -/
theorem parts_spec (p : SafeRelativePath) : splitParts p.str ≠ [] ∧
    (∀ c ∈ splitParts p.str, PlainName c) ∧ p.str = joinParts (splitParts p.str) := by
  obtain ⟨str, parts, hne, hvalid, rfl⟩ := p
  rw [splitParts_joinParts hne hvalid]
  exact ⟨hne, fun c hc => validateComponent_iff.1 (hvalid c hc), rfl⟩

/-- What a safe path spells below a directory. -/
theorem components_joinOnto (p : SafeRelativePath) (root : PathBuf) :
    (p.joinOnto root).components = root.components ++
      (splitParts p.str).map fun c => .normal (PathBuf.ofString c).bytes := by
  obtain ⟨hne, hplain, hstr⟩ := p.parts_spec
  have hbytes : ∀ parts : List String, (PathBuf.ofString (joinParts parts)).bytes =
      [PathBuf.slash].intercalate (parts.map fun c => (PathBuf.ofString c).bytes) := by
    intro parts
    induction parts with
    | nil => rfl
    | cons c cs ih =>
      cases cs with
      | nil => simp [joinParts, List.intercalate, PathBuf.bytes_ofString]
      | cons d ds =>
        have hcons : joinParts (c :: d :: ds) = joinParts [c] ++ "/" ++ joinParts (d :: ds) :=
          joinParts_append (List.cons_ne_nil c []) (List.cons_ne_nil d ds)
        rw [PathBuf.bytes_ofString] at ih
        rw [hcons, PathBuf.bytes_ofString, String.toList_append, String.toList_append,
          List.flatMap_append, List.flatMap_append, ih]
        simp [joinParts, List.intercalate, PathBuf.bytes_ofString]
        rfl
  have hnames : (splitParts p.str).map (fun c => (PathBuf.ofString c).bytes) ≠ [] := by
    simpa using hne
  have hjoin := PathBuf.components_join (p := root) (s := p.str) hnames (List.forall_mem_map.2 fun c hc => (hplain c hc).name)
    ((congrArg (fun s => (PathBuf.ofString s).bytes) hstr).trans (hbytes _))
  rw [joinOnto, hjoin, List.map_map]
  rfl

/-- Paths under one directory differ when the paths differ. -/
theorem under_inj {p q d : SafeRelativePath} (h : p.under d = q.under d) : p = q := by
  have h' : d.str ++ "/" ++ p.str = d.str ++ "/" ++ q.str := congrArg str h
  exact ext_str (by simpa using h')

/-- A path tells which directory it is below. -/
theorem under_ofComponent {c c' : String} {h : validateComponent c = .ok ()}
    {h' : validateComponent c' = .ok ()} {p q : SafeRelativePath}
    (he : p.under (ofComponent c h) = q.under (ofComponent c' h')) : c = c' := by
  have hname : ∀ (d : String) (r : SafeRelativePath), validateComponent d = .ok () →
      (d ++ "/" ++ r.str).toList.takeWhile (· ≠ '/') = d.toList := by
    intro d r hd
    have hordinary : ∀ x ∈ d.toList, decide (x ≠ '/') = true := fun x hx =>
      decide_eq_true fun hslash => (validateComponent_name hd).2.1 (hslash ▸ hx)
    have hchars : (d ++ "/" ++ r.str).toList = d.toList ++ '/' :: r.str.toList := by simp
    rw [hchars, List.takeWhile_append_of_pos hordinary]
    simp
  have hstr : c ++ "/" ++ p.str = c' ++ "/" ++ q.str := congrArg str he
  apply String.toList_injective
  rw [← hname c p h, hstr, hname c' q h']

/-- A text is a safe path exactly when it is plain names between slashes. -/
theorem exists_parse_iff {path : String} : (∃ p, parse path = .ok p ∧ p.asStr = path) ↔
    ∃ parts, parts ≠ [] ∧ (∀ c ∈ parts, PlainName c) ∧ path = joinParts parts := by
  constructor
  · rintro ⟨p, -, rfl⟩
    exact ⟨_, p.parts_spec⟩
  · rintro ⟨parts, hne, hplain, rfl⟩
    let p : SafeRelativePath :=
      ⟨joinParts parts, parts, hne, fun c hc => validateComponent_iff.2 (hplain c hc), rfl⟩
    exact ⟨p, p.parse_asStr, rfl⟩

/-- What is read from a text spells that text. -/
theorem asStr_of_parse {path : String} {p : SafeRelativePath} (h : parse path = .ok p) :
    p.asStr = path := by
  unfold parse at h
  split_ifs at h
  unfold fromComponents at h
  split at h
  · cases h
  · split_ifs at h
    cases h
    apply String.toList_inj.1
    have hsame : ∀ xs : List (List Char), (xs.map String.ofList).map String.toList = xs := by
      intro xs
      rw [List.map_map]
      exact (List.map_congr_left fun x _ => String.toList_ofList).trans (List.map_id xs)
    simp only [asStr, joinParts, splitParts, String.toList_ofList]
    rw [hsame, List.intercalate_splitOn]

end SafeRelativePath

open SafeRelativePath in
/-- Whatever way a safe path was made, it is read back from its text; the texts that are read are
    the plain names between slashes; and below any directory it spells that directory and then its
    own names, the last of them in the directories named before it. -/
theorem safeRelativePath_language :
    (∀ p : SafeRelativePath, parse p.asStr = .ok p ∧ deserialize p.asStr = .ok p) ∧
    (∀ path, (∃ p, parse path = .ok p) ↔
      ∃ parts, parts ≠ [] ∧ (∀ c ∈ parts, PlainName c) ∧ path = joinParts parts) ∧
    (∀ (p : SafeRelativePath) (root : PathBuf), ∃ rest : List Component, rest ≠ [] ∧
      Component.parentDir ∉ rest ∧ (p.joinOnto root).components = root.components ++ rest) ∧
    ∀ p : SafeRelativePath, ∃ last, PlainName last ∧ (∀ c ∈ p.parentComponents, PlainName c) ∧
      p.asStr = joinParts (p.parentComponents ++ [last]) := by
  refine ⟨fun p => ⟨p.parse_asStr, ?_⟩, fun path => ?_, fun p root => ?_, fun p => ?_⟩
  · rw [deserialize, p.parse_asStr]
    rfl
  · rw [← exists_parse_iff]
    exact exists_congr fun p => ⟨fun h => ⟨h, asStr_of_parse h⟩, And.left⟩
  · obtain ⟨hne, -, -⟩ := p.parts_spec
    refine ⟨_, by simpa using hne, fun hmem => ?_, p.components_joinOnto root⟩
    obtain ⟨c, -, hc⟩ := List.mem_map.1 hmem
    cases hc
  · obtain ⟨hne, hplain, hstr⟩ := p.parts_spec
    have hparts := List.dropLast_append_getLast hne
    refine ⟨_, hplain _ (List.getLast_mem hne), fun c hc => hplain c (List.dropLast_subset _ hc), ?_⟩
    rw [parentComponents, hparts]
    exact hstr

end SeedMedic
