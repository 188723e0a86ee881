/-
  What comes back of a field that nobody touched: for every kind, when the value that is submitted
  is the one the document has.
-/
import SeedMedic.Web.Settings.Render
import SeedMedic.Web.Settings.Unchanged

namespace SeedMedic

open Lib Lib.Toml Lib.Form

/-! ## What comes back as it is -/

/-- What a field of a kind asks of its text. -/
def Kind.Takes (host : ConfigHost) : Kind → String → Prop
  | .url, s => ∃ url, host.parseUrl s = .ok url
  | .absolutePath, s => isAbsolute (.ofString s) = true
  | _, _ => True

/-- A path that is a line of a list as it is. -/
def IsPathLine (s : String) : Prop :=
  IsPlain s ∧ trim s = s ∧ isAbsolute (.ofString s) = true

/-- What the document has for a field is what the page gives back for it. -/
def ComesBack (host : ConfigHost) (doc : ConfigDocument) (f : Field) (key : String) : Prop :=
  match f.kind with
  | .bool => ∃ b, doc.get key = some (.bool b)
  | .count min => ∃ n : ℕ, doc.get key = some (.int n) ∧ min ≤ n ∧ n < 2 ^ 63
  | .text | .url | .absolutePath =>
    (f.key ∈ emptyMeansAbsent ∧ doc.get key = none) ∨
      ∃ s, doc.get key = some (.str s) ∧ IsPlain s ∧ f.kind.Takes host s ∧
        (f.key ∈ emptyMeansAbsent → trim s ≠ "")
  | .absolutePathList =>
    ∃ paths : List String, doc.get key = some (.array (paths.map .str)) ∧
      ∀ path ∈ paths, IsPathLine path
  | .choice options => ∃ option ∈ options, doc.get key = some (.str option)
  | .secret | .secretFile => True

/-- What is checked of every field: that no value means none for texts alone, that a change of it
    has to be confirmed where it is chosen or checked alone, and that what is chosen is plain. -/
def Field.isShown (f : Field) : Bool :=
  match f.kind with
  | .text | .url | .absolutePath | .secretFile => !f.danger
  | .count _ | .absolutePathList | .secret => !f.danger && f.key ∉ emptyMeansAbsent
  | .bool => f.key ∉ emptyMeansAbsent
  | .choice options =>
    f.key ∉ emptyMeansAbsent && options ≠ [] && options.all fun option => decide (IsPlain option)

theorem isShown_fields : ∀ f ∈ fields, f.isShown = true := by decide +kernel

section
variable {host : ConfigHost} {before : Config} {doc : ConfigDocument} {metrics : Bool}
  {e : PageField} {values : List (String × String)} {f : Field} {key value : String}

/-- Without a change to confirm and without a secret a value is what its kind makes of it. -/
theorem judge_eq_parseField (hdanger : f.danger = false) (hsecret : f.kind ≠ .secret) :
    judge host before ⟨[], [], values⟩ doc f key value =
      parseField host f.key f.kind value false := by
  simp [judge, hdanger, hsecret]

/-- A line is taken where it does not mean that there is none, and its kind takes it. -/
theorem parseField_line {kind : Kind} {template : String} {P : Parsed → Prop}
    (hkind : kind = .text ∨ kind = .url ∨ kind = .absolutePath) :
    (∃ parsed, parseField host template kind value false = .ok parsed ∧ P parsed) ↔
      if template ∈ emptyMeansAbsent ∧ trim value = "" then P .remove
      else kind.Takes host value ∧ P (.set (.str value)) := by
  unfold parseField
  by_cases hempty : template ∈ emptyMeansAbsent ∧ trim value = ""
  · simp [hempty]
  · have hno : (decide (template ∈ emptyMeansAbsent) && decide (trim value = "")) = false := by
      simpa using hempty
    rw [hno, if_neg hempty]
    obtain rfl | rfl | rfl := hkind
    · simp [Kind.Takes]
    · cases hurl : host.parseUrl value <;> simp [Kind.Takes, hurl]
    · cases habs : isAbsolute (.ofString value) <;> simp [Kind.Takes, habs]

theorem leavesAsIs_line_iff (hdanger : f.danger = false)
    (hkind : f.kind = .text ∨ f.kind = .url ∨ f.kind = .absolutePath) :
    LeavesAsIs host before ⟨[], [], values⟩ doc f key
        (String.ofList (lineValue (textValue doc .new key))) ↔
      (f.key ∈ emptyMeansAbsent ∧ doc.get key = none) ∨
        ∃ s, doc.get key = some (.str s) ∧ IsPlain s ∧ f.kind.Takes host s ∧
          (f.key ∈ emptyMeansAbsent → trim s ≠ "") := by
  have hsecret : f.kind ≠ .secret := by
    obtain h | h | h := hkind <;> simp [h]
  rw [LeavesAsIs, judge_eq_parseField hdanger hsecret, parseField_line hkind]
  generalize hvalue : String.ofList (lineValue (textValue doc .new key)) = value
  have hplain : IsPlain value := by
    subst hvalue
    intro c hc
    exact mem_lineValue (by simpa using hc)
  constructor
  · intro h
    split_ifs at h with hempty
    · exact .inl ⟨hempty.1, h.symm⟩
    · refine .inr ⟨value, h.2.symm, hplain, h.1, fun habsent htrim => hempty ⟨habsent, htrim⟩⟩
  · rintro (⟨habsent, hget⟩ | ⟨s, hget, hs, htakes, htrim⟩)
    · have hnone : value = "" := by
        rw [← hvalue, textValue, hget]
        rfl
      have htrim : trim value = "" := by
        rw [hnone]
        decide
      rw [if_pos ⟨habsent, htrim⟩]
      exact hget.symm
    · have hsame : value = s := by
        rw [← hvalue, textValue, hget]
        exact (congrArg String.ofList hs.lineValue).trans String.ofList_toList
      subst hsame
      rw [if_neg fun hempty => htrim hempty.1 hempty.2]
      exact ⟨htakes, hget.symm⟩

theorem parseField_of_judge {form : Submitted} {parsed : Parsed} (hsecret : f.kind ≠ .secret)
    (h : judge host before form doc f key value = .ok parsed) :
    parseField host f.key f.kind value (key ∈ form.clears) = .ok parsed := by
  simp only [judge, hsecret, decide_false, Bool.false_and, Bool.false_eq_true, if_false] at h
  split_ifs at h
  exact h

/-- A value that is not changed need not be confirmed. -/
theorem judge_of_current {form : Submitted} (hsecret : f.kind ≠ .secret)
    (h : currentAsString doc key f.kind = value) :
    judge host before form doc f key value =
      parseField host f.key f.kind value (key ∈ form.clears) := by
  simp [judge, hsecret, h]

theorem leavesAsIs_bool_iff (hkind : f.kind = .bool) (habsent : f.key ∉ emptyMeansAbsent) :
    LeavesAsIs host before ⟨[], [], values⟩ doc f key (toString (boolValue doc .new key)) ↔
      ∃ b, doc.get key = some (.bool b) := by
  have hvalue : boolValue doc .new key = ((doc.get key).bind Item.asBool).getD false := rfl
  have hcurrent : currentAsString doc key f.kind = toString (boolValue doc .new key) := by
    simp [currentAsString, hkind, hvalue]
  rw [LeavesAsIs, judge_of_current (by simp [hkind]) hcurrent]
  have hparse : parseField host f.key f.kind (toString (boolValue doc .new key))
      (key ∈ ([] : List String)) = .ok (.set (.bool (boolValue doc .new key))) := by
    have htext (b : Bool) : decide (toString b = "true") = b := by cases b <;> rfl
    simp [parseField, habsent, hkind, htext]
  rw [hparse]
  constructor
  · rintro ⟨parsed, hparsed, hleaves⟩
    cases hparsed
    exact ⟨_, hleaves.symm⟩
  · rintro ⟨b, hget⟩
    refine ⟨_, rfl, ?_⟩
    rw [Parsed.leaves, hvalue, hget]
    rfl

theorem isWhitespace_of_isDigit {c : Char} (h : c.isDigit = true) : isWhitespace c = false := by
  simp only [Char.isDigit, Bool.and_eq_true, decide_eq_true_eq] at h
  have hlo : 48 ≤ c.toNat := h.1
  have hhi : c.toNat ≤ 57 := h.2
  simp only [isWhitespace, Bool.or_eq_false_iff, Bool.and_eq_false_iff, decide_eq_false_iff_not,
    UInt32.le_iff_toNat_le, ← UInt32.toNat_inj]
  simp
  omega

theorem trim_eq (s : String) : trim s = String.ofList (stripEnds isWhitespace s.toList) := rfl

theorem trim_toString (n : ℕ) : trim (toString n) = toString n := by
  rw [trim_eq, stripEnds_of_forall_not fun c hc => isWhitespace_of_isDigit (isDigit_of_toString hc),
    String.ofList_toList]

theorem leavesAsIs_count_iff {min : ℕ} (hdanger : f.danger = false) (hkind : f.kind = .count min)
    (habsent : f.key ∉ emptyMeansAbsent) :
    LeavesAsIs host before ⟨[], [], values⟩ doc f key
        (String.ofList (toCrlf (numberValue (textValue doc .new key)))) ↔
      ∃ n : ℕ, doc.get key = some (.int n) ∧ min ≤ n ∧ n < 2 ^ 63 := by
  rw [LeavesAsIs, judge_eq_parseField hdanger (by simp [hkind])]
  constructor
  · rintro ⟨parsed, hparsed, hleaves⟩
    simp only [parseField, habsent, hkind, decide_false, Bool.false_and, Bool.false_eq_true,
      if_false] at hparsed
    split at hparsed
    next => cases hparsed
    next n _ =>
      split_ifs at hparsed with hmin hsize
      cases hparsed
      exact ⟨n, hleaves.symm, not_lt.1 hmin, hsize⟩
  · rintro ⟨n, hget, hmin, hsize⟩
    have htext : textValue doc .new key = toString n := by
      rw [textValue, hget]
      rfl
    rw [htext, sent_number]
    refine ⟨.set (.int n), ?_, hget.symm⟩
    have hread : fromStrRadix 10 (2 ^ 64 - 1) (toString n).toList = some n :=
      fromStrRadix_toString (by omega)
    simp only [parseField, habsent, hkind, trim_toString, hread, not_lt.2 hmin, hsize, decide_false,
      Bool.false_and, Bool.false_eq_true, if_false, if_true]

/-- Of options of which one is selected at most, that one is chosen, and else the first. -/
theorem chosen_selected {options : List String} (hne : options ≠ []) (value : String) :
    ∃ option ∈ options, chosen (options.map fun option => (option, decide (option = value))) =
      some option ∧ (value ∈ options → option = value) := by
  unfold chosen
  split
  next selected hselected =>
    have hmem := List.mem_of_getLast? hselected
    obtain ⟨hmem, hvalue⟩ := List.mem_filter.1 hmem
    obtain ⟨option, hoption, rfl⟩ := List.mem_map.1 hmem
    exact ⟨option, hoption, rfl, fun _ => by simpa using hvalue⟩
  next hnone =>
    obtain ⟨option, options, rfl⟩ := List.exists_cons_of_ne_nil hne
    refine ⟨option, List.mem_cons_self, rfl, fun hmem => ?_⟩
    rw [List.getLast?_eq_none_iff, List.filter_eq_nil_iff] at hnone
    exact absurd (by simp) (hnone _ (List.mem_map_of_mem hmem))

theorem leavesAsIs_choice_iff {options : List String} (hkind : f.kind = .choice options)
    (habsent : f.key ∉ emptyMeansAbsent)
    (hvalue : value ∈ options)
    (hsame : textValue doc .new key ∈ options → value = textValue doc .new key) :
    LeavesAsIs host before ⟨[], [], values⟩ doc f key value ↔
      ∃ option ∈ options, doc.get key = some (.str option) := by
  have hsecret : f.kind ≠ .secret := by simp [hkind]
  have hparse : parseField host f.key f.kind value false = .ok (.set (.str value)) := by
    simp [parseField, habsent, hkind, hvalue]
  constructor
  · rintro ⟨parsed, hparsed, hleaves⟩
    have hparsed := parseField_of_judge hsecret hparsed
    simp only [List.not_mem_nil, decide_false] at hparsed
    cases hparse.symm.trans hparsed
    exact ⟨value, hvalue, hleaves.symm⟩
  · rintro ⟨option, hoption, hget⟩
    have htext : textValue doc .new key = option := by
      rw [textValue, hget]
      rfl
    obtain rfl : value = option := by
      rw [htext] at hsame
      exact hsame hoption
    have hcurrent : currentAsString doc key f.kind = value := by
      simp [currentAsString, hkind, hget, Item.asStr]
    refine ⟨.set (.str value), ?_, hget.symm⟩
    rw [judge_of_current hsecret hcurrent]
    simpa using hparse

/-! ## Lists of paths -/

theorem parsePaths_eq_ok {number : ℕ} {lines paths : List String} :
    parsePaths number lines = .ok paths ↔
      paths = lines.filter (· ≠ "") ∧ ∀ path ∈ paths, isAbsolute (.ofString path) = true := by
  induction lines generalizing number paths with
  | nil =>
    constructor
    · intro h
      cases h
      simp
    · rintro ⟨rfl, -⟩
      rfl
  | cons line lines ih =>
    rw [parsePaths]
    by_cases hempty : line = ""
    · simp [hempty, ih]
    · have hfilter : (line :: lines).filter (· ≠ "") = line :: lines.filter (· ≠ "") := by
        simp [hempty]
      rw [if_neg hempty, hfilter]
      cases habs : isAbsolute (.ofString line) with
      | false =>
        constructor
        · intro h
          cases h
        · rintro ⟨rfl, hall⟩
          rw [hall line List.mem_cons_self] at habs
          cases habs
      | true =>
        cases hrest : parsePaths (number + 1) lines with
        | error message =>
          constructor
          · intro h
            cases h
          · rintro ⟨rfl, hall⟩
            have hok : parsePaths (number + 1) lines = .ok (lines.filter (· ≠ "")) :=
              ih.2 ⟨rfl, fun path hpath => hall path (List.mem_cons_of_mem _ hpath)⟩
            cases hrest.symm.trans hok
        | ok rest =>
          obtain ⟨hrest, hall⟩ := ih.1 hrest
          constructor
          · intro h
            cases h
            exact ⟨by rw [hrest], List.forall_mem_cons.2 ⟨habs, hall⟩⟩
          · rintro ⟨rfl, -⟩
            rw [hrest]
            rfl

/-- A carriage return at the end of a line makes no difference. -/
theorem trimmedLines_toCrlf {cs : List Char} (h : '\r' ∉ cs) :
    trimmedLines (String.ofList (toCrlf cs)) = trimmedLines (String.ofList cs) := by
  rw [trimmedLines, trimmedLines, String.toList_ofList, String.toList_ofList]
  have hlines := splitOn_toCrlf h
  generalize cs.splitOn '\n' = ls at hlines ⊢
  generalize (toCrlf cs).splitOn '\n' = ls' at hlines ⊢
  induction hlines with
  | nil => rfl
  | @cons l l' _ _ hended _ ih =>
    have htrim : trim (String.ofList l') = trim (String.ofList l) := by
      obtain rfl | rfl := hended
      · rfl
      · rw [trim_eq, trim_eq, String.toList_ofList, String.toList_ofList,
          stripEnds_concat (by decide)]
    rw [List.map_cons, List.map_cons, htrim, ih]

/-- What is trimmed has no more to trim, and nothing that was not there. -/
theorem trim_trim (s : String) : trim (trim s) = trim s := by
  rw [trim_eq, trim_eq, String.toList_ofList, stripEnds_idem]

theorem trim_subset (s : String) : (trim s).toList ⊆ s.toList := by
  rw [trim_eq, String.toList_ofList]
  exact stripEnds_subset _ _

theorem isPathLine_of_sent {text path : String}
    (h : path ∈ trimmedLines (String.ofList (areaValue text)))
    (habs : isAbsolute (.ofString path) = true) : IsPathLine path := by
  obtain ⟨l, hl, rfl⟩ := List.mem_map.1 h
  rw [String.toList_ofList] at hl
  obtain ⟨hnewline, hsub⟩ := PathBuf.mem_splitOn hl
  refine ⟨fun c hc => ?_, trim_trim _, habs⟩
  have hcl : c ∈ l := by simpa using trim_subset _ hc
  exact ⟨fun he => hnewline (he ▸ hcl), mem_areaValue (hsub hcl)⟩

theorem IsPathLine.ne_empty {path : String} (h : IsPathLine path) : path ≠ "" := by
  rintro rfl
  exact absurd h.2.2 (by decide)

/-- Lines of paths stand in an area as they are. -/
theorem areaValue_paths {paths : List String} (h : ∀ path ∈ paths, IsPathLine path) :
    areaValue ("\n".intercalate paths) = ['\n'].intercalate (paths.map String.toList) := by
  have htext : ("\n".intercalate paths).toList = ['\n'].intercalate (paths.map String.toList) :=
    String.toList_intercalate
  have hclean : ∀ c ∈ ("\n".intercalate paths).toList, c ≠ '\r' ∧ c ≠ '\x00' := by
    intro c hc
    rw [htext] at hc
    obtain rfl | ⟨l, hl, hc⟩ := mem_intercalate hc
    · exact ⟨by decide, by decide⟩
    · obtain ⟨path, hpath, rfl⟩ := List.mem_map.1 hl
      exact ((h path hpath).1 c hc).2
  rw [areaValue, parsed_of_clean hclean, htext]
  -- the first line is not blank
  cases paths with
  | nil => rfl
  | cons path paths =>
    have hpath := h path List.mem_cons_self
    obtain ⟨c, cs, hcs⟩ : ∃ c cs, path.toList = c :: cs :=
      List.exists_cons_of_ne_nil fun hnil => hpath.ne_empty (by simpa using hnil)
    have hne : c ≠ '\n' := (hpath.1 c (hcs ▸ List.mem_cons_self)).1
    rw [List.map_cons, hcs]
    cases paths with
    | nil => simpa using dropNewline_of_ne hne cs
    | cons path' paths =>
      rw [List.map_cons, List.intercalate_cons_cons]
      exact dropNewline_of_ne hne _

/-- Paths that are lines are read back from the area they are shown in. -/
theorem trimmedLines_area {paths : List String} (h : ∀ path ∈ paths, IsPathLine path) :
    (trimmedLines (String.ofList (areaValue ("\n".intercalate paths)))).filter (· ≠ "") =
      paths := by
  rw [areaValue_paths h, trimmedLines, String.toList_ofList]
  by_cases hnil : paths = []
  · subst hnil
    decide
  · have hno : ∀ l ∈ paths.map String.toList, '\n' ∉ l := by
      intro l hl hmem
      obtain ⟨path, hpath, rfl⟩ := List.mem_map.1 hl
      exact ((h path hpath).1 _ hmem).1 rfl
    rw [List.splitOn_intercalate '\n' hno (by simpa using hnil), List.map_map]
    have hid : paths.map ((fun line => trim (String.ofList line)) ∘ String.toList) = paths.map id :=
      List.map_congr_left fun path hpath => by simpa using (h path hpath).2.1
    rw [hid, List.map_id]
    exact List.filter_eq_self.2 fun path hpath => decide_eq_true (h path hpath).ne_empty

theorem leavesAsIs_list_iff (hdanger : f.danger = false) (hkind : f.kind = .absolutePathList)
    (habsent : f.key ∉ emptyMeansAbsent) :
    LeavesAsIs host before ⟨[], [], values⟩ doc f key
        (String.ofList (toCrlf (areaValue (linesValue doc .new key)))) ↔
      ∃ paths : List String, doc.get key = some (.array (paths.map .str)) ∧
        ∀ path ∈ paths, IsPathLine path := by
  rw [LeavesAsIs, judge_eq_parseField hdanger (by simp [hkind])]
  have hlines : trimmedLines (String.ofList (toCrlf (areaValue (linesValue doc .new key)))) =
      trimmedLines (String.ofList (areaValue (linesValue doc .new key))) :=
    trimmedLines_toCrlf fun hcr => (mem_areaValue hcr).1 rfl
  have hparse : parseField host f.key f.kind
      (String.ofList (toCrlf (areaValue (linesValue doc .new key)))) false =
        (parsePaths 0 (trimmedLines (String.ofList (areaValue (linesValue doc .new key))))).map
          .setArray := by
    simp [parseField, habsent, hkind, hlines]
  rw [hparse]
  constructor
  · rintro ⟨parsed, hparsed, hleaves⟩
    cases hpaths : parsePaths 0
        (trimmedLines (String.ofList (areaValue (linesValue doc .new key)))) with
    | error message =>
      rw [hpaths] at hparsed
      cases hparsed
    | ok paths =>
      rw [hpaths] at hparsed
      cases hparsed
      obtain ⟨hfilter, habs⟩ := parsePaths_eq_ok.1 hpaths
      refine ⟨paths, hleaves.symm, fun path hpath => ?_⟩
      have hmem : path ∈ (trimmedLines _).filter (· ≠ "") := hfilter ▸ hpath
      exact isPathLine_of_sent (List.mem_filter.1 hmem).1 (habs path hpath)
  · rintro ⟨paths, hget, hpaths⟩
    have htext : linesValue doc .new key = "\n".intercalate paths := by
      have hstrs : (paths.map Item.str).filterMap Item.asStr = paths := by
        simp [List.filterMap_map, Function.comp_def, Item.asStr]
      rw [linesValue, hget]
      exact congrArg "\n".intercalate hstrs
    have hread : parsePaths 0 _ = .ok paths := parsePaths_eq_ok.2
      ⟨(trimmedLines_area hpaths).symm, fun path hpath => (hpaths path hpath).2.2⟩
    rw [htext, hread]
    exact ⟨_, rfl, hget.symm⟩

/-! ## Every field -/

/-- What is submitted of a field that nobody touched leaves the document as it is exactly where
    what the document has for it comes back. -/
theorem leavesAsIs_sent_iff (hf : e.field ∈ fields) :
    (∀ value, (sentValues doc .new metrics e).getLast? = some value →
      LeavesAsIs host before ⟨[], [], values⟩ doc e.field e.key value) ↔
        ComesBack host doc e.field e.key := by
  have hshown := isShown_fields e.field hf
  unfold Field.isShown at hshown
  unfold sentValues ComesBack
  cases hkind : e.field.kind with
  | bool =>
    simp only [hkind, decide_eq_true_eq] at hshown
    have hlast : ∀ b : Bool, (if e.key = "metrics.enabled" && !metrics then [toString b]
        else "false" :: if b then ["true"] else []).getLast? = some (toString b) := by
      intro b
      split_ifs with hmetrics hb
      · rfl
      · rw [hb]; rfl
      · rw [Bool.not_eq_true] at hb; rw [hb]; rfl
    simp only [hlast, Option.some.injEq, forall_eq']
    exact leavesAsIs_bool_iff hkind hshown
  | count min =>
    simp only [hkind, Bool.and_eq_true, Bool.not_eq_true', decide_eq_true_eq] at hshown
    simpa using leavesAsIs_count_iff hshown.1 hkind hshown.2
  | text | url | absolutePath =>
    simp only [hkind, Bool.not_eq_true'] at hshown
    have hline := @leavesAsIs_line_iff host before doc values e.field e.key hshown (by simp [hkind])
    simpa [hkind] using hline
  | absolutePathList =>
    simp only [hkind, Bool.and_eq_true, Bool.not_eq_true', decide_eq_true_eq] at hshown
    simpa using leavesAsIs_list_iff hshown.1 hkind hshown.2
  | choice options =>
    simp only [hkind, Bool.and_eq_true, decide_eq_true_eq, List.all_eq_true] at hshown
    obtain ⟨⟨habsent, hne⟩, hplain⟩ := hshown
    obtain ⟨option, hoption, hchosen, hsame⟩ := chosen_selected hne (textValue doc .new e.key)
    simp only [hchosen, Option.map_some, Option.toList_some, List.getLast?_singleton,
      Option.some.injEq, forall_eq', (hplain option hoption).sent]
    exact leavesAsIs_choice_iff hkind habsent hoption hsame
  | secret =>
    simp only [hkind, Bool.and_eq_true, Bool.not_eq_true', decide_eq_true_eq] at hshown
    dsimp only
    refine iff_of_true (fun value hvalue => ⟨.unchanged, ?_, rfl⟩) trivial
    have hempty : value = "" := by
      split_ifs at hvalue
      · cases hvalue
      · cases hvalue
        rfl
    simp [judge, hshown.1, hkind, parseField, hshown.2, hempty]
  | secretFile => simp

end

end SeedMedic
