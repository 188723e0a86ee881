/-
  Forms in pages: the controls a page shows, and the pairs a browser makes of them when the form is
  submitted as it came.
-/
import SeedMedic.Lib.Path
import SeedMedic.Lib.Text

namespace Lib.Form

/-- What stands in a form, with the text the page has for its value. -/
inductive Control where
  | hidden (name value : String)
  /-- Without a name it is only looked at. -/
  | checkbox (name : Option String) (value : String) (checked disabled : Bool)
  | number (name value : String)
  /-- A line of text. -/
  | line (name value : String)
  | password (name value : String)
  | area (name text : String)
  /-- The values to choose from, and which of them the page has chosen. -/
  | select (name : String) (options : List (String × Bool))

/-! ## Text in pages -/

/-- Every line ended by a line feed. -/
def toLf : List Char → List Char
  | [] => []
  | '\r' :: '\n' :: cs => '\n' :: toLf cs
  | c :: cs => (if c = '\r' then '\n' else c) :: toLf cs

/-- Every line feed behind a carriage return. -/
def toCrlf (cs : List Char) : List Char :=
  (toLf cs).flatMap fun c => if c = '\n' then ['\r', '\n'] else [c]

/-- A text as it is read from a page, where no zero can stand. -/
def parsed (cs : List Char) : List Char :=
  (toLf cs).map fun c => if c = '\x00' then '\uFFFD' else c

def isDigits (cs : List Char) : Bool := cs ≠ [] && cs.all (·.isDigit)

/-- The exponent of a number, if there is one. -/
def isExponent : List Char → Bool
  | [] => true
  | e :: '+' :: ds | e :: '-' :: ds | e :: ds => (e = 'e' || e = 'E') && isDigits ds

/-- A number without its sign: digits, a fraction or both, in front of an exponent. -/
def isUnsigned (cs : List Char) : Bool :=
  match cs.dropWhile (·.isDigit) with
  | '.' :: ds => ds.takeWhile (·.isDigit) ≠ [] && isExponent (ds.dropWhile (·.isDigit))
  | ds => cs.takeWhile (·.isDigit) ≠ [] && isExponent ds

/-- A number as it may stand in a control for one. -/
def isNumber : List Char → Bool
  | '-' :: cs => isUnsigned cs
  | cs => isUnsigned cs

/-- The line feed at the front of an area is the page's, and no part of its text. -/
def dropNewline : List Char → List Char
  | '\n' :: cs => cs
  | cs => cs

/-! ## Submission -/

/-- The value of a control for a line. -/
def lineValue (value : String) : List Char := (parsed value.toList).filter (· ≠ '\n')

def numberValue (value : String) : List Char :=
  if isNumber (parsed value.toList) then parsed value.toList else []

def areaValue (text : String) : List Char := dropNewline (parsed text.toList)

/-- The option that is chosen: the last one the page has chosen, or else the first. -/
def chosen (options : List (String × Bool)) : Option String :=
  match (options.filter (·.2)).getLast? with
  | some option => some option.1
  | none => options.head?.map (·.1)

namespace Control

/-- What is submitted of a control, if anything is. -/
def pair : Control → Option (String × List Char)
  | hidden name value => some (name, parsed value.toList)
  | checkbox name value checked disabled =>
    if checked && !disabled then name.map fun n => (n, parsed value.toList) else none
  | number name value => some (name, numberValue value)
  | line name value | password name value => some (name, lineValue value)
  | area name text => some (name, areaValue text)
  | select name options => (chosen options).map fun value => (name, parsed value.toList)

end Control

/-- The pairs of a form that is submitted. -/
def submission (controls : List Control) : List (String × String) :=
  (controls.filterMap Control.pair).map fun p => (p.1, String.ofList (toCrlf p.2))

/-! ## What comes through -/

/-- A text that is one line, without a zero. -/
def IsPlain (s : String) : Prop := ∀ c ∈ s.toList, c ≠ '\n' ∧ c ≠ '\r' ∧ c ≠ '\x00'

instance (s : String) : Decidable (IsPlain s) := List.decidableBAll _ _

variable {cs : List Char} {s : String}

theorem toLf_of_no_cr (h : '\r' ∉ cs) : toLf cs = cs := by
  fun_induction toLf cs with
  | case1 => rfl
  | case2 cs _ => exact absurd List.mem_cons_self h
  | case3 c cs _ ih =>
    rw [List.mem_cons, not_or] at h
    rw [if_neg (Ne.symm h.1), ih h.2]

theorem no_cr_toLf (cs : List Char) : '\r' ∉ toLf cs := by
  fun_induction toLf cs with
  | case1 => exact List.not_mem_nil
  | case2 cs ih => simpa using ih
  | case3 c cs _ ih =>
    rw [List.mem_cons, not_or]
    refine ⟨?_, ih⟩
    split_ifs with hc
    · decide
    · exact Ne.symm hc

/-- No carriage return and no zero is read from a page. -/
theorem mem_parsed {c : Char} (h : c ∈ parsed cs) : c ≠ '\r' ∧ c ≠ '\x00' := by
  obtain ⟨d, hd, rfl⟩ := List.mem_map.1 h
  have hcr : d ≠ '\r' := fun e => no_cr_toLf cs (e ▸ hd)
  split_ifs with hzero
  · exact ⟨by decide, by decide⟩
  · exact ⟨hcr, hzero⟩

theorem parsed_of_clean (h : ∀ c ∈ cs, c ≠ '\r' ∧ c ≠ '\x00') : parsed cs = cs := by
  rw [parsed, toLf_of_no_cr fun hmem => (h _ hmem).1 rfl]
  have hid : cs.map (fun c => if c = '\x00' then '\uFFFD' else c) = cs.map id :=
    List.map_congr_left fun c hc => if_neg (h c hc).2
  rw [hid, List.map_id]

theorem toCrlf_of_line (h : ∀ c ∈ cs, c ≠ '\n' ∧ c ≠ '\r') : toCrlf cs = cs := by
  rw [toCrlf, toLf_of_no_cr fun hmem => (h _ hmem).2 rfl]
  induction cs with
  | nil => rfl
  | cons c cs ih =>
    rw [List.flatMap_cons, if_neg (h c List.mem_cons_self).1,
      ih fun d hd => h d (List.mem_cons_of_mem _ hd)]
    rfl

theorem IsPlain.parsed (h : IsPlain s) : parsed s.toList = s.toList :=
  parsed_of_clean fun c hc => (h c hc).2

theorem IsPlain.toCrlf (h : IsPlain s) : toCrlf s.toList = s.toList :=
  toCrlf_of_line fun c hc => ⟨(h c hc).1, (h c hc).2.1⟩

theorem IsPlain.sent (h : IsPlain s) : String.ofList (Form.toCrlf (Form.parsed s.toList)) = s := by
  rw [h.parsed, h.toCrlf, String.ofList_toList]

/-- What a line is submitted as is plain. -/
theorem mem_lineValue {c : Char} (h : c ∈ lineValue s) : c ≠ '\n' ∧ c ≠ '\r' ∧ c ≠ '\x00' := by
  obtain ⟨hparsed, hne⟩ := List.mem_filter.1 h
  exact ⟨by simpa using hne, mem_parsed hparsed⟩

theorem toCrlf_lineValue (s : String) : toCrlf (lineValue s) = lineValue s :=
  toCrlf_of_line fun _ hc => ⟨(mem_lineValue hc).1, (mem_lineValue hc).2.1⟩

/-- A plain text is submitted as it is. -/
theorem IsPlain.lineValue (h : IsPlain s) : lineValue s = s.toList := by
  rw [Form.lineValue, h.parsed]
  exact List.filter_eq_self.2 fun c hc => decide_eq_true (h c hc).1

/-! ## Lines -/

theorem toCrlf_cons {c : Char} (h : '\r' ∉ c :: cs) :
    toCrlf (c :: cs) = (if c = '\n' then ['\r', '\n'] else [c]) ++ toCrlf cs := by
  have hcs : '\r' ∉ cs := fun hmem => h (List.mem_cons_of_mem _ hmem)
  rw [toCrlf, toLf_of_no_cr h, List.flatMap_cons, toCrlf, toLf_of_no_cr hcs]

/-- A line as it is submitted: the same, or with a carriage return behind it. -/
def Ended (l l' : List Char) : Prop := l' = l ∨ l' = l ++ ['\r']

/-- The lines of a text, as they are submitted. -/
theorem splitOn_toCrlf (h : '\r' ∉ cs) :
    List.Forall₂ Ended (cs.splitOn '\n') ((toCrlf cs).splitOn '\n') := by
  induction cs with
  | nil => exact .cons (.inl rfl) .nil
  | cons c cs ih =>
    have ih := ih fun hmem => h (List.mem_cons_of_mem _ hmem)
    rw [toCrlf_cons h]
    split_ifs with hc
    · subst hc
      simp only [List.cons_append, List.nil_append, List.splitOn_cons_eq_if_modifyHead,
        beq_self_eq_true, if_true]
      exact .cons (.inr rfl) ih
    · have hbeq : (c == '\n') = false := beq_eq_false_iff_ne.2 hc
      simp only [List.cons_append, List.nil_append, List.splitOn_cons_eq_if_modifyHead, hbeq,
        Bool.false_eq_true, if_false]
      generalize cs.splitOn '\n' = ls, (toCrlf cs).splitOn '\n' = ls' at ih ⊢
      cases ih with
      | nil => exact .nil
      | cons hl hls =>
        refine .cons ?_ hls
        obtain rfl | rfl := hl
        · exact .inl rfl
        · exact .inr rfl

theorem mem_intercalate {α : Type} {x a : α} {ls : List (List α)} (h : a ∈ [x].intercalate ls) :
    a = x ∨ ∃ l ∈ ls, a ∈ l := by
  induction ls with
  | nil => cases h
  | cons l ls ih =>
    cases ls with
    | nil => exact .inr ⟨l, List.mem_cons_self, by simpa using h⟩
    | cons l' ls =>
      rw [List.intercalate_cons_cons, List.mem_append, List.mem_append, List.mem_singleton] at h
      obtain (h | h) | h := h
      · exact .inr ⟨l, List.mem_cons_self, h⟩
      · exact .inl h
      · exact (ih h).imp_right fun ⟨k, hk, ha⟩ => ⟨k, List.mem_cons_of_mem _ hk, ha⟩

theorem dropNewline_subset (cs : List Char) : dropNewline cs ⊆ cs := by
  unfold dropNewline
  split
  next => exact List.subset_cons_self _ _
  next => exact List.Subset.refl _

theorem mem_areaValue {c : Char} (h : c ∈ areaValue s) : c ≠ '\r' ∧ c ≠ '\x00' :=
  mem_parsed (dropNewline_subset _ h)

theorem dropNewline_of_ne {c : Char} (h : c ≠ '\n') (cs : List Char) :
    dropNewline (c :: cs) = c :: cs := by
  unfold dropNewline
  split
  next heq => exact absurd (List.cons.inj heq).1 h
  next => rfl

/-- Digits are a number. -/
theorem isNumber_of_isDigits (h : isDigits cs = true) : isNumber cs = true := by
  simp only [isDigits, Bool.and_eq_true, decide_eq_true_eq, List.all_eq_true] at h
  obtain ⟨hne, hdigit⟩ := h
  have hunsigned : isUnsigned cs = true := by
    have hall : cs.takeWhile (·.isDigit) = cs := List.takeWhile_eq_self_iff.2 hdigit
    have hnone : cs.dropWhile (·.isDigit) = [] := List.dropWhile_eq_nil_iff.2 hdigit
    simp only [isUnsigned, hall, hnone, isExponent, decide_eq_true hne, Bool.and_true]
  unfold isNumber
  split
  next => exact absurd (hdigit _ List.mem_cons_self) (by decide)
  next => exact hunsigned

theorem isDigits_toString (n : ℕ) : isDigits (toString n).toList = true := by
  have hrepr : toString n = n.repr := rfl
  rw [hrepr, Nat.toList_repr, isDigits, Bool.and_eq_true, decide_eq_true_eq, List.all_eq_true]
  refine ⟨fun hnil => ?_, fun c hc => Nat.isDigit_of_mem_toDigits (by decide) (by decide) hc⟩
  exact absurd (congrArg List.length hnil) (Nat.ne_of_gt Nat.length_toDigits_pos)

theorem isDigit_of_toString {n : ℕ} {c : Char} (h : c ∈ (toString n).toList) :
    c.isDigit = true := by
  have hdigits := isDigits_toString n
  rw [isDigits, Bool.and_eq_true, List.all_eq_true] at hdigits
  exact hdigits.2 c h

/-- A number is submitted as it is. -/
theorem sent_number (n : ℕ) : String.ofList (toCrlf (numberValue (toString n))) = toString n := by
  have hplain : IsPlain (toString n) := fun c hc => by
    have hdigit := isDigit_of_toString hc
    refine ⟨?_, ?_, ?_⟩ <;>
      · rintro rfl
        exact absurd hdigit (by decide)
  have hnumber : isNumber (parsed (toString n).toList) = true := by
    rw [hplain.parsed]
    exact isNumber_of_isDigits (isDigits_toString n)
  rw [numberValue, if_pos hnumber, hplain.sent]

end Lib.Form
