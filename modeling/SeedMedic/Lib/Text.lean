/-
  Texts cut at byte offsets and at separators, and the numbers they spell in a radix.
-/
import Mathlib.Data.List.Basic
import Mathlib.Data.List.DropRight
import Mathlib.Data.List.Infix
import Mathlib.Tactic.IntervalCases

namespace Lib

/-- The bytes of some characters in UTF-8. -/
def byteLen (cs : List Char) : ℕ := (cs.map Char.utf8Size).sum

@[simp] theorem byteLen_nil : byteLen [] = 0 := rfl

@[simp] theorem byteLen_cons (c : Char) (cs : List Char) :
    byteLen (c :: cs) = c.utf8Size + byteLen cs := by simp [byteLen]

@[simp] theorem byteLen_append (cs ds : List Char) :
    byteLen (cs ++ ds) = byteLen cs + byteLen ds := by simp [byteLen]

theorem utf8ByteSize_eq (s : String) : s.utf8ByteSize = byteLen s.toList := by
  induction s using String.push_induction with
  | empty => rfl
  | push s c ih => simp [String.utf8ByteSize_push, ih]

/-- The characters behind the first `n` bytes; nothing where these end inside a character. -/
def dropBytes : ℕ → List Char → Option (List Char)
  | 0, cs => some cs
  | _ + 1, [] => none
  | n + 1, c :: cs => if c.utf8Size ≤ n + 1 then dropBytes (n + 1 - c.utf8Size) cs else none

/-- The characters of the first `n` bytes; nothing where these end inside a character. -/
def takeBytes : ℕ → List Char → Option (List Char)
  | 0, _ => some []
  | _ + 1, [] => none
  | n + 1, c :: cs =>
    if c.utf8Size ≤ n + 1 then (takeBytes (n + 1 - c.utf8Size) cs).map (c :: ·) else none

/-- The characters from byte `start` to byte `stop`; nothing where one of the two is not between
    characters of the text. -/
def byteSlice (s : String) (start stop : ℕ) : Option (List Char) :=
  (dropBytes start s.toList).bind (takeBytes (stop - start))

@[simp] theorem takeBytes_zero (cs : List Char) : takeBytes 0 cs = some [] := by cases cs <;> rfl

theorem dropBytes_append (cs ds : List Char) : dropBytes (byteLen cs) (cs ++ ds) = some ds := by
  induction cs with
  | nil => cases ds <;> rfl
  | cons c cs ih =>
    obtain ⟨n, hn⟩ := Nat.exists_eq_succ_of_ne_zero (Nat.ne_of_gt c.utf8Size_pos)
    have hsize : byteLen (c :: cs) = (n + byteLen cs) + 1 := by
      rw [byteLen_cons, hn]
      omega
    rw [hsize, List.cons_append, dropBytes, if_pos (by omega)]
    have hrest : n + byteLen cs + 1 - c.utf8Size = byteLen cs := by omega
    rw [hrest, ih]

/-- A slice that starts between characters depends on what follows. -/
theorem byteSlice_append {s : String} {cs ds : List Char} {stop : ℕ} (h : s.toList = cs ++ ds) :
    byteSlice s (byteLen cs) stop = takeBytes (stop - byteLen cs) ds := by
  rw [byteSlice, h, dropBytes_append, Option.bind_some]

/-- The parts in front of and behind the last occurrence of a separator. -/
def rsplitOnce {α : Type} [DecidableEq α] (c : α) : List α → Option (List α × List α)
  | [] => none
  | a :: l =>
    match rsplitOnce c l with
    | some (s, t) => some (a :: s, t)
    | none => if a = c then some ([], l) else none

theorem rsplitOnce_eq_none {α : Type} [DecidableEq α] {c : α} {l : List α} (h : c ∉ l) :
    rsplitOnce c l = none := by
  induction l with
  | nil => rfl
  | cons a l ih =>
    rw [List.mem_cons, not_or] at h
    simp only [rsplitOnce, ih h.2, if_neg (Ne.symm h.1)]

/-- A text is cut at the separator behind which there is none. -/
theorem rsplitOnce_append {α : Type} [DecidableEq α] {c : α} {t : List α} (h : c ∉ t) (s : List α) :
    rsplitOnce c (s ++ c :: t) = some (s, t) := by
  induction s with
  | nil => simp only [List.nil_append, rsplitOnce, rsplitOnce_eq_none h, if_true]
  | cons a s ih => simp only [List.cons_append, rsplitOnce, ih]

/-! ## Ends -/

/-- A text without what its ends have of some kind. -/
def stripEnds {α : Type} (p : α → Bool) (l : List α) : List α := (l.dropWhile p).rdropWhile p

section
variable {α : Type} {p : α → Bool} {l : List α}

theorem stripEnds_subset (p : α → Bool) (l : List α) : stripEnds p l ⊆ l := fun _ hx =>
  (List.dropWhile_sublist p).subset ((List.rdropWhile_prefix p _).subset hx)

theorem stripEnds_of_forall_not (h : ∀ x ∈ l, p x = false) : stripEnds p l = l := by
  have hfront : l.dropWhile p = l :=
    List.dropWhile_eq_self_iff.2 fun hl => by simp [h _ (List.getElem_mem hl)]
  rw [stripEnds, hfront]
  exact List.rdropWhile_eq_self_iff.2 fun hl => by simp [h _ (List.getLast_mem hl)]

/-- What is stripped once stays as it is. -/
theorem stripEnds_idem (p : α → Bool) (l : List α) :
    stripEnds p (stripEnds p l) = stripEnds p l := by
  have hfront : (stripEnds p l).dropWhile p = stripEnds p l := by
    refine List.dropWhile_eq_self_iff.2 fun hl => ?_
    -- its first element is the first one the front leaves
    have hpre : stripEnds p l <+: l.dropWhile p := List.rdropWhile_prefix p _
    rw [hpre.getElem hl]
    exact List.dropWhile_get_zero_not p l _
  rw [stripEnds, hfront, stripEnds, List.rdropWhile_idempotent]

/-- What is of the kind at the end makes no difference. -/
theorem stripEnds_concat {x : α} (hx : p x = true) : stripEnds p (l ++ [x]) = stripEnds p l := by
  have hfront : (l ++ [x]).dropWhile p =
      if (l.dropWhile p).isEmpty then [] else l.dropWhile p ++ [x] := by
    rw [List.dropWhile_append]
    simp [hx]
  rw [stripEnds, stripEnds, hfront]
  split_ifs with hempty
  · rw [List.isEmpty_iff.1 hempty]
  · exact List.rdropWhile_concat_pos p _ x hx

end

/-! ## Patterns -/

/-- Whether a text is like a pattern: `%` stands for any text and `_` for any character, behind a
    backslash every character for itself, and letters of ASCII for both cases. -/
def like : List Char → List Char → Bool
  | [], text => text.isEmpty
  | '%' :: ps, text => text.tails.any fun rest => like ps rest
  | '_' :: ps, _ :: text => like ps text
  | '\\' :: p :: ps, c :: text => p.toLower = c.toLower && like ps text
  | ['\\'], _ => false
  | p :: ps, c :: text => p.toLower = c.toLower && like ps text
  | _ :: _, [] => false

/-- A text as part of a pattern that stands for itself. -/
def escapeLike (term : List Char) : List Char :=
  term.flatMap fun c => if c = '%' ∨ c = '_' ∨ c = '\\' then ['\\', c] else [c]

/-- A character that means nothing else stands for itself. -/
theorem like_ordinary {p : Char} (hpercent : p ≠ '%') (hunderscore : p ≠ '_') (hbackslash : p ≠ '\\')
    (ps text : List Char) : like (p :: ps) text = true ↔
      ∃ c rest, text = c :: rest ∧ p.toLower = c.toLower ∧ like ps rest = true := by
  cases text with
  | nil =>
    unfold like
    split <;> simp_all
  | cons c rest =>
    have hlike : like (p :: ps) (c :: rest) = (decide (p.toLower = c.toLower) && like ps rest) := by
      rw [like.eq_def]
      split <;> simp_all
    rw [hlike]
    simp

/-- An escaped text is like what differs from it in the case of letters only. -/
theorem like_escapeLike {ps : List Char} : ∀ {term text : List Char},
    like (escapeLike term ++ ps) text = true ↔
      ∃ front rest, text = front ++ rest ∧ front.map Char.toLower = term.map Char.toLower ∧
        like ps rest = true
  | [], text => by simp [escapeLike]
  | c :: term, text => by
    have ih := @like_escapeLike ps term
    have hcons : escapeLike (c :: term) =
        (if c = '%' ∨ c = '_' ∨ c = '\\' then ['\\', c] else [c]) ++ escapeLike term := rfl
    have hread : like (escapeLike (c :: term) ++ ps) text = true ↔
        ∃ d rest, text = d :: rest ∧ c.toLower = d.toLower ∧
          like (escapeLike term ++ ps) rest = true := by
      rw [hcons]
      split_ifs with hspecial
      · cases text <;> simp [like]
      · simp only [not_or] at hspecial
        exact like_ordinary hspecial.1 hspecial.2.1 hspecial.2.2 _ _
    rw [hread]
    constructor
    · rintro ⟨d, rest, rfl, hcase, hlike⟩
      obtain ⟨front, rest, rfl, hfront, hlike⟩ := ih.1 hlike
      exact ⟨d :: front, rest, rfl, by simp [hcase, hfront], hlike⟩
    · rintro ⟨front, rest, rfl, hfront, hlike⟩
      obtain ⟨d, front, rfl⟩ : ∃ d front', front = d :: front' := by
        cases front with
        | nil => simp at hfront
        | cons d front' => exact ⟨d, front', rfl⟩
      rw [List.map_cons, List.map_cons, List.cons.injEq] at hfront
      exact ⟨d, front ++ rest, rfl, hfront.1.symm, ih.2 ⟨front, rest, rfl, hfront.2, hlike⟩⟩

/-- The pattern of a search finds the texts that contain the term, in whatever case. -/
theorem like_search {term text : List Char} :
    like ('%' :: escapeLike term ++ ['%']) text = true ↔
      ∃ before found after, text = before ++ found ++ after ∧
        found.map Char.toLower = term.map Char.toLower := by
  have hany : ∀ rest : List Char, like ['%'] rest = true := fun rest => by
    simp only [like, List.any_eq_true, List.mem_tails]
    exact ⟨[], List.nil_suffix, rfl⟩
  rw [List.cons_append, like, List.any_eq_true]
  constructor
  · rintro ⟨rest, hrest, hlike⟩
    obtain ⟨before, rfl⟩ := (List.mem_tails _ _).1 hrest
    obtain ⟨found, after, rfl, hfound, -⟩ := like_escapeLike.1 hlike
    exact ⟨before, found, after, (List.append_assoc ..).symm, hfound⟩
  · rintro ⟨before, found, after, rfl, hfound⟩
    exact ⟨found ++ after, (List.mem_tails _ _).2 ⟨before, (List.append_assoc ..).symm⟩,
      like_escapeLike.2 ⟨found, after, rfl, hfound, hany after⟩⟩

/-! ## Digits -/

/-- The value of a digit in a radix. -/
def digitIn (radix : ℕ) (c : Char) : Option ℕ :=
  let n := c.toNat
  let value :=
    if 48 ≤ n ∧ n ≤ 57 then some (n - 48)
    else if 97 ≤ n ∧ n ≤ 122 then some (n - 87)
    else if 65 ≤ n ∧ n ≤ 90 then some (n - 55)
    else none
  value.filter (· < radix)

/-- The number digits spell behind those of `acc`, up to a bound. -/
def fromDigits (radix bound : ℕ) : ℕ → List Char → Option ℕ
  | acc, [] => some acc
  | acc, c :: cs =>
    match digitIn radix c with
    | none => none
    | some d =>
      if acc * radix + d ≤ bound then fromDigits radix bound (acc * radix + d) cs else none

/-- The unsigned number a text spells: digits, behind a plus sign or not. -/
def fromStrRadix (radix bound : ℕ) : List Char → Option ℕ
  | [] | ['+'] | ['-'] => none
  | '+' :: cs => fromDigits radix bound 0 cs
  | cs => fromDigits radix bound 0 cs

/-- The signed number a text spells in decimal: digits behind a sign or not. -/
def parseI64 : List Char → Option Int64
  | [] | ['+'] | ['-'] => none
  | '-' :: cs => (fromDigits 10 (2 ^ 63) 0 cs).map fun n => .ofInt (-n)
  | '+' :: cs => (fromDigits 10 (2 ^ 63 - 1) 0 cs).map fun n => .ofInt n
  | cs => (fromDigits 10 (2 ^ 63 - 1) 0 cs).map fun n => .ofInt n

theorem digitIn_lt {radix d : ℕ} {c : Char} (h : digitIn radix c = some d) : d < radix := by
  unfold digitIn at h
  simpa using (Option.filter_eq_some_iff.1 h).2

theorem fromDigits_append {radix bound acc : ℕ} (cs ds : List Char) :
    fromDigits radix bound acc (cs ++ ds) =
      (fromDigits radix bound acc cs).bind fun n => fromDigits radix bound n ds := by
  induction cs generalizing acc with
  | nil => rfl
  | cons c cs ih =>
    simp only [List.cons_append, fromDigits]
    cases digitIn radix c with
    | none => rfl
    | some d =>
      dsimp only
      split_ifs
      · exact ih
      · rfl

theorem digitIn_digitChar {d : ℕ} (h : d < 10) : digitIn 10 d.digitChar = some d := by
  interval_cases d <;> decide

theorem fromDigits_digitChar {bound acc d : ℕ} (hd : d < 10) (h : acc * 10 + d ≤ bound) :
    fromDigits 10 bound acc [d.digitChar] = some (acc * 10 + d) := by
  simp only [fromDigits, digitIn_digitChar hd, if_pos h]

/-- The digits of a number spell it, within the bound. -/
theorem fromDigits_toDigits {bound n : ℕ} (h : n ≤ bound) :
    fromDigits 10 bound 0 (Nat.toDigits 10 n) = some n := by
  induction n using Nat.strong_induction_on with
  | _ n ih =>
    by_cases hn : n < 10
    · rw [Nat.toDigits_of_lt_base hn, fromDigits_digitChar hn (by omega)]
      simp
    · rw [Nat.toDigits_of_base_le (by decide) (by omega), fromDigits_append,
        ih (n / 10) (by omega) (by omega), Option.bind_some,
        fromDigits_digitChar (by omega) (by omega), Nat.div_add_mod']

/-- An unsigned number is read back from its text, within the bound. -/
theorem fromStrRadix_toString {bound n : ℕ} (h : n ≤ bound) :
    fromStrRadix 10 bound (toString n).toList = some n := by
  have htext : toString n = n.repr := rfl
  have hread := fromDigits_toDigits h
  rw [htext, Nat.toList_repr]
  cases hdigits : Nat.toDigits 10 n with
  | nil => exact absurd (congrArg List.length hdigits) (Nat.ne_of_gt Nat.length_toDigits_pos)
  | cons c cs =>
    rw [hdigits] at hread
    have hdigit : c.isDigit = true :=
      Nat.isDigit_of_mem_toDigits (by decide) (by decide) (hdigits ▸ List.mem_cons_self)
    have hplus : c ≠ '+' := fun h => absurd (h ▸ hdigit) (by decide)
    have hminus : c ≠ '-' := fun h => absurd (h ▸ hdigit) (by decide)
    unfold fromStrRadix
    split <;> simp_all

/-- A signed number is read back from its text. -/
theorem parseI64_toString (n : Int64) : parseI64 (toString n.toInt).toList = some n := by
  have hlo := n.le_toInt
  have hhi := n.toInt_lt
  conv_rhs => rw [← Int64.ofInt_toInt n]
  generalize n.toInt = m at hlo hhi ⊢
  cases m with
  | ofNat k =>
    have htext : toString (Int.ofNat k) = k.repr := rfl
    have hk : k ≤ 2 ^ 63 - 1 := by
      rw [Int.ofNat_eq_natCast] at hhi
      omega
    have hread := fromDigits_toDigits hk
    rw [htext, Nat.toList_repr]
    cases hdigits : Nat.toDigits 10 k with
    | nil =>
      exact absurd (congrArg List.length hdigits) (Nat.ne_of_gt Nat.length_toDigits_pos)
    | cons c cs =>
      rw [hdigits] at hread
      have hdigit : c.isDigit = true :=
        Nat.isDigit_of_mem_toDigits (by decide) (by decide) (hdigits ▸ List.mem_cons_self)
      have hplus : c ≠ '+' := fun h => absurd (h ▸ hdigit) (by decide)
      have hminus : c ≠ '-' := fun h => absurd (h ▸ hdigit) (by decide)
      unfold parseI64
      split <;> simp_all
  | negSucc k =>
    have htext : (toString (Int.negSucc k)).toList = '-' :: Nat.toDigits 10 (k + 1) := by
      have h : toString (Int.negSucc k) = "-" ++ (k + 1).repr := rfl
      rw [h, String.toList_append, Nat.toList_repr]
      rfl
    have hk : k + 1 ≤ 2 ^ 63 := by omega
    have hread := fromDigits_toDigits hk
    rw [htext]
    cases hdigits : Nat.toDigits 10 (k + 1) with
    | nil =>
      exact absurd (congrArg List.length hdigits) (Nat.ne_of_gt Nat.length_toDigits_pos)
    | cons c cs =>
      rw [hdigits] at hread
      simp only [parseI64, hread]
      rfl

end Lib
