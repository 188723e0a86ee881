/-
  The decoder of torrent files reads every value that is not nested too deep, and comes to an end
  on every input.
-/
import SeedMedic.Torrent.BencodeSpec

namespace SeedMedic

open Lib

namespace Bencode

mutual

/-- How deep the parts of a value are nested. -/
def Tree.depth : Tree → ℕ
  | .int _ => 0
  | .bytes _ => 0
  | .list items => itemsDepth items
  | .dict entries => entriesDepth entries

def itemsDepth : List Tree → ℕ
  | [] => 0
  | t :: ts => max (t.depth + 1) (itemsDepth ts)

def entriesDepth : List (List UInt8 × Tree) → ℕ
  | [] => 0
  | (_, t) :: es => max (t.depth + 1) (entriesDepth es)

end

mutual

/-- The numbers of a value are numbers of 64 bits. -/
def Tree.InRange : Tree → Prop
  | .int i => InI64 i
  | .bytes _ => True
  | .list items => itemsInRange items
  | .dict entries => entriesInRange entries

def itemsInRange : List Tree → Prop
  | [] => True
  | t :: ts => t.InRange ∧ itemsInRange ts

def entriesInRange : List (List UInt8 × Tree) → Prop
  | [] => True
  | (_, t) :: es => t.InRange ∧ entriesInRange es

end

/-! ## What stands in front -/

theorem encodeBytes_cons (b : List UInt8) :
    ∃ c cs, encodeBytes b = c :: cs ∧ isDigit c = true := by
  obtain ⟨c, cs, hc⟩ := List.exists_cons_of_ne_nil (decimal_ne_nil b.length)
  refine ⟨c, cs ++ 58 :: b, by rw [encodeBytes, hc]; rfl, isDigit_decimal (n := b.length) c ?_⟩
  rw [hc]
  exact List.mem_cons_self ..

/-- No value starts with the letter that ends a list. -/
theorem encode_cons (t : Tree) : ∃ c cs, t.encode = c :: cs ∧ c ≠ 101 := by
  cases t with
  | int i => exact ⟨105, _, by rw [Tree.encode]; rfl, by decide⟩
  | bytes b =>
    obtain ⟨c, cs, hc, hdigit⟩ := encodeBytes_cons b
    refine ⟨c, cs, by rw [Tree.encode, hc], ?_⟩
    rintro rfl
    cases hdigit
  | list items => exact ⟨108, _, by rw [Tree.encode]; rfl, by decide⟩
  | dict entries => exact ⟨100, _, by rw [Tree.encode]; rfl, by decide⟩

/-- ASCII is UTF-8. -/
theorem exists_fromUtf8 (bs : List UInt8) (h : ∀ b ∈ bs, Numeric b) :
    ∃ text, fromUtf8 bs = some text := by
  have hsmall : ∀ b ∈ bs, b.toNat < 128 := by
    intro b hb
    rcases h b hb with rfl | hdigit
    · decide
    · exact (isDigit_iff.1 hdigit).2.trans_lt (by decide)
  have hbytes : ∀ bs : List UInt8, (∀ b ∈ bs, b.toNat < 128) →
      (bs.map fun b => Char.ofNat b.toNat).flatMap String.utf8EncodeChar = bs := by
    intro bs
    induction bs with
    | nil => exact fun _ => rfl
    | cons b bs ih =>
      intro hall
      obtain ⟨hb, hbs⟩ := List.forall_mem_cons.1 hall
      have hvalid : (Char.ofNat b.toNat).val.toNat = b.toNat := by
        have hv : b.toNat.isValidChar := .inl (by omega)
        rw [Char.ofNat, dif_pos hv]
        exact UInt32.toNat_ofNatLT ..
      have hone : String.utf8EncodeChar (Char.ofNat b.toNat) = [b] := by
        unfold String.utf8EncodeChar
        dsimp only
        rw [hvalid, if_pos (by omega)]
        simp
      rw [List.map_cons, List.flatMap_cons, hone, ih hbs]
      rfl
  refine ⟨String.ofList (bs.map fun b => Char.ofNat b.toNat), ?_⟩
  have hstr := PathBuf.bytes_ofString (String.ofList (bs.map fun b => Char.ofNat b.toNat))
  rw [String.toList_ofList, hbytes bs hsmall] at hstr
  have hread := PathBuf.toStr_ofString (String.ofList (bs.map fun b => Char.ofNat b.toNat))
  rwa [show PathBuf.ofString _ = ⟨bs⟩ from congrArg PathBuf.mk hstr] at hread

/-! ## Reading what is written -/

section
variable {bytes chunk rest digits : List UInt8} {fuel depth pos pos' start : ℕ}

theorem parser_bind_of {α β : Type} {x : Parser α} {f : α → Parser β} {a : α}
    (h : x pos = .ok (a, pos')) : (x >>= f) pos = f a pos' := by
  change ((x pos : Except Failure (α × ℕ)) >>= fun p => f p.1 p.2) = _
  rw [h]
  rfl

theorem getElem?_of_drop {b : UInt8} (h : bytes.drop pos = b :: rest) : bytes[pos]? = some b := by
  rw [← List.head?_drop, h]
  rfl

theorem drop_succ_of {b : UInt8} (h : bytes.drop pos = b :: rest) : bytes.drop (pos + 1) = rest := by
  rw [← List.tail_drop, h]
  rfl

theorem drop_add_of (h : bytes.drop pos = chunk ++ rest) :
    bytes.drop (pos + chunk.length) = rest := by
  rw [← List.drop_drop, h, List.drop_left]

theorem advance_of {b : UInt8} (h : bytes.drop pos = b :: rest) :
    Parser.advance bytes pos = .ok (b, pos + 1) :=
  advance_ok.2 ⟨getElem?_of_drop h, rfl⟩

theorem peek_of {b : UInt8} (h : bytes.drop pos = b :: rest) :
    Parser.peek bytes pos = .ok (b, pos) :=
  peek_ok.2 ⟨getElem?_of_drop h, rfl⟩

theorem takeUntilFrom_of {delimiter : UInt8} : ∀ {digits : List UInt8} {fuel pos : ℕ}
    {seen : List UInt8}, (∀ b ∈ digits, Numeric b ∧ b ≠ delimiter) → Reads bytes start seen pos →
      bytes.drop pos = digits ++ delimiter :: rest → digits.length < fuel →
      Parser.takeUntilFrom bytes delimiter start fuel pos =
        .ok (seen ++ digits, pos + digits.length + 1)
  | _, 0, _, _, _, _, _, hfuel => absurd hfuel (Nat.not_lt_zero _)
  | [], fuel + 1, pos, seen, _, hseen, hdrop, _ => by
    unfold Parser.takeUntilFrom
    rw [parser_bind_of (advance_of hdrop), if_pos rfl]
    change (Parser.slice bytes start (pos + 1 - 1)).bind (fun chunk => .ok (chunk, pos + 1)) = _
    rw [Nat.add_sub_cancel, hseen.slice, List.append_nil]
    rfl
  | b :: digits, fuel + 1, pos, seen, hdigits, hseen, hdrop, hfuel => by
    obtain ⟨⟨hnumeric, hb⟩, hrest⟩ := List.forall_mem_cons.1 hdigits
    have hread := Reads.single (getElem?_of_drop hdrop)
    have hnext := takeUntilFrom_of hrest (hseen.append hread) (drop_succ_of hdrop)
      (Nat.lt_of_succ_lt_succ hfuel)
    unfold Parser.takeUntilFrom
    rw [parser_bind_of (advance_of hdrop), if_neg hb, if_pos (by simpa [Numeric] using hnumeric),
      hnext, List.append_assoc, List.length_cons]
    congr 2
    omega

theorem length_of_drop (h : bytes.drop pos = chunk ++ rest) (hne : chunk ≠ []) :
    pos + chunk.length + rest.length = bytes.length := by
  have hlength := congrArg List.length h
  rw [List.length_drop, List.length_append] at hlength
  have hpos := List.length_pos_of_ne_nil hne
  omega

theorem takeUntil_of {delimiter : UInt8} (hdigits : ∀ b ∈ digits, Numeric b ∧ b ≠ delimiter)
    (hdrop : bytes.drop pos = digits ++ delimiter :: rest) :
    Parser.takeUntil bytes delimiter pos = .ok (digits, pos + digits.length + 1) := by
  have hlength : pos + (digits ++ [delimiter]).length + rest.length = bytes.length :=
    length_of_drop (by simpa using hdrop) (by simp)
  rw [List.length_append, List.length_singleton] at hlength
  exact takeUntilFrom_of hdigits (Reads.nil (by omega)) hdrop (by omega)

theorem numeric_decimal {n : ℕ} {delimiter : UInt8} (hd : isDigit delimiter = false) :
    ∀ b ∈ decimal n, Numeric b ∧ b ≠ delimiter := by
  intro b hb
  have hdigit := isDigit_decimal b hb
  refine ⟨.inr hdigit, ?_⟩
  rintro rfl
  rw [hd] at hdigit
  cases hdigit

theorem numeric_decimalInt {i : ℤ} : ∀ b ∈ decimalInt i, Numeric b ∧ b ≠ 101 := by
  cases i with
  | ofNat n => exact numeric_decimal (by decide)
  | negSucc n => exact List.forall_mem_cons.2 ⟨⟨.inl rfl, by decide⟩, numeric_decimal (by decide)⟩

/-- No number is written with a zero in front. -/
theorem decimal_lead {n : ℕ} : ¬(1 < (decimal n).length ∧ (decimal n).head? = some 48) := by
  rintro ⟨hlong, hhead⟩
  obtain rfl := decimal_head hhead
  exact absurd hlong (by decide)

theorem decimalInt_wellFormed (i : ℤ) : ¬(decimalInt i = [] ∨ decimalInt i = [45] ∨
    [45, 48] <+: decimalInt i ∨ (1 < (decimalInt i).length ∧ (decimalInt i).head? = some 48)) := by
  cases i with
  | ofNat n =>
    have hminus : ∀ cs, decimal n ≠ 45 :: cs := by
      intro cs h
      have hdigit := isDigit_decimal (n := n) 45 (h ▸ List.mem_cons_self ..)
      cases hdigit
    rintro (h | h | ⟨cs, h⟩ | h)
    · exact decimal_ne_nil n h
    · exact hminus _ h
    · exact hminus _ h.symm
    · exact decimal_lead h
  | negSucc n =>
    rintro (h | h | ⟨cs, h⟩ | ⟨-, h⟩)
    · cases h
    · exact decimal_ne_nil (n + 1) (List.cons.inj h).2
    · have hhead : (decimal (n + 1)).head? = some 48 := by
        rw [← (List.cons.inj h).2]
        rfl
      cases decimal_head hhead
    · cases h

theorem parseInt_of {i : ℤ} (hi : InI64 i)
    (hdrop : bytes.drop pos = 105 :: decimalInt i ++ [101] ++ rest) :
    Parser.parseInt bytes pos = .ok (.int i, pos + (105 :: decimalInt i ++ [101]).length) := by
  have hbehind : bytes.drop (pos + 1) = decimalInt i ++ 101 :: rest := by
    rw [drop_succ_of hdrop]
    simp
  obtain ⟨text, htext⟩ := exists_fromUtf8 (decimalInt i) fun b hb => (numeric_decimalInt b hb).1
  unfold Parser.parseInt
  rw [parser_bind_of (advance_of hdrop), parser_bind_of (takeUntil_of numeric_decimalInt hbehind),
    htext]
  dsimp only
  rw [if_neg (decimalInt_wellFormed i), parseI64_decimalInt hi]
  simp only [List.length_append, List.length_cons, List.length_nil]
  change Except.ok (Value.int i, _) = _
  congr 2
  omega

theorem parseBytes_of {b : List UInt8} (hsmall : bytes.length < wordSize)
    (hdrop : bytes.drop pos = encodeBytes b ++ rest) :
    Parser.parseBytes bytes pos = .ok (.bytes b, pos + (encodeBytes b).length) := by
  have hdigits : bytes.drop pos = decimal b.length ++ 58 :: (b ++ rest) := by
    rw [hdrop, encodeBytes]
    simp
  have hlength : pos + (encodeBytes b).length + rest.length = bytes.length :=
    length_of_drop hdrop (by simp [encodeBytes])
  have henc : (encodeBytes b).length = (decimal b.length).length + 1 + b.length := by
    simp only [encodeBytes, List.length_append, List.length_cons]
    omega
  have hbehind : bytes.drop (pos + (decimal b.length).length + 1) = b ++ rest := by
    have hall : bytes.drop (pos + (decimal b.length ++ [58]).length) = b ++ rest :=
      drop_add_of (by simpa using hdigits)
    simpa [Nat.add_assoc] using hall
  obtain ⟨text, htext⟩ := exists_fromUtf8 (decimal b.length) fun c hc =>
    .inr (isDigit_decimal c hc)
  unfold Parser.parseBytes
  rw [parser_bind_of (takeUntil_of (numeric_decimal (by decide)) hdigits), htext]
  dsimp only
  rw [if_neg decimal_lead, parseUsize_decimal (by omega)]
  dsimp only
  change (if wordSize ≤ pos + (decimal b.length).length + 1 + b.length then _ else
    if bytes.length < pos + (decimal b.length).length + 1 + b.length then _ else _ : Parser Value)
      (pos + (decimal b.length).length + 1) = _
  rw [if_neg (by omega), if_neg (by omega)]
  change Except.ok (Value.bytes ((bytes.drop (pos + (decimal b.length).length + 1)).take b.length),
    pos + (decimal b.length).length + 1 + b.length) = _
  rw [hbehind, List.take_left, henc]
  congr 2
  omega

/-- Where a value may start, its letter chooses how it is read. -/
theorem parseNode_of_value {v : Value} {b : UInt8} (hdepth : depth ≤ MAX_DEPTH)
    (hb : bytes[pos]? = some b)
    (hv : (if b = 105 then Parser.parseInt bytes
      else if b = 108 then Parser.advance bytes >>= fun _ => Parser.parseList bytes fuel depth []
      else if b = 100 then Parser.advance bytes >>= fun _ => Parser.parseDict bytes fuel depth []
      else if isDigit b then Parser.parseBytes bytes
      else refuse ("unexpected byte " ++ hexByte b ++ " at offset " ++ toString pos) :
        Parser Value) pos = .ok (v, pos')) :
    Parser.parseNode bytes (fuel + 1) depth pos = .ok (.mk v pos pos', pos') := by
  unfold Parser.parseNode
  rw [if_neg (not_lt.2 hdepth)]
  rw [parser_bind_of (show (get : Parser ℕ) pos = .ok (pos, pos) from rfl),
    parser_bind_of (peek_ok.2 ⟨hb, rfl⟩), parser_bind_of hv]
  rfl

mutual

/-- A value is read where it is written. -/
theorem parseNode_of (hsmall : bytes.length < wordSize) : ∀ (t : Tree) (fuel depth : ℕ)
    {pos : ℕ} {rest : List UInt8}, t.InRange → depth + t.depth ≤ MAX_DEPTH →
      bytes.drop pos = t.encode ++ rest → 2 * t.encode.length + 1 ≤ fuel →
      ∃ n, Parser.parseNode bytes fuel depth pos = .ok (n, pos + t.encode.length) ∧ n.tree = t
  | _, 0, _, _, _, _, _, _, hfuel => absurd hfuel (by omega)
  | .int i, fuel + 1, depth, pos, rest, hrange, hdepth, hdrop, hfuel => by
    rw [Tree.InRange] at hrange
    rw [Tree.encode] at hdrop hfuel ⊢
    refine ⟨.mk (.int i) pos _, parseNode_of_value (by omega) (getElem?_of_drop hdrop) ?_, rfl⟩
    rw [if_pos rfl]
    exact parseInt_of hrange hdrop
  | .bytes b, fuel + 1, depth, pos, rest, hrange, hdepth, hdrop, hfuel => by
    rw [Tree.encode] at hdrop hfuel ⊢
    obtain ⟨c, cs, hc, hdigit⟩ := encodeBytes_cons b
    have hhead : bytes.drop pos = c :: (cs ++ rest) := by rw [hdrop, hc, List.cons_append]
    refine ⟨.mk (.bytes b) pos _, parseNode_of_value (by omega) (getElem?_of_drop hhead) ?_, rfl⟩
    have hletters : c ≠ 105 ∧ c ≠ 108 ∧ c ≠ 100 := by
      refine ⟨?_, ?_, ?_⟩ <;>
      · rintro rfl
        cases hdigit
    rw [if_neg hletters.1, if_neg hletters.2.1, if_neg hletters.2.2, if_pos hdigit]
    exact parseBytes_of hsmall hdrop
  | .list items, fuel + 1, depth, pos, rest, hrange, hdepth, hdrop, hfuel => by
    rw [Tree.InRange] at hrange
    rw [Tree.depth] at hdepth
    rw [Tree.encode] at hdrop hfuel ⊢
    simp only [List.length_append, List.length_cons, List.length_nil] at hfuel
    have hbehind : bytes.drop (pos + 1) = encodeItems items ++ 101 :: rest := by
      rw [drop_succ_of hdrop]
      simp
    obtain ⟨ns, hns, hitems⟩ := parseList_of hsmall items fuel depth [] hrange hdepth
      hbehind (by omega)
    refine ⟨.mk (.list ns) pos _, parseNode_of_value (by omega) (getElem?_of_drop hdrop) ?_, ?_⟩
    · rw [if_neg (by decide), if_pos rfl, parser_bind_of (advance_of hdrop), hns]
      simp only [List.nil_append, List.length_append, List.length_cons, List.length_nil]
      congr 2
      omega
    · exact congrArg Tree.list hitems
  | .dict entries, fuel + 1, depth, pos, rest, hrange, hdepth, hdrop, hfuel => by
    rw [Tree.InRange] at hrange
    rw [Tree.depth] at hdepth
    rw [Tree.encode] at hdrop hfuel ⊢
    simp only [List.length_append, List.length_cons, List.length_nil] at hfuel
    have hbehind : bytes.drop (pos + 1) = encodeEntries entries ++ 101 :: rest := by
      rw [drop_succ_of hdrop]
      simp
    obtain ⟨ns, hns, hentries⟩ := parseDict_of hsmall entries fuel depth [] hrange
      hdepth hbehind (by omega)
    refine ⟨.mk (.dict ns) pos _, parseNode_of_value (by omega) (getElem?_of_drop hdrop) ?_, ?_⟩
    · rw [if_neg (by decide), if_neg (by decide), if_pos rfl, parser_bind_of (advance_of hdrop), hns]
      simp only [List.nil_append, List.length_append, List.length_cons, List.length_nil]
      congr 2
      omega
    · exact congrArg Tree.dict hentries

/-- The items of a list are read up to its end. -/
theorem parseList_of (hsmall : bytes.length < wordSize) : ∀ (ts : List Tree) (fuel depth : ℕ)
    (acc : List Node) {pos : ℕ} {rest : List UInt8}, itemsInRange ts → depth + itemsDepth ts ≤ MAX_DEPTH →
      bytes.drop pos = encodeItems ts ++ 101 :: rest → 2 * (encodeItems ts).length + 2 ≤ fuel →
      ∃ ns, Parser.parseList bytes fuel depth acc pos =
        .ok (.list (acc ++ ns), pos + (encodeItems ts).length + 1) ∧ trees ns = ts
  | _, 0, _, _, _, _, _, _, _, hfuel => absurd hfuel (by omega)
  | [], fuel + 1, depth, acc, pos, rest, hrange, hdepth, hdrop, hfuel => by
    refine ⟨[], ?_, rfl⟩
    unfold Parser.parseList
    rw [parser_bind_of (peek_of hdrop), if_pos rfl, parser_bind_of (advance_of hdrop),
      List.append_nil]
    rfl
  | t :: ts, fuel + 1, depth, acc, pos, rest, hrange, hdepth, hdrop, hfuel => by
    rw [itemsInRange] at hrange
    rw [itemsDepth] at hdepth
    rw [encodeItems] at hdrop hfuel ⊢
    rw [List.length_append] at hfuel ⊢
    obtain ⟨c, cs, hc, hend⟩ := encode_cons t
    have hpos : 0 < t.encode.length := by
      rw [hc]
      exact Nat.succ_pos _
    rw [List.append_assoc] at hdrop
    have hhead : bytes.drop pos = c :: (cs ++ (encodeItems ts ++ 101 :: rest)) := by
      rw [hdrop, hc, List.cons_append]
    obtain ⟨n, hn, rfl⟩ := parseNode_of hsmall t fuel (depth + 1) hrange.1 (by omega) hdrop (by omega)
    obtain ⟨ns, hns, rfl⟩ := parseList_of hsmall ts fuel depth (acc ++ [n]) hrange.2
      (by omega) (drop_add_of hdrop) (by omega)
    refine ⟨n :: ns, ?_, rfl⟩
    unfold Parser.parseList
    rw [parser_bind_of (peek_of hhead), if_neg hend, parser_bind_of hn, hns, List.append_assoc,
      Nat.add_assoc pos]
    rfl

/-- The entries of a dictionary are read up to its end. -/
theorem parseDict_of (hsmall : bytes.length < wordSize) : ∀ (es : List (List UInt8 × Tree))
    (fuel depth : ℕ) (acc : List (List UInt8 × Node)) {pos : ℕ} {rest : List UInt8},
      entriesInRange es → depth + entriesDepth es ≤ MAX_DEPTH →
      bytes.drop pos = encodeEntries es ++ 101 :: rest → 2 * (encodeEntries es).length + 2 ≤ fuel →
      ∃ ns, Parser.parseDict bytes fuel depth acc pos =
        .ok (.dict (acc ++ ns), pos + (encodeEntries es).length + 1) ∧ entryTrees ns = es
  | _, 0, _, _, _, _, _, _, _, hfuel => absurd hfuel (by omega)
  | [], fuel + 1, depth, acc, pos, rest, hrange, hdepth, hdrop, hfuel => by
    refine ⟨[], ?_, rfl⟩
    unfold Parser.parseDict
    rw [parser_bind_of (peek_of hdrop), if_pos rfl, parser_bind_of (advance_of hdrop),
      List.append_nil]
    rfl
  | (key, t) :: es, fuel + 1, depth, acc, pos, rest, hrange, hdepth, hdrop, hfuel => by
    rw [entriesInRange] at hrange
    rw [entriesDepth] at hdepth
    rw [encodeEntries] at hdrop hfuel ⊢
    rw [List.length_append, List.length_append] at hfuel ⊢
    obtain ⟨c, cs, hc, hdigit⟩ := encodeBytes_cons key
    have hpos : 0 < (encodeBytes key).length := by
      rw [hc]
      exact Nat.succ_pos _
    have hend : c ≠ 101 := by
      rintro rfl
      cases hdigit
    rw [List.append_assoc, List.append_assoc] at hdrop
    have hhead : bytes.drop pos = c :: (cs ++ (t.encode ++ (encodeEntries es ++ 101 :: rest))) := by
      rw [hdrop, hc, List.cons_append]
    have hkey := parseBytes_of hsmall hdrop
    obtain ⟨n, hn, rfl⟩ := parseNode_of hsmall t fuel (depth + 1) hrange.1 (by omega) (drop_add_of hdrop) (by omega)
    obtain ⟨ns, hns, rfl⟩ := parseDict_of hsmall es fuel depth (acc ++ [(key, n)]) hrange.2
      (by omega) (drop_add_of (drop_add_of hdrop)) (by omega)
    refine ⟨(key, n) :: ns, ?_, rfl⟩
    unfold Parser.parseDict
    rw [parser_bind_of (peek_of hhead), if_neg hend, parser_bind_of hkey]
    dsimp only
    rw [parser_bind_of hn, hns, List.append_assoc]
    simp only [Nat.add_assoc]
    rfl

end

/-! ## Every input -/

/-- A reader accepts or refuses what it is given. -/
def Proper {α : Type} (x : Parser α) (pos : ℕ) : Prop :=
  x pos ≠ .error .panicked ∧ x pos ≠ .error .endless

theorem Proper.of_ok {α : Type} {x : Parser α} {r : α × ℕ} (h : x pos = .ok r) : Proper x pos := by
  constructor <;>
  · rw [h]
    rintro ⟨⟩

theorem Proper.of_refused {α : Type} {x : Parser α} {message : String}
    (h : x pos = .error (.refused message)) : Proper x pos := by
  constructor <;>
  · rw [h]
    rintro ⟨⟩

theorem Proper.bind {α β : Type} {x : Parser α} {f : α → Parser β} (hx : Proper x pos)
    (hf : ∀ a p, x pos = .ok (a, p) → Proper (f a) p) : Proper (x >>= f) pos := by
  have hbind : (x >>= f) pos = ((x pos : Except Failure (α × ℕ)) >>= fun p => f p.1 p.2) := rfl
  unfold Proper
  rw [hbind]
  cases h : x pos with
  | error e =>
    rw [Proper, h] at hx
    exact ⟨fun he => hx.1 (congrArg _ (Except.error.inj he)),
      fun he => hx.2 (congrArg _ (Except.error.inj he))⟩
  | ok r => exact hf r.1 r.2 h

theorem peek_proper : Proper (Parser.peek bytes) pos := by
  cases hb : bytes[pos]? with
  | none => exact .of_refused (by rw [Parser.peek, hb])
  | some b => exact .of_ok (by rw [Parser.peek, hb])

theorem advance_proper : Proper (Parser.advance bytes) pos :=
  peek_proper.bind fun _ _ _ => .of_ok rfl

/-- A number is looked for inside the input only, which comes to its end. -/
theorem takeUntilFrom_proper {delimiter : UInt8} : ∀ (fuel : ℕ) {pos : ℕ}, start ≤ pos →
    pos ≤ bytes.length → bytes.length < pos + fuel →
      Proper (Parser.takeUntilFrom bytes delimiter start fuel) pos
  | 0, _, _, hpos, hfuel => absurd hfuel (by omega)
  | fuel + 1, pos, hstart, hpos, hfuel => by
    unfold Parser.takeUntilFrom
    refine advance_proper.bind fun b p hread => ?_
    obtain ⟨hb, rfl⟩ := advance_ok.1 hread
    have hinside := lt_of_getElem? hb
    split_ifs with hdelimiter hnumeric
    · refine (Proper.of_ok rfl : Proper (get : Parser ℕ) (pos + 1)).bind fun q p hq => ?_
      cases hq
      refine Proper.of_ok (r := ((bytes.drop start).take (pos - start), pos + 1)) ?_
      change (Parser.slice bytes start (pos + 1 - 1)).bind (fun chunk => .ok (chunk, pos + 1)) = _
      rw [Nat.add_sub_cancel, Parser.slice, if_pos ⟨hstart, hpos⟩]
      rfl
    · exact takeUntilFrom_proper fuel (by omega) hinside (by omega)
    · exact .of_refused rfl

theorem takeUntil_proper {delimiter : UInt8} (hpos : pos ≤ bytes.length) :
    Proper (Parser.takeUntil bytes delimiter) pos :=
  takeUntilFrom_proper (bytes.length + 1) le_rfl hpos (by omega)

theorem parseInt_proper (hpos : pos < bytes.length) : Proper (Parser.parseInt bytes) pos := by
  unfold Parser.parseInt
  refine advance_proper.bind fun b p hb => ?_
  obtain ⟨-, rfl⟩ := advance_ok.1 hb
  refine (takeUntil_proper hpos).bind fun digits p _ => ?_
  cases fromUtf8 digits with
  | none => exact .of_refused rfl
  | some text =>
    dsimp only
    split_ifs
    · exact .of_refused rfl
    cases parseI64 digits with
    | error e => exact .of_refused rfl
    | ok i => exact .of_ok rfl

theorem parseBytes_proper (hpos : pos ≤ bytes.length) : Proper (Parser.parseBytes bytes) pos := by
  unfold Parser.parseBytes
  refine (takeUntil_proper hpos).bind fun digits p _ => ?_
  cases fromUtf8 digits with
  | none => exact .of_refused rfl
  | some text =>
    dsimp only
    split_ifs
    · exact .of_refused rfl
    cases parseUsize digits with
    | error e => exact .of_refused rfl
    | ok len =>
      refine (Proper.of_ok rfl : Proper (get : Parser ℕ) p).bind fun q p' hq => ?_
      cases hq
      split_ifs
      · exact .of_refused rfl
      · exact .of_refused rfl
      · exact .of_ok rfl

/-- Fuel for two calls on each byte that is left is enough. -/
structure Enough (bytes : List UInt8) (fuel : ℕ) : Prop where
  node : ∀ {depth pos}, pos ≤ bytes.length → 2 * (bytes.length - pos) + 1 ≤ fuel →
    Proper (Parser.parseNode bytes fuel depth) pos
  items : ∀ {depth items pos}, pos ≤ bytes.length → 2 * (bytes.length - pos) + 2 ≤ fuel →
    Proper (Parser.parseList bytes fuel depth items) pos
  entries : ∀ {depth entries pos}, pos ≤ bytes.length → 2 * (bytes.length - pos) + 2 ≤ fuel →
    Proper (Parser.parseDict bytes fuel depth entries) pos

/-- A node takes up some of the input. -/
theorem parseNode_advances {n : Node} (hpos : pos ≤ bytes.length)
    (h : Parser.parseNode bytes fuel depth pos = .ok (n, pos')) :
    pos < pos' ∧ pos' ≤ bytes.length := by
  obtain ⟨hstart, hstop, hbelow⟩ := (faithful bytes fuel).node hpos h
  have hreads := (hbelow n (.self n)).reads
  rw [hstart, hstop] at hreads
  obtain ⟨c, cs, hc, -⟩ := encode_cons n.tree
  have hmoves := hreads.stop
  rw [hc, List.length_cons] at hmoves
  exact ⟨by omega, hreads.bound⟩

theorem Enough.succ_node (h : Enough bytes fuel) (hpos : pos ≤ bytes.length)
    (hfuel : 2 * (bytes.length - pos) + 1 ≤ fuel + 1) :
    Proper (Parser.parseNode bytes (fuel + 1) depth) pos := by
  unfold Parser.parseNode
  split_ifs with hdepth
  · exact .of_refused rfl
  refine (Proper.of_ok rfl : Proper (get : Parser ℕ) pos).bind fun start p hstart => ?_
  cases hstart
  refine peek_proper.bind fun b p hread => ?_
  obtain ⟨hb, rfl⟩ := peek_ok.1 hread
  have hinside := lt_of_getElem? hb
  refine Proper.bind ?_ fun v p _ => .of_ok rfl
  split_ifs
  · exact parseInt_proper hinside
  · refine advance_proper.bind fun c q hc => ?_
    obtain ⟨-, rfl⟩ := advance_ok.1 hc
    exact h.items hinside (by omega)
  · refine advance_proper.bind fun c q hc => ?_
    obtain ⟨-, rfl⟩ := advance_ok.1 hc
    exact h.entries hinside (by omega)
  · exact parseBytes_proper hpos
  · exact .of_refused rfl

theorem Enough.succ_items (h : Enough bytes fuel) {items : List Node} (hpos : pos ≤ bytes.length)
    (hfuel : 2 * (bytes.length - pos) + 2 ≤ fuel + 1) :
    Proper (Parser.parseList bytes (fuel + 1) depth items) pos := by
  unfold Parser.parseList
  refine peek_proper.bind fun b p hread => ?_
  obtain ⟨hb, rfl⟩ := peek_ok.1 hread
  have hinside := lt_of_getElem? hb
  split_ifs
  · exact advance_proper.bind fun _ _ _ => .of_ok rfl
  · refine (h.node hpos (by omega)).bind fun item q hitem => ?_
    obtain ⟨hmoves, hbound⟩ := parseNode_advances hpos hitem
    exact h.items hbound (by omega)

theorem Enough.succ_entries (h : Enough bytes fuel) {entries : List (List UInt8 × Node)}
    (hpos : pos ≤ bytes.length) (hfuel : 2 * (bytes.length - pos) + 2 ≤ fuel + 1) :
    Proper (Parser.parseDict bytes (fuel + 1) depth entries) pos := by
  unfold Parser.parseDict
  refine peek_proper.bind fun b p hread => ?_
  obtain ⟨hb, rfl⟩ := peek_ok.1 hread
  have hinside := lt_of_getElem? hb
  split_ifs
  · exact advance_proper.bind fun _ _ _ => .of_ok rfl
  · refine (parseBytes_proper hpos).bind fun v q hv => ?_
    obtain ⟨key, rfl, hreads⟩ := parseBytes_ok hpos hv
    have hbehind := hreads.stop
    have hbound := hreads.bound
    dsimp only
    refine (h.node hbound (by omega)).bind fun n q' hn => ?_
    obtain ⟨hmoves, hbound'⟩ := parseNode_advances hbound hn
    exact h.entries hbound' (by omega)

theorem enough (bytes : List UInt8) : ∀ fuel, Enough bytes fuel
  | 0 => ⟨fun _ h => (by omega), fun _ h => (by omega), fun _ h => (by omega)⟩
  | fuel + 1 =>
    have h := enough bytes fuel
    ⟨h.succ_node, h.succ_items, h.succ_entries⟩

/-- Every input is accepted or refused. -/
theorem parse_proper (bytes : List UInt8) :
    parse bytes ≠ .error .panicked ∧ parse bytes ≠ .error .endless := by
  have hroot : Proper (Parser.parseNode bytes (2 * bytes.length + 2) 0) 0 :=
    (enough bytes (2 * bytes.length + 2)).node (Nat.zero_le _) (by omega)
  obtain ⟨hpanic, hend⟩ := hroot
  unfold parse
  cases hread : Parser.parseNode bytes (2 * bytes.length + 2) 0 0 with
  | error e =>
    rw [hread] at hpanic hend
    exact ⟨fun h => hpanic (congrArg _ (Except.error.inj h)),
      fun h => hend (congrArg _ (Except.error.inj h))⟩
  | ok r => exact ⟨by rintro ⟨⟩, by rintro ⟨⟩⟩

end

end Bencode

open Bencode

/-- Every value that is not nested too deep is read back, whatever stands behind it in an input that
    can be addressed; and every input whatsoever is accepted or refused, without an access outside
    it. -/
theorem parse_encode :
    (∀ (t : Tree) (tail : List UInt8), t.InRange → t.depth ≤ MAX_DEPTH →
      (t.encode ++ tail).length < wordSize →
        ∃ n, parse (t.encode ++ tail) = .ok n ∧ n.tree = t ∧ n.start = 0 ∧
          n.stop = t.encode.length) ∧
    ∀ bytes : List UInt8, (∃ n, parse bytes = .ok n) ∨
      ∃ message, parse bytes = .error (.refused message) := by
  refine ⟨fun t tail hrange hdepth hsmall => ?_, fun bytes => ?_⟩
  · have hfuel : 2 * t.encode.length + 1 ≤ 2 * (t.encode ++ tail).length + 2 := by
      rw [List.length_append]
      omega
    obtain ⟨n, hn, htree⟩ := parseNode_of hsmall t _ 0 hrange (by omega)
      (show (t.encode ++ tail).drop 0 = t.encode ++ tail from rfl) hfuel
    obtain ⟨hstart, hstop, -⟩ := (faithful _ _).node (Nat.zero_le _) hn
    refine ⟨n, ?_, htree, hstart, by omega⟩
    rw [parse, hn]
    rfl
  · obtain ⟨hpanic, hend⟩ := parse_proper bytes
    cases h : parse bytes with
    | ok n => exact .inl ⟨n, rfl⟩
    | error e =>
      rw [h] at hpanic hend
      cases e with
      | refused message => exact .inr ⟨message, rfl⟩
      | panicked => exact absurd rfl hpanic
      | endless => exact absurd rfl hend

end SeedMedic
