/-
  What the decoder of torrent files reads: exactly the canonical encodings of values, wherever
  they are.
-/
import SeedMedic.Lib.Fallible
import SeedMedic.Torrent.Bencode

namespace SeedMedic

open Lib

namespace Bencode

/-! ## Canonical encodings -/

/-- A value of the format. -/
inductive Tree where
  | int (i : ℤ)
  | bytes (b : List UInt8)
  | list (items : List Tree)
  | dict (entries : List (List UInt8 × Tree))

def encodeBytes (b : List UInt8) : List UInt8 := decimal b.length ++ 58 :: b

mutual

/-- How a value is written, its entries in the order they have. -/
def Tree.encode : Tree → List UInt8
  | .int i => 105 :: decimalInt i ++ [101]
  | .bytes b => encodeBytes b
  | .list items => 108 :: encodeItems items ++ [101]
  | .dict entries => 100 :: encodeEntries entries ++ [101]

def encodeItems : List Tree → List UInt8
  | [] => []
  | t :: ts => t.encode ++ encodeItems ts

def encodeEntries : List (List UInt8 × Tree) → List UInt8
  | [] => []
  | (key, t) :: es => encodeBytes key ++ t.encode ++ encodeEntries es

end

mutual

/-- What was read, without the places. -/
def Value.tree : Value → Tree
  | .int i => .int i
  | .bytes b => .bytes b
  | .list items => .list (trees items)
  | .dict entries => .dict (entryTrees entries)

def Node.tree : Node → Tree
  | .mk value _ _ => value.tree

def trees : List Node → List Tree
  | [] => []
  | n :: ns => n.tree :: trees ns

def entryTrees : List (List UInt8 × Node) → List (List UInt8 × Tree)
  | [] => []
  | (key, n) :: es => (key, n.tree) :: entryTrees es

end

theorem entryTrees_append (es fs : List (List UInt8 × Node)) :
    entryTrees (es ++ fs) = entryTrees es ++ entryTrees fs := by
  induction es with
  | nil => rfl
  | cons e es ih =>
    obtain ⟨key, n⟩ := e
    simp [entryTrees, ih]

/-- The nodes of what was read, at every depth. -/
inductive Below : Node → Node → Prop
  | self (n : Node) : Below n n
  | item {m n : Node} {items : List Node} {start stop : ℕ} (mem : n ∈ items) (below : Below m n) :
    Below m (.mk (.list items) start stop)
  | entry {m n : Node} {key : List UInt8} {entries : List (List UInt8 × Node)} {start stop : ℕ}
      (mem : (key, n) ∈ entries) (below : Below m n) : Below m (.mk (.dict entries) start stop)

/-! ## Numbers -/

theorem parseDigits_ok {limit : ℕ} {overflow : String} : ∀ {bs : List UInt8} {n m : ℕ},
    parseDigits limit overflow n bs = .ok m → (∀ b ∈ bs, isDigit b = true) ∧ m = spelled n bs
  | [], n, m, h => by
    cases h
    exact ⟨by simp, rfl⟩
  | b :: bs, n, m, h => by
    unfold parseDigits at h
    split_ifs at h with hdigit hlimit
    obtain ⟨hdigits, rfl⟩ := parseDigits_ok h
    exact ⟨List.forall_mem_cons.2 ⟨hdigit, hdigits⟩, rfl⟩

theorem parseDigits_le {limit : ℕ} {overflow : String} : ∀ {bs : List UInt8} {n m : ℕ},
    parseDigits limit overflow n bs = .ok m → n ≤ limit → m ≤ limit
  | [], n, m, h, hn => by
    cases h
    exact hn
  | b :: bs, n, m, h, _ => by
    unfold parseDigits at h
    split_ifs at h with hdigit hlimit
    exact parseDigits_le h hlimit

theorem le_spelled : ∀ (bs : List UInt8) (n : ℕ), n ≤ spelled n bs
  | [], _ => le_rfl
  | b :: bs, n => by
    have h := le_spelled bs (n * 10 + digitValue b)
    change n ≤ spelled (n * 10 + digitValue b) bs
    omega

theorem parseDigits_of {limit : ℕ} {overflow : String} : ∀ {bs : List UInt8} {n : ℕ},
    (∀ b ∈ bs, isDigit b = true) → spelled n bs ≤ limit →
      parseDigits limit overflow n bs = .ok (spelled n bs)
  | [], _, _, _ => rfl
  | b :: bs, n, hdigits, hlimit => by
    obtain ⟨hdigit, hdigits⟩ := List.forall_mem_cons.1 hdigits
    have hle := le_spelled bs (n * 10 + digitValue b)
    rw [parseDigits, if_pos hdigit, if_pos (hle.trans hlimit)]
    exact parseDigits_of hdigits hlimit

theorem parseI64_plain {b : UInt8} {bs : List UInt8} (hplus : b ≠ 43) (hminus : b ≠ 45) :
    parseI64 (b :: bs) = (parseDigits i64Max tooLarge 0 (b :: bs)).map Int.ofNat := by
  cases bs with
  | nil => rw [parseI64, if_neg (by simp [hplus, hminus])]
  | cons c cs => simp [parseI64, hplus, hminus]

theorem parseUsize_plain {b : UInt8} {bs : List UInt8} (hplus : b ≠ 43) (hminus : b ≠ 45) :
    parseUsize (b :: bs) = parseDigits (wordSize - 1) tooLarge 0 (b :: bs) := by
  cases bs with
  | nil => rw [parseUsize, if_neg (by simp [hplus, hminus])]
  | cons c cs => simp [parseUsize, hplus]

/-- What stands between the letter and the end of a number. -/
def Numeric (b : UInt8) : Prop := b = 45 ∨ isDigit b = true

theorem Numeric.ne_plus {b : UInt8} (h : Numeric b) : b ≠ 43 := by
  rintro rfl
  rcases h with h | h
  · cases h
  · cases h

theorem isDigit.ne_minus {b : UInt8} (h : isDigit b = true) : b ≠ 45 := by
  rintro rfl
  cases h

theorem isDigit.ne_plus {b : UInt8} (h : isDigit b = true) : b ≠ 43 := by
  rintro rfl
  cases h

/-- A text without a leading zero is how the number in it is written. -/
theorem decimalInt_of_parse {digits : List UInt8} {i : ℤ} (hnumeric : ∀ b ∈ digits, Numeric b)
    (hminus : digits ≠ [45]) (hminusZero : ¬[45, 48] <+: digits)
    (hzero : ¬(1 < digits.length ∧ digits.head? = some 48)) (h : parseI64 digits = .ok i) :
    decimalInt i = digits := by
  cases digits with
  | nil => cases h
  | cons b bs =>
  have hplus := (hnumeric b (List.mem_cons_self ..)).ne_plus
  by_cases hb : b = 45
  · subst hb
    obtain ⟨c, cs, rfl⟩ := List.exists_cons_of_ne_nil fun h => hminus (congrArg _ h)
    have hc : c ≠ 48 := fun hc => hminusZero ⟨cs, by rw [hc]; rfl⟩
    simp only [parseI64, if_neg hplus, if_true] at h
    cases hdigits : parseDigits (i64Max + 1) "number too small to fit in target type" 0 (c :: cs) with
    | error e =>
      rw [hdigits] at h
      cases h
    | ok n =>
      rw [hdigits] at h
      obtain rfl := Except.ok.inj h
      obtain ⟨hall, hn⟩ := parseDigits_ok hdigits
      have hwritten := decimal_spelled (List.cons_ne_nil c cs) hall (.inr fun h => hc (Option.some.inj h))
      rw [← hn] at hwritten
      cases n with
      | zero => exact absurd (List.cons.inj hwritten).1.symm hc
      | succ n =>
        change 45 :: decimal (n + 1) = _
        rw [hwritten]
  · rw [parseI64_plain hplus hb] at h
    cases hdigits : parseDigits i64Max tooLarge 0 (b :: bs) with
    | error e =>
      rw [hdigits] at h
      cases h
    | ok n =>
      rw [hdigits] at h
      obtain rfl := Except.ok.inj h
      obtain ⟨hall, rfl⟩ := parseDigits_ok hdigits
      refine decimal_spelled (List.cons_ne_nil b bs) hall ?_
      by_cases hb0 : b = 48
      · subst hb0
        cases bs with
        | nil => exact .inl rfl
        | cons c cs => exact absurd ⟨by simp, rfl⟩ hzero
      · exact .inr fun h => hb0 (Option.some.inj h)

/-- A length without a leading zero is how it is written. -/
theorem decimal_of_parse {digits : List UInt8} {n : ℕ} (hnumeric : ∀ b ∈ digits, Numeric b)
    (hzero : ¬(1 < digits.length ∧ digits.head? = some 48)) (h : parseUsize digits = .ok n) :
    decimal n = digits := by
  cases digits with
  | nil => cases h
  | cons b bs =>
  have hplus := (hnumeric b (List.mem_cons_self ..)).ne_plus
  have hparsed : parseDigits (wordSize - 1) tooLarge 0 (b :: bs) = .ok n := by
    by_cases hb : b = 45
    · subst hb
      cases bs with
      | nil => cases h
      | cons c cs => simpa [parseUsize] using h
    · rwa [parseUsize_plain hplus hb] at h
  obtain ⟨hall, rfl⟩ := parseDigits_ok hparsed
  refine decimal_spelled (List.cons_ne_nil b bs) hall ?_
  by_cases hb0 : b = 48
  · subst hb0
    cases bs with
    | nil => exact .inl rfl
    | cons c cs => exact absurd ⟨by simp, rfl⟩ hzero
  · exact .inr fun h => hb0 (Option.some.inj h)

/-- A signed number of 64 bits. -/
def InI64 (i : ℤ) : Prop := -2 ^ 63 ≤ i ∧ i < 2 ^ 63

theorem inI64_of_parse {digits : List UInt8} {i : ℤ} (h : parseI64 digits = .ok i) : InI64 i := by
  have hmax : i64Max = 9223372036854775807 := by decide
  have hplain : ∀ {bs : List UInt8}, (parseDigits i64Max tooLarge 0 bs).map Int.ofNat = .ok i →
      InI64 i := by
    intro bs h
    cases hdigits : parseDigits i64Max tooLarge 0 bs with
    | error e =>
      rw [hdigits] at h
      cases h
    | ok n =>
      rw [hdigits] at h
      obtain rfl := Except.ok.inj h
      have hle := parseDigits_le hdigits (Nat.zero_le _)
      constructor <;>
      · rw [Int.ofNat_eq_natCast]
        omega
  unfold parseI64 at h
  split at h
  · cases h
  · split_ifs at h
    exact hplain h
  · rename_i b bs _
    split_ifs at h with hplus hminus
    · exact hplain h
    · cases hdigits : parseDigits (i64Max + 1) "number too small to fit in target type" 0 bs with
      | error e =>
        rw [hdigits] at h
        cases h
      | ok n =>
        rw [hdigits] at h
        obtain rfl : -(n : ℤ) = i := Except.ok.inj h
        have hle := parseDigits_le hdigits (Nat.zero_le _)
        constructor <;> omega
    · exact hplain h

theorem parseI64_decimalInt {i : ℤ} (h : InI64 i) : parseI64 (decimalInt i) = .ok i := by
  obtain ⟨hlo, hhi⟩ := h
  have hmax : i64Max = 9223372036854775807 := by decide
  cases i with
  | ofNat n =>
    obtain ⟨b, bs, hb⟩ := List.exists_cons_of_ne_nil (decimal_ne_nil n)
    have hall := isDigit_decimal (n := n)
    have hspelled := spelled_decimal n
    rw [hb] at hall hspelled
    have hdigit := hall b (List.mem_cons_self ..)
    have hle : spelled 0 (b :: bs) ≤ i64Max := by
      rw [hspelled, hmax]
      simp only [Int.ofNat_eq_natCast] at hhi
      omega
    change parseI64 (decimal n) = _
    rw [hb, parseI64_plain (isDigit.ne_plus hdigit) (isDigit.ne_minus hdigit),
      parseDigits_of hall hle, hspelled]
    rfl
  | negSucc n =>
    obtain ⟨b, bs, hb⟩ := List.exists_cons_of_ne_nil (decimal_ne_nil (n + 1))
    have hall := isDigit_decimal (n := n + 1)
    have hspelled := spelled_decimal (n + 1)
    rw [hb] at hall hspelled
    have hle : spelled 0 (b :: bs) ≤ i64Max + 1 := by
      rw [hspelled, hmax]
      omega
    change parseI64 (45 :: decimal (n + 1)) = _
    rw [hb]
    simp only [parseI64, parseDigits_of hall hle, hspelled]
    rfl

theorem parseUsize_decimal {n : ℕ} (h : n < wordSize) : parseUsize (decimal n) = .ok n := by
  obtain ⟨b, bs, hb⟩ := List.exists_cons_of_ne_nil (decimal_ne_nil n)
  have hall := isDigit_decimal (n := n)
  have hspelled := spelled_decimal n
  rw [hb] at hall hspelled
  have hdigit := hall b (List.mem_cons_self ..)
  rw [hb, parseUsize_plain (isDigit.ne_plus hdigit) (isDigit.ne_minus hdigit),
    parseDigits_of hall (by rw [hspelled]; omega), hspelled]

/-! ## Reading from one place to another -/

/-- Between two places of the input stands `chunk`. -/
structure Reads (bytes : List UInt8) (pos : ℕ) (chunk : List UInt8) (pos' : ℕ) : Prop where
  rest : bytes.drop pos = chunk ++ bytes.drop pos'
  stop : pos' = pos + chunk.length
  bound : pos' ≤ bytes.length

section
variable {bytes chunk chunk' : List UInt8} {pos pos' pos'' : ℕ}

theorem Reads.nil (h : pos ≤ bytes.length) : Reads bytes pos [] pos := ⟨rfl, rfl, h⟩

theorem Reads.append (h : Reads bytes pos chunk pos') (h' : Reads bytes pos' chunk' pos'') :
    Reads bytes pos (chunk ++ chunk') pos'' where
  rest := by rw [h.rest, h'.rest, List.append_assoc]
  stop := by rw [h'.stop, h.stop, List.length_append, Nat.add_assoc]
  bound := h'.bound

theorem Reads.single {b : UInt8} (h : bytes[pos]? = some b) : Reads bytes pos [b] (pos + 1) := by
  obtain ⟨hpos, rfl⟩ := List.getElem?_eq_some_iff.1 h
  exact ⟨(List.drop_eq_getElem_cons hpos).trans rfl, rfl, hpos⟩

/-- What stands between two places of an input that starts with it. -/
theorem Reads.take_eq (h : Reads bytes pos chunk pos') :
    (bytes.drop pos).take (pos' - pos) = chunk := by
  rw [h.rest, h.stop, Nat.add_sub_cancel_left, List.take_left]

theorem Reads.slice (h : Reads bytes pos chunk pos') : Parser.slice bytes pos pos' = .ok chunk := by
  have hle : pos ≤ pos' := by
    rw [h.stop]
    exact Nat.le_add_right _ _
  rw [Parser.slice, if_pos ⟨hle, h.bound⟩, h.take_eq]

theorem parser_bind_ok {α β : Type} {x : Parser α} {f : α → Parser β} {r : β × ℕ} :
    (x >>= f) pos = .ok r ↔ ∃ a pos', x pos = .ok (a, pos') ∧ f a pos' = .ok r := by
  change ((x pos : Except Failure (α × ℕ)) >>= fun p => f p.1 p.2) = .ok r ↔ _
  rw [bind_eq_ok]
  exact ⟨fun ⟨a, ha⟩ => ⟨a.1, a.2, ha⟩, fun ⟨a, p, ha⟩ => ⟨(a, p), ha⟩⟩

theorem peek_ok {b : UInt8} :
    Parser.peek bytes pos = .ok (b, pos') ↔ bytes[pos]? = some b ∧ pos' = pos := by
  unfold Parser.peek
  cases bytes[pos]? with
  | none => simp
  | some c => simp [eq_comm]

theorem advance_ok {b : UInt8} :
    Parser.advance bytes pos = .ok (b, pos') ↔ bytes[pos]? = some b ∧ pos' = pos + 1 := by
  unfold Parser.advance
  rw [parser_bind_ok]
  constructor
  · rintro ⟨c, p, hread, h⟩
    obtain ⟨hc, rfl⟩ := peek_ok.1 hread
    cases h
    exact ⟨hc, rfl⟩
  · rintro ⟨hb, rfl⟩
    exact ⟨b, pos, peek_ok.2 ⟨hb, rfl⟩, rfl⟩

/-- A number is read up to its delimiter. -/
theorem takeUntilFrom_ok {delimiter : UInt8} {start : ℕ} {digits : List UInt8} :
    ∀ {fuel pos : ℕ} {seen : List UInt8}, Reads bytes start seen pos →
      Parser.takeUntilFrom bytes delimiter start fuel pos = .ok (digits, pos') →
      ∃ more, digits = seen ++ more ∧ (∀ b ∈ more, Numeric b) ∧
        Reads bytes pos (more ++ [delimiter]) pos'
  | 0, _, _, _, h => by cases h
  | fuel + 1, pos, seen, hseen, h => by
    unfold Parser.takeUntilFrom at h
    obtain ⟨b, p, hread, hgo⟩ := parser_bind_ok.1 h
    obtain ⟨hb, rfl⟩ := advance_ok.1 hread
    have hone := Reads.single hb
    split_ifs at hgo with hdelimiter hnumeric
    · subst hdelimiter
      have hslice : (Parser.slice bytes start (pos + 1 - 1)).bind
          (fun chunk => .ok (chunk, pos + 1)) = .ok (digits, pos') := hgo
      rw [Nat.add_sub_cancel, hseen.slice] at hslice
      cases hslice
      exact ⟨[], (List.append_nil _).symm, fun b hb => (by cases hb), hone⟩
    · obtain ⟨more, rfl, hmore, hreads⟩ := takeUntilFrom_ok (hseen.append hone) hgo
      refine ⟨b :: more, by simp, List.forall_mem_cons.2 ⟨?_, hmore⟩, hone.append hreads⟩
      simpa [Numeric] using hnumeric
    · cases hgo

theorem takeUntil_ok {delimiter : UInt8} {digits : List UInt8} (hpos : pos ≤ bytes.length)
    (h : Parser.takeUntil bytes delimiter pos = .ok (digits, pos')) :
    (∀ b ∈ digits, Numeric b) ∧ Reads bytes pos (digits ++ [delimiter]) pos' := by
  obtain ⟨more, hdigits, hmore, hreads⟩ := takeUntilFrom_ok (Reads.nil hpos) h
  obtain rfl : digits = more := hdigits
  exact ⟨hmore, hreads⟩

theorem lt_of_getElem? {b : UInt8} (h : bytes[pos]? = some b) : pos < bytes.length :=
  (List.getElem?_eq_some_iff.1 h).1

/-- What a number is read from is how it is written. -/
theorem parseInt_ok {v : Value} (hi : bytes[pos]? = some 105)
    (h : Parser.parseInt bytes pos = .ok (v, pos')) :
    ∃ i, v = .int i ∧ InI64 i ∧ Reads bytes pos (105 :: decimalInt i ++ [101]) pos' := by
  unfold Parser.parseInt at h
  obtain ⟨b, p, hb, h⟩ := parser_bind_ok.1 h
  obtain ⟨-, rfl⟩ := advance_ok.1 hb
  obtain ⟨digits, p, hdigits, h⟩ := parser_bind_ok.1 h
  obtain ⟨hnumeric, hreads⟩ := takeUntil_ok (lt_of_getElem? hi) hdigits
  cases htext : fromUtf8 digits with
  | none =>
    rw [htext] at h
    cases h
  | some text =>
    rw [htext] at h
    dsimp only at h
    split_ifs at h with hmalformed
    · cases h
    cases hparsed : parseI64 digits with
    | error e =>
      rw [hparsed] at h
      cases h
    | ok i =>
      rw [hparsed] at h
      cases h
      simp only [not_or] at hmalformed
      obtain ⟨-, hminus, hminusZero, hzero⟩ := hmalformed
      rw [← decimalInt_of_parse hnumeric hminus hminusZero hzero hparsed] at hreads
      exact ⟨i, rfl, inI64_of_parse hparsed, (Reads.single hi).append hreads⟩

/-- What a byte string is read from is how it is written. -/
theorem parseBytes_ok {v : Value} (hpos : pos ≤ bytes.length)
    (h : Parser.parseBytes bytes pos = .ok (v, pos')) :
    ∃ b, v = .bytes b ∧ Reads bytes pos (encodeBytes b) pos' := by
  unfold Parser.parseBytes at h
  obtain ⟨digits, p, hdigits, h⟩ := parser_bind_ok.1 h
  obtain ⟨hnumeric, hreads⟩ := takeUntil_ok hpos hdigits
  cases htext : fromUtf8 digits with
  | none =>
    rw [htext] at h
    cases h
  | some text =>
    rw [htext] at h
    dsimp only at h
    split_ifs at h with hzero
    · cases h
    cases hparsed : parseUsize digits with
    | error e =>
      rw [hparsed] at h
      cases h
    | ok len =>
      rw [hparsed] at h
      obtain ⟨q, p', hq, h⟩ := parser_bind_ok.1 h
      cases hq
      split_ifs at h with hoverflow hend
      · cases h
      · cases h
      cases h
      have hlength : ((bytes.drop p).take len).length = len := by
        rw [List.length_take, List.length_drop]
        omega
      have hchunk : Reads bytes p ((bytes.drop p).take len) (p + len) :=
        ⟨by rw [← List.drop_drop, List.take_append_drop], by rw [hlength], not_lt.1 hend⟩
      refine ⟨_, rfl, ?_⟩
      rw [encodeBytes, hlength, decimal_of_parse hnumeric hzero hparsed]
      simpa using hreads.append hchunk

end

/-! ## Every node is what is written at its place -/

/-- At the place of a node stands its encoding, and numbers fit. -/
structure Exact (bytes : List UInt8) (n : Node) : Prop where
  reads : Reads bytes n.start n.tree.encode n.stop
  range : ∀ i, n.value = .int i → InI64 i

/-- What the three readers read, with so much fuel. -/
structure Faithful (bytes : List UInt8) (fuel : ℕ) : Prop where
  node : ∀ {depth pos n pos'}, pos ≤ bytes.length →
    Parser.parseNode bytes fuel depth pos = .ok (n, pos') →
      n.start = pos ∧ n.stop = pos' ∧ ∀ m, Below m n → Exact bytes m
  items : ∀ {depth items pos v pos'}, pos ≤ bytes.length →
    Parser.parseList bytes fuel depth items pos = .ok (v, pos') →
      ∃ more, v = .list (items ++ more) ∧
        Reads bytes pos (encodeItems (trees more) ++ [101]) pos' ∧
        ∀ n ∈ more, ∀ m, Below m n → Exact bytes m
  entries : ∀ {depth entries pos v pos'}, pos ≤ bytes.length →
    Parser.parseDict bytes fuel depth entries pos = .ok (v, pos') →
      ∃ more, v = .dict (entries ++ more) ∧
        Reads bytes pos (encodeEntries (entryTrees more) ++ [101]) pos' ∧
        ∀ e ∈ more, ∀ m, Below m e.2 → Exact bytes m

variable {bytes : List UInt8} {fuel depth pos pos' : ℕ}

/-- A node whose own encoding is where it should be, and whose parts are. -/
theorem below_mk {v : Value} {start stop : ℕ} (hself : Reads bytes start v.tree.encode stop)
    (hrange : ∀ i, v = .int i → InI64 i) (hparts : ∀ m, Below m (.mk v start stop) → m = .mk v start stop ∨ Exact bytes m) :
    ∀ m, Below m (.mk v start stop) → Exact bytes m := by
  intro m hm
  rcases hparts m hm with rfl | hexact
  · exact ⟨hself, hrange⟩
  · exact hexact

theorem Faithful.list_value (h : Faithful bytes fuel) {v : Value} (hl : bytes[pos]? = some 108)
    (hv : (Parser.advance bytes >>= fun _ => Parser.parseList bytes fuel depth []) pos =
      .ok (v, pos')) :
    Reads bytes pos v.tree.encode pos' ∧ (∀ i, v = .int i → InI64 i) ∧
      ∀ m, Below m (.mk v pos pos') → m = .mk v pos pos' ∨ Exact bytes m := by
  obtain ⟨b, p, hb, hlist⟩ := parser_bind_ok.1 hv
  obtain ⟨-, rfl⟩ := advance_ok.1 hb
  obtain ⟨more, rfl, hreads, hmore⟩ := h.items (lt_of_getElem? hl) hlist
  refine ⟨(Reads.single hl).append hreads, by rintro _ ⟨⟩, fun m hm => ?_⟩
  cases hm with
  | self => exact .inl rfl
  | item mem below => exact .inr (hmore _ mem m below)

theorem Faithful.dict_value (h : Faithful bytes fuel) {v : Value} (hd : bytes[pos]? = some 100)
    (hv : (Parser.advance bytes >>= fun _ => Parser.parseDict bytes fuel depth []) pos =
      .ok (v, pos')) :
    Reads bytes pos v.tree.encode pos' ∧ (∀ i, v = .int i → InI64 i) ∧
      ∀ m, Below m (.mk v pos pos') → m = .mk v pos pos' ∨ Exact bytes m := by
  obtain ⟨b, p, hb, hdict⟩ := parser_bind_ok.1 hv
  obtain ⟨-, rfl⟩ := advance_ok.1 hb
  obtain ⟨more, rfl, hreads, hmore⟩ := h.entries (lt_of_getElem? hd) hdict
  refine ⟨(Reads.single hd).append hreads, by rintro _ ⟨⟩, fun m hm => ?_⟩
  cases hm with
  | self => exact .inl rfl
  | entry mem below => exact .inr (hmore _ mem m below)

theorem below_leaf {v : Value} {start stop : ℕ} (hlist : ∀ items, v ≠ .list items)
    (hdict : ∀ entries, v ≠ .dict entries) {m : Node} (h : Below m (.mk v start stop)) :
    m = .mk v start stop := by
  cases h with
  | self => rfl
  | item mem below => exact absurd rfl (hlist _)
  | entry mem below => exact absurd rfl (hdict _)

theorem Faithful.succ_node (h : Faithful bytes fuel) {n : Node} (hpos : pos ≤ bytes.length)
    (hn : Parser.parseNode bytes (fuel + 1) depth pos = .ok (n, pos')) :
    n.start = pos ∧ n.stop = pos' ∧ ∀ m, Below m n → Exact bytes m := by
  unfold Parser.parseNode at hn
  split_ifs at hn with hdepth
  · cases hn
  obtain ⟨start, p, hstart, hpeek⟩ := parser_bind_ok.1 hn
  cases hstart
  obtain ⟨byte, p, hread, hvalue⟩ := parser_bind_ok.1 hpeek
  obtain ⟨hbyte, rfl⟩ := peek_ok.1 hread
  obtain ⟨v, p, hv, hget⟩ := parser_bind_ok.1 hvalue
  obtain ⟨stop, q, hstop, hmk⟩ := parser_bind_ok.1 hget
  cases hstop
  cases hmk
  refine ⟨rfl, rfl, ?_⟩
  split_ifs at hv with hi hl hd hdigit
  · subst hi
    obtain ⟨i, rfl, hrange, hreads⟩ := parseInt_ok hbyte hv
    refine below_mk hreads (fun j hj => ?_) fun m hm =>
      .inl (below_leaf (by rintro _ ⟨⟩) (by rintro _ ⟨⟩) hm)
    obtain rfl := Value.int.inj hj
    exact hrange
  · subst hl
    obtain ⟨hreads, hrange, hparts⟩ := h.list_value hbyte hv
    exact below_mk hreads hrange hparts
  · subst hd
    obtain ⟨hreads, hrange, hparts⟩ := h.dict_value hbyte hv
    exact below_mk hreads hrange hparts
  · obtain ⟨b, rfl, hreads⟩ := parseBytes_ok hpos hv
    exact below_mk hreads (by rintro _ ⟨⟩) fun m hm =>
      .inl (below_leaf (by rintro _ ⟨⟩) (by rintro _ ⟨⟩) hm)
  · cases hv

theorem Faithful.succ_items (h : Faithful bytes fuel) {items : List Node} {v : Value}
    (hv : Parser.parseList bytes (fuel + 1) depth items pos = .ok (v, pos')) :
    ∃ more, v = .list (items ++ more) ∧
      Reads bytes pos (encodeItems (trees more) ++ [101]) pos' ∧
      ∀ n ∈ more, ∀ m, Below m n → Exact bytes m := by
  unfold Parser.parseList at hv
  obtain ⟨byte, p, hread, hgo⟩ := parser_bind_ok.1 hv
  obtain ⟨hbyte, rfl⟩ := peek_ok.1 hread
  split_ifs at hgo with hend
  · subst hend
    obtain ⟨b, p, hb, hdone⟩ := parser_bind_ok.1 hgo
    obtain ⟨-, rfl⟩ := advance_ok.1 hb
    cases hdone
    exact ⟨[], by rw [List.append_nil], Reads.single hbyte, fun n hn => (by cases hn)⟩
  · obtain ⟨item, p, hitem, hmore⟩ := parser_bind_ok.1 hgo
    obtain ⟨hstart, hstop, hbelow⟩ := h.node (lt_of_getElem? hbyte).le hitem
    have hreads := (hbelow item (.self item)).reads
    rw [hstart, hstop] at hreads
    obtain ⟨more, rfl, hrest, hexact⟩ := h.items hreads.bound hmore
    refine ⟨item :: more, by rw [List.append_assoc, List.singleton_append], ?_,
      List.forall_mem_cons.2 ⟨hbelow, hexact⟩⟩
    simpa [trees, encodeItems] using hreads.append hrest

theorem Faithful.succ_entries (h : Faithful bytes fuel) {entries : List (List UInt8 × Node)}
    {v : Value} (hv : Parser.parseDict bytes (fuel + 1) depth entries pos = .ok (v, pos')) :
    ∃ more, v = .dict (entries ++ more) ∧
      Reads bytes pos (encodeEntries (entryTrees more) ++ [101]) pos' ∧
      ∀ e ∈ more, ∀ m, Below m e.2 → Exact bytes m := by
  unfold Parser.parseDict at hv
  obtain ⟨byte, p, hread, hgo⟩ := parser_bind_ok.1 hv
  obtain ⟨hbyte, rfl⟩ := peek_ok.1 hread
  split_ifs at hgo with hend
  · subst hend
    obtain ⟨b, p, hb, hdone⟩ := parser_bind_ok.1 hgo
    obtain ⟨-, rfl⟩ := advance_ok.1 hb
    cases hdone
    exact ⟨[], by rw [List.append_nil], Reads.single hbyte, fun e he => (by cases he)⟩
  · obtain ⟨key, p, hkey, hnode⟩ := parser_bind_ok.1 hgo
    obtain ⟨key, rfl, hkeyReads⟩ := parseBytes_ok (lt_of_getElem? hbyte).le hkey
    obtain ⟨n, q, hn, hmore⟩ := parser_bind_ok.1 hnode
    obtain ⟨hstart, hstop, hbelow⟩ := h.node hkeyReads.bound hn
    have hreads := (hbelow n (.self n)).reads
    rw [hstart, hstop] at hreads
    obtain ⟨more, rfl, hrest, hexact⟩ := h.entries hreads.bound hmore
    refine ⟨(key, n) :: more, by rw [List.append_assoc, List.singleton_append], ?_,
      List.forall_mem_cons.2 ⟨hbelow, hexact⟩⟩
    simpa [entryTrees, encodeEntries] using (hkeyReads.append hreads).append hrest

theorem faithful (bytes : List UInt8) : ∀ fuel, Faithful bytes fuel
  | 0 => ⟨fun _ h => (by cases h), fun _ h => (by cases h), fun _ h => (by cases h)⟩
  | fuel + 1 =>
    have h := faithful bytes fuel
    ⟨h.succ_node, fun _ hv => h.succ_items hv, fun _ hv => h.succ_entries hv⟩

/-- What is read of an input starts at its start, and every node of it is what is written at its
    place. -/
theorem parse_exact {root : Node} (h : parse bytes = .ok root) :
    root.start = 0 ∧ ∀ m, Below m root → Exact bytes m := by
  unfold parse at h
  cases hroot : Parser.parseNode bytes (2 * bytes.length + 2) 0 0 with
  | error e =>
    rw [hroot] at h
    cases h
  | ok r =>
    rw [hroot] at h
    cases h
    obtain ⟨n, pos'⟩ := r
    obtain ⟨hstart, -, hbelow⟩ := (faithful bytes _).node (Nat.zero_le _) hroot
    exact ⟨hstart, hbelow⟩

/-! ## The info-hash -/

theorem malformed_ok {α : Type} {x : Except String α} {a : α} :
    malformed x = .ok a ↔ x = .ok a := by
  cases x <;> simp [malformed, Except.mapError]

theorem required_ok {α : Type} {field : String} {x : Option α} {a : α} :
    required field x = .ok a ↔ x = some a := by
  cases x <;> simp [required]

theorem asDict_ok {v : Value} {entries : List (List UInt8 × Node)} :
    v.asDict = .ok entries ↔ v = .dict entries := by
  cases v <;> simp [Value.asDict]

/-- What is found is the first entry of its key. -/
theorem find_some {entries : List (List UInt8 × Node)} {key : String} {n : Node}
    (h : find entries key = some n) :
    ∃ before after, entries = before ++ ((PathBuf.ofString key).bytes, n) :: after ∧
      ∀ e ∈ before, e.1 ≠ (PathBuf.ofString key).bytes := by
  obtain ⟨⟨k, n'⟩, hfound, rfl⟩ := Option.map_eq_some_iff.1 h
  obtain ⟨hkey, before, after, rfl, hbefore⟩ := List.find?_eq_some_iff_append.1 hfound
  obtain rfl : k = (PathBuf.ofString key).bytes := of_decide_eq_true hkey
  exact ⟨before, after, rfl, fun e he => by simpa using hbefore e he⟩

theorem asList_ok {v : Value} {items : List Node} : v.asList = .ok items ↔ v = .list items := by
  cases v <;> simp [Value.asList]

theorem mem_of_find {entries : List (List UInt8 × Node)} {key : String} {n : Node}
    (h : find entries key = some n) : ((PathBuf.ofString key).bytes, n) ∈ entries := by
  obtain ⟨before, after, rfl, -⟩ := find_some h
  exact List.mem_append_right _ (List.mem_cons_self ..)

/-- What is found in a dictionary is one of its parts. -/
theorem below_of_find {n m : Node} {entries : List (List UInt8 × Node)} {key : String}
    (hn : n.value.asDict = .ok entries) (h : find entries key = some m) : Below m n := by
  obtain ⟨value, start, stop⟩ := n
  obtain rfl : value = .dict entries := asDict_ok.1 hn
  exact .entry (mem_of_find h) (.self m)

theorem Below.trans {n m k : Node} (h : Below n m) (h' : Below m k) : Below n k := by
  induction h' with
  | self => exact h
  | item mem _ ih => exact .item mem ih
  | entry mem _ ih => exact .entry mem ih

/-- The length of every file of a list is read from one of its parts. -/
theorem decodeFiles_length {node : Node} {name : SafeRelativePath} {files : List TorrentFile}
    (h : decodeFiles node name = .ok files) :
    ∀ f ∈ files, ∃ n, Below n node ∧ asLength n = .ok f.length := by
  obtain ⟨value, start, stop⟩ := node
  unfold decodeFiles at h
  obtain ⟨entries, hentries, hfiles⟩ := bind_eq_ok.1 h
  obtain rfl : value = .list entries := asList_ok.1 (malformed_ok.1 hentries)
  split_ifs at hfiles
  intro f hf
  obtain ⟨fileNode, hmem, hfile⟩ := mem_of_mapM hfiles hf
  unfold decodeFile at hfile
  obtain ⟨fields, hfields, h₁⟩ := bind_eq_ok.1 hfile
  obtain ⟨lengthNode, hlength, h₂⟩ := bind_eq_ok.1 h₁
  obtain ⟨length, hread, h₃⟩ := bind_eq_ok.1 h₂
  obtain ⟨pathNode, -, h₄⟩ := bind_eq_ok.1 h₃
  obtain ⟨components, -, h₅⟩ := bind_eq_ok.1 h₄
  split_ifs at h₅
  obtain ⟨texts, -, h₆⟩ := bind_eq_ok.1 h₅
  obtain ⟨path, -, h₇⟩ := bind_eq_ok.1 h₆
  cases h₇
  refine ⟨lengthNode, .item hmem ?_, hread⟩
  exact below_of_find (malformed_ok.1 hfields) (required_ok.1 hlength)

/-- Where the files of an accepted torrent come from: it is one file, or it has a list of them. -/
inductive FilesFrom (infoEntries : List (List UInt8 × Node)) (name : SafeRelativePath) :
    List TorrentFile → Prop
  | single {node : Node} {length : ℕ} (found : find infoEntries "length" = some node)
      (alone : find infoEntries "files" = none) (read : asLength node = .ok length) :
      FilesFrom infoEntries name [⟨name, length⟩]
  | listed {node : Node} {files : List TorrentFile} (found : find infoEntries "files" = some node)
      (read : decodeFiles node name = .ok files) : FilesFrom infoEntries name files

/-- What an accepted torrent starts with, what of it was hashed, and where its files come from. -/
theorem inspect_ok {sha1 : List UInt8 → Digest} {m : TorrentMetadata}
    (h : inspect sha1 bytes = .ok m) :
    ∃ entries start stop infoNode infoEntries, parse bytes = .ok (.mk (.dict entries) start stop) ∧
      find entries "info" = some infoNode ∧
      (∃ infoBytes, Parser.slice bytes infoNode.start infoNode.stop = .ok infoBytes ∧
        m.infoHash = ⟨sha1 infoBytes⟩) ∧
      infoNode.value.asDict = .ok infoEntries ∧ FilesFrom infoEntries m.name m.files := by
  unfold inspect at h
  split_ifs at h with hlimit
  obtain ⟨⟨value, start, stop⟩, hroot, h₁⟩ := bind_eq_ok.1 h
  obtain ⟨entries, hentries, h₂⟩ := bind_eq_ok.1 h₁
  obtain ⟨infoNode, hinfo, h₃⟩ := bind_eq_ok.1 h₂
  obtain ⟨infoEntries, hinfoEntries, h₄⟩ := bind_eq_ok.1 h₃
  obtain ⟨infoBytes, hbytes, h₅⟩ := bind_eq_ok.1 h₄
  obtain ⟨nameNode, -, h₆⟩ := bind_eq_ok.1 h₅
  obtain ⟨text, -, h₇⟩ := bind_eq_ok.1 h₆
  obtain ⟨name, -, h₈⟩ := bind_eq_ok.1 h₇
  obtain ⟨lengthNode, -, h₉⟩ := bind_eq_ok.1 h₈
  obtain ⟨pieceLength, -, h₁₀⟩ := bind_eq_ok.1 h₉
  obtain ⟨files, hfiles, h₁₁⟩ := bind_eq_ok.1 h₁₀
  obtain ⟨pieces, -, h₁₂⟩ := bind_eq_ok.1 h₁₁
  cases h₁₂
  have hmap : ∀ {α : Type} {x : Except Failure α} {a : α},
      malformed (x.mapError Failure.message) = .ok a → x = .ok a := by
    intro α x a hx
    cases x with
    | error e => cases hx
    | ok b => exact congrArg _ (Except.ok.inj (malformed_ok.1 hx))
  obtain rfl : value = .dict entries := asDict_ok.1 (malformed_ok.1 hentries)
  refine ⟨entries, start, stop, infoNode, infoEntries, hmap hroot, required_ok.1 hinfo,
    ⟨infoBytes, hmap hbytes, rfl⟩, malformed_ok.1 hinfoEntries, ?_⟩
  cases hlength : find infoEntries "length" with
  | some oneNode =>
    rw [hlength] at hfiles
    cases hlist : find infoEntries "files" with
    | some filesNode =>
      rw [hlist] at hfiles
      cases hfiles
    | none =>
      rw [hlist] at hfiles
      obtain ⟨length, hread, hdone⟩ := bind_eq_ok.1 hfiles
      cases hdone
      exact .single hlength hlist hread
  | none =>
    rw [hlength] at hfiles
    cases hlist : find infoEntries "files" with
    | some filesNode =>
      rw [hlist] at hfiles
      exact .listed hlist hfiles
    | none =>
      rw [hlist] at hfiles
      cases hfiles

/-- The lengths of an accepted torrent are numbers of 63 bits. -/
theorem inspect_length {sha1 : List UInt8 → Digest} {m : TorrentMetadata}
    (h : inspect sha1 bytes = .ok m) : ∀ f ∈ m.files, f.length ≤ i64Max := by
  obtain ⟨entries, start, stop, infoNode, infoEntries, hroot, hfind, -, hinfo, hfrom⟩ :=
    inspect_ok h
  -- every length is read from a part of the info entry
  have hlengths : ∀ f ∈ m.files, ∃ n, Below n infoNode ∧ asLength n = .ok f.length := by
    generalize m.files = files at hfrom
    intro f hf
    cases hfrom with
    | single found alone read =>
      obtain rfl := List.mem_singleton.1 hf
      exact ⟨_, below_of_find hinfo found, read⟩
    | listed found read =>
      obtain ⟨n, hn, hread⟩ := decodeFiles_length read f hf
      exact ⟨n, hn.trans (below_of_find hinfo found), hread⟩
  intro f hf
  obtain ⟨n, hn, hread⟩ := hlengths f hf
  have hexact := (parse_exact hroot).2 n (.entry (mem_of_find hfind) hn)
  unfold asLength at hread
  split at hread
  · rename_i i hvalue
    split_ifs at hread
    have hrange := hexact.range i hvalue
    have hmax : i64Max = 9223372036854775807 := by decide
    unfold InI64 at hrange
    have hlength := Except.ok.inj hread
    omega
  · cases hread

end Bencode

open Bencode

/-- At the place of every node of what is read stands exactly its encoding; and the info-hash of a
    torrent that is accepted is the hash of the encoding of its first info entry, as it stands in the
    file. -/
theorem read_where_written (bytes : List UInt8) :
    (∀ root, parse bytes = .ok root → ∀ n, Below n root →
      n.start ≤ n.stop ∧ n.stop ≤ bytes.length ∧
        (bytes.drop n.start).take (n.stop - n.start) = n.tree.encode) ∧
    ∀ (sha1 : List UInt8 → Digest) (m : TorrentMetadata), inspect sha1 bytes = .ok m →
      ∃ before info after rest,
        bytes = (Tree.dict (before ++ ((PathBuf.ofString "info").bytes, info) :: after)).encode ++ rest ∧
        (∀ e ∈ before, e.1 ≠ (PathBuf.ofString "info").bytes) ∧
        m.infoHash = ⟨sha1 info.encode⟩ := by
  refine ⟨fun root hroot n hn => ?_, fun sha1 m hm => ?_⟩
  · have hexact := ((parse_exact hroot).2 n hn).reads
    refine ⟨?_, hexact.bound, hexact.take_eq⟩
    rw [hexact.stop]
    exact Nat.le_add_right _ _
  · obtain ⟨entries, start, stop, infoNode, infoEntries, hroot, hfind, ⟨infoBytes, hslice, hhash⟩,
      -, -⟩ := inspect_ok hm
    obtain ⟨before, after, rfl, hbefore⟩ := find_some hfind
    obtain ⟨hstart, hexact⟩ := parse_exact hroot
    obtain rfl : start = 0 := hstart
    have hwhole := (hexact _ (.self _)).reads.rest
    have hinfo := (hexact infoNode
      (.entry (List.mem_append_right _ (List.mem_cons_self ..)) (.self _))).reads
    obtain rfl : infoNode.tree.encode = infoBytes := Except.ok.inj (hinfo.slice.symm.trans hslice)
    refine ⟨entryTrees before, infoNode.tree, entryTrees after, bytes.drop stop, ?_, ?_, hhash⟩
    · have htrees : (Node.mk (.dict (before ++ ((PathBuf.ofString "info").bytes, infoNode) :: after)) 0
          stop).tree = .dict (entryTrees before ++
            ((PathBuf.ofString "info").bytes, infoNode.tree) :: entryTrees after) :=
        congrArg Tree.dict (entryTrees_append before _)
      rw [← htrees]
      exact hwhole
    · have hkeys : ∀ es : List (List UInt8 × Node), (entryTrees es).map Prod.fst = es.map Prod.fst := by
        intro es
        induction es with
        | nil => rfl
        | cons e es ih => simp [entryTrees, ih]
      intro e he heq
      have hmem : e.1 ∈ (entryTrees before).map Prod.fst := List.mem_map_of_mem he
      rw [hkeys, List.mem_map] at hmem
      obtain ⟨e', he', hsame⟩ := hmem
      exact hbefore e' he' (hsame.trans heq)

end SeedMedic
