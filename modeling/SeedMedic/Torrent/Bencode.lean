/-
  Decoding of torrent files (`torrent/adapters/bencode.rs`).
-/
import SeedMedic.Lib.Decimal
import SeedMedic.Torrent.Domain

namespace SeedMedic

open Lib

namespace Bencode

def PIECE_HASH_BYTES : ℕ := 20

def MAX_TORRENT_BYTES : ℕ := 10 * 1024 * 1024

def MAX_DEPTH : ℕ := 32

def MAX_FILES : ℕ := 10000

/-! ## What is read -/

mutual

/-- A value as it is read, with the places its parts came from. -/
inductive Value where
  | int (i : ℤ)
  | bytes (b : List UInt8)
  | list (items : List Node)
  | dict (entries : List (List UInt8 × Node))

/-- A value and the range of the input it was read from. -/
inductive Node where
  | mk (value : Value) (start stop : ℕ)

end

namespace Node

def value : Node → Value
  | mk value _ _ => value

def start : Node → ℕ
  | mk _ start _ => start

def stop : Node → ℕ
  | mk _ _ stop => stop

end Node

namespace Value

def asDict : Value → Except String (List (List UInt8 × Node))
  | dict entries => .ok entries
  | _ => .error "expected a dictionary"

def asList : Value → Except String (List Node)
  | list items => .ok items
  | _ => .error "expected a list"

def asBytes : Value → Except String (List UInt8)
  | bytes b => .ok b
  | _ => .error "expected a byte string"

end Value

/-- The first entry of a key. -/
def find (entries : List (List UInt8 × Node)) (key : String) : Option Node :=
  (entries.find? fun e => e.1 = (PathBuf.ofString key).bytes).map (·.2)

/-! ## Numbers -/

/-- Digits read into a number that must not exceed `limit`. -/
def parseDigits (limit : ℕ) (overflow : String) : ℕ → List UInt8 → Except String ℕ
  | n, [] => .ok n
  | n, b :: bs =>
    if isDigit b then
      if n * 10 + digitValue b ≤ limit then parseDigits limit overflow (n * 10 + digitValue b) bs
      else .error overflow
    else .error "invalid digit found in string"

def tooLarge : String := "number too large to fit in target type"

/-- The text as a signed number of 64 bits. -/
def parseI64 : List UInt8 → Except String ℤ
  | [] => .error "cannot parse integer from empty string"
  | [b] =>
    if b = 43 ∨ b = 45 then .error "invalid digit found in string"
    else (parseDigits i64Max tooLarge 0 [b]).map Int.ofNat
  | b :: bs =>
    if b = 43 then (parseDigits i64Max tooLarge 0 bs).map Int.ofNat
    else if b = 45 then
      (parseDigits (i64Max + 1) "number too small to fit in target type" 0 bs).map fun n => -(n : ℤ)
    else (parseDigits i64Max tooLarge 0 (b :: bs)).map Int.ofNat

/-- The text as a length. -/
def parseUsize : List UInt8 → Except String ℕ
  | [] => .error "cannot parse integer from empty string"
  | [b] =>
    if b = 43 ∨ b = 45 then .error "invalid digit found in string"
    else parseDigits (wordSize - 1) tooLarge 0 [b]
  | b :: bs =>
    if b = 43 then parseDigits (wordSize - 1) tooLarge 0 bs
    else parseDigits (wordSize - 1) tooLarge 0 (b :: bs)

/-- Bytes as text, where they are UTF-8. -/
def fromUtf8 (b : List UInt8) : Option String := (⟨b⟩ : PathBuf).toStr

/-- A byte in hexadecimal, as messages show it. -/
def hexByte (b : UInt8) : String :=
  String.ofList ['0', 'x', hexDigit (b.toNat / 16), hexDigit b.toNat]

/-! ## The reader -/

/-- Why nothing was read. -/
inductive Failure where
  | refused (message : String)
  /-- An access outside the input, or a state that is taken for impossible. -/
  | panicked
  /-- The reader did not come to an end. -/
  | endless
  deriving DecidableEq

/-- A reader that has come to a position of the input. -/
abbrev Parser : Type → Type := StateT ℕ (Except Failure)

def refuse {α : Type} (message : String) : Parser α := fun _ => .error (.refused message)

namespace Parser

variable (bytes : List UInt8)

def peek : Parser UInt8 := fun pos =>
  match bytes[pos]? with
  | some byte => .ok (byte, pos)
  | none => .error (.refused "unexpected end of input")

def advance : Parser UInt8 := do
  let byte ← peek bytes
  modify (· + 1)
  pure byte

/-- The bytes from one place to another; the access panics where they are not there. -/
def slice (start stop : ℕ) : Except Failure (List UInt8) :=
  if start ≤ stop ∧ stop ≤ bytes.length then .ok ((bytes.drop start).take (stop - start))
  else .error .panicked

/-- The bytes of a number up to a delimiter, which is read too. -/
def takeUntilFrom (delimiter : UInt8) (start : ℕ) : ℕ → Parser (List UInt8)
  | 0 => fun _ => .error .endless
  | fuel + 1 => do
    let byte ← advance bytes
    if byte = delimiter then
      let pos ← get
      slice bytes start (pos - 1)
    else if byte = 45 || isDigit byte then takeUntilFrom delimiter start fuel
    else refuse ("unexpected byte " ++ hexByte byte ++ " in a number")

def takeUntil (delimiter : UInt8) : Parser (List UInt8) := do
  let start ← get
  takeUntilFrom bytes delimiter start (bytes.length + 1)

def parseInt : Parser Value := do
  let _ ← advance bytes
  let digits ← takeUntil bytes 101
  match fromUtf8 digits with
  | none => refuse "integer is not ASCII"
  | some text =>
    if digits = [] ∨ digits = [45] ∨ [45, 48] <+: digits ∨
        (1 < digits.length ∧ digits.head? = some 48) then
      refuse ("malformed integer " ++ PathRejection.debugStr text)
    else
      match parseI64 digits with
      | .ok i => pure (.int i)
      | .error e => refuse ("malformed integer " ++ PathRejection.debugStr text ++ ": " ++ e)

def parseBytes : Parser Value := do
  let digits ← takeUntil bytes 58
  match fromUtf8 digits with
  | none => refuse "length is not ASCII"
  | some text =>
    if 1 < digits.length ∧ digits.head? = some 48 then
      refuse ("byte string length has a leading zero: " ++ PathRejection.debugStr text)
    else
      match parseUsize digits with
      | .error e =>
        refuse ("malformed byte string length " ++ PathRejection.debugStr text ++ ": " ++ e)
      | .ok len => do
        let pos ← get
        if wordSize ≤ pos + len then refuse "byte string length overflows"
        else if bytes.length < pos + len then refuse "byte string runs past end of input"
        else do
          set (pos + len)
          pure (.bytes ((bytes.drop pos).take len))

mutual

/-- One value, so deep below the outermost one. -/
def parseNode : ℕ → ℕ → Parser Node
  | 0, _ => fun _ => .error .endless
  | fuel + 1, depth => do
    if MAX_DEPTH < depth then refuse ("nesting exceeds limit of " ++ toString MAX_DEPTH)
    else
      let start ← get
      let byte ← peek bytes
      let value ← (
        if byte = 105 then parseInt bytes
        else if byte = 108 then do
          let _ ← advance bytes
          parseList fuel depth []
        else if byte = 100 then do
          let _ ← advance bytes
          parseDict fuel depth []
        else if isDigit byte then parseBytes bytes
        else refuse ("unexpected byte " ++ hexByte byte ++ " at offset " ++ toString start) :
          Parser Value)
      let stop ← get
      pure (.mk value start stop)

/-- The items of a list behind those that were read. -/
def parseList : ℕ → ℕ → List Node → Parser Value
  | 0, _, _ => fun _ => .error .endless
  | fuel + 1, depth, items => do
    let byte ← peek bytes
    if byte = 101 then do
      let _ ← advance bytes
      pure (.list items)
    else do
      let item ← parseNode fuel (depth + 1)
      parseList fuel depth (items ++ [item])

/-- The entries of a dictionary behind those that were read. -/
def parseDict : ℕ → ℕ → List (List UInt8 × Node) → Parser Value
  | 0, _, _ => fun _ => .error .endless
  | fuel + 1, depth, entries => do
    let byte ← peek bytes
    if byte = 101 then do
      let _ ← advance bytes
      pure (.dict entries)
    else
      match ← parseBytes bytes with
      | .bytes key => do
        let node ← parseNode fuel (depth + 1)
        parseDict fuel depth (entries ++ [(key, node)])
      | _ => fun _ => .error .panicked

end

end Parser

/-- The first value of the input. -/
def parse (bytes : List UInt8) : Except Failure Node :=
  (Parser.parseNode bytes (2 * bytes.length + 2) 0 0).map (·.1)

/-! ## The inspector -/

/-- The errors of the reader are about the input. -/
def malformed {α : Type} (x : Except String α) : Except InspectError α := x.mapError .malformed

/-- Something that has to be there. -/
def required {α : Type} (field : String) : Option α → Except InspectError α
  | some a => .ok a
  | none => .error (.missingField field)

def asLength (node : Node) : Except InspectError ℕ :=
  match node.value with
  | .int i =>
    if 0 ≤ i then .ok i.toNat
    else .error (.malformed ("length must not be negative, got " ++ toString i))
  | _ => .error (.malformed "expected an integer")

def decodePathComponent (node : Node) : Except InspectError String := do
  let bytes ← malformed node.value.asBytes
  match fromUtf8 bytes with
  | some text => .ok text
  | none => .error (.malformed "path component is not valid UTF-8")

/-- The chunk of the hash of piece `k`. -/
def pieceChunk (bytes : List UInt8) (k : ℕ) : Digest :=
  Vector.ofFn fun i => bytes.getD (k * PIECE_HASH_BYTES + i) 0

def decodePieces (node : Node) : Except InspectError (List PieceHash) := do
  let bytes ← malformed node.value.asBytes
  if bytes.length % PIECE_HASH_BYTES ≠ 0 then
    .error (.malformed ("info.pieces is " ++ toString bytes.length ++ " bytes, not a multiple of " ++
      toString PIECE_HASH_BYTES))
  else
    .ok ((List.range (bytes.length / PIECE_HASH_BYTES)).map fun k => ⟨pieceChunk bytes k⟩)

def unsafePath {α : Type} (x : Except PathRejection α) : Except InspectError α :=
  x.mapError .unsafePath

def decodeFile (torrentName : SafeRelativePath) (node : Node) : Except InspectError TorrentFile := do
  let entries ← malformed node.value.asDict
  let lengthNode ← required "info.files[].length" (find entries "length")
  let length ← asLength lengthNode
  let pathNode ← required "info.files[].path" (find entries "path")
  let components ← malformed pathNode.value.asList
  if components.isEmpty then .error (.missingField "info.files[].path")
  else
    let components ← components.mapM decodePathComponent
    let path ← unsafePath (SafeRelativePath.fromComponents components)
    .ok ⟨path.under torrentName, length⟩

def decodeFiles (node : Node) (torrentName : SafeRelativePath) :
    Except InspectError (List TorrentFile) := do
  let entries ← malformed node.value.asList
  if MAX_FILES < entries.length then
    .error (.malformed ("torrent declares " ++ toString entries.length ++ " files, limit is " ++
      toString MAX_FILES))
  else entries.mapM (decodeFile torrentName)

/-- The message of a failure; the others are none of the code's own. -/
def Failure.message : Failure → String
  | refused message => message
  | panicked | endless => ""

/-- `BencodeInspector::inspect`. -/
def inspect (sha1 : List UInt8 → Digest) (bytes : List UInt8) :
    Except InspectError TorrentMetadata := do
  if MAX_TORRENT_BYTES < bytes.length then
    .error (.malformed ("torrent is " ++ toString bytes.length ++ " bytes, limit is " ++
      toString MAX_TORRENT_BYTES))
  else
    let root ← malformed ((parse bytes).mapError Failure.message)
    let entries ← malformed root.value.asDict
    let infoNode ← required "info" (find entries "info")
    let infoEntries ← malformed infoNode.value.asDict
    let infoBytes ← malformed
      ((Parser.slice bytes infoNode.start infoNode.stop).mapError Failure.message)
    let nameNode ← required "info.name" (find infoEntries "name")
    let name ← decodePathComponent nameNode
    let name ← unsafePath (SafeRelativePath.fromComponents [name])
    let pieceLengthNode ← required "info.piece length" (find infoEntries "piece length")
    let pieceLength ← asLength pieceLengthNode
    let files ← (
      match find infoEntries "length", find infoEntries "files" with
      | some lengthNode, none => do
        let length ← asLength lengthNode
        .ok [⟨name, length⟩]
      | none, some filesNode => decodeFiles filesNode name
      | some _, some _ => .error (.malformed "info contains both `length` and `files`")
      | none, none => .error (.missingField "info.length or info.files") :
        Except InspectError (List TorrentFile))
    let pieces ← (
      match find infoEntries "pieces" with
      | some node => decodePieces node
      | none => .ok [] : Except InspectError (List PieceHash))
    .ok { infoHash := ⟨sha1 infoBytes⟩, name, pieceLength, files, pieces }

end Bencode

end SeedMedic
