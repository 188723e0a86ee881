/-
  What a repair needs from a torrent (`torrent/domain.rs`, `torrent/ports.rs`,
  `not_implemented.rs`).
-/
import SeedMedic.Lib.Word
import SeedMedic.Torrent.Path

namespace SeedMedic

open Lib

/-- A point in time, in nanoseconds. -/
abbrev Time := ℕ

/-- A span of time, in nanoseconds. -/
abbrev Duration := ℕ

/-- The largest signed 64-bit number. -/
def i64Max : ℕ := 2 ^ 63 - 1

/-- A span the clock's arithmetic can hold. -/
def chronoFromStd (d : Duration) : Option Duration := if d ≤ i64Max * 1000000 then some d else none

/-- The duration of a number of seconds. -/
def Duration.fromSecs (n : ℕ) : Duration := n * 1000000000

/-- The whole seconds of a duration. -/
def Duration.asSecs (d : Duration) : ℕ := d / 1000000000

/-- The error of an adapter that is not built yet. -/
structure NotImplemented where
  adapter : String
  todo : String
  deriving DecidableEq

def NotImplemented.toText (n : NotImplemented) : String :=
  n.adapter ++ " is not implemented yet (see " ++ n.todo ++ ")"

/-- The bytes of a SHA-1 hash. -/
abbrev Digest := Vector UInt8 20

/-- The info-hash of a torrent, kept as bytes. -/
structure InfoHash where
  bytes : Digest
  deriving DecidableEq

/-- One lowercase hexadecimal digit. -/
def hexDigit (n : ℕ) : Char := (n % 16).digitChar

/-- The hash in lowercase hexadecimal. -/
def InfoHash.toHex (h : InfoHash) : String :=
  String.ofList (h.bytes.toList.flatMap fun b => [hexDigit (b.toNat / 16), hexDigit b.toNat])

/-- One entry of a torrent's file list. -/
structure TorrentFile where
  path : SafeRelativePath
  length : ℕ
  deriving DecidableEq

/-- The hash of one piece, as the torrent records it. -/
structure PieceHash where
  bytes : Digest
  deriving DecidableEq

structure TorrentMetadata where
  infoHash : InfoHash
  name : SafeRelativePath
  pieceLength : ℕ
  files : List TorrentFile
  /-- One hash per piece, in order; empty when there is no piece data. -/
  pieces : List PieceHash

def TorrentMetadata.totalLength (m : TorrentMetadata) : ℕ := wsum (m.files.map (·.length))

def TorrentMetadata.fileCount (m : TorrentMetadata) : ℕ := m.files.length

inductive InspectError where
  | notImplemented (details : NotImplemented)
  | malformed (detail : String)
  | unsafePath (rejection : PathRejection)
  | missingField (field : String)
  deriving DecidableEq

def InspectError.toText : InspectError → String
  | notImplemented d => d.toText
  | malformed s => "torrent is not valid bencode: " ++ s
  | unsafePath r => "torrent declares an unsafe path: " ++ r.toText
  | missingField f => "torrent is missing required field `" ++ f ++ "`"

end SeedMedic
