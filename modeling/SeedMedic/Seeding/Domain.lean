/-
  The download client port (`seeding/domain.rs`, `seeding/ports.rs`).
-/
import Mathlib.Algebra.Order.Ring.Rat
import SeedMedic.Lib.Json
import SeedMedic.Torrent.Domain

namespace SeedMedic

open Lib

inductive ClientTorrentState where
  | paused
  | checking
  | downloading
  | seeding
  | errored
  deriving DecidableEq

def ClientTorrentState.toJson : ClientTorrentState → Json
  | paused => .str "paused"
  | checking => .str "checking"
  | downloading => .str "downloading"
  | seeding => .str "seeding"
  | errored => .str "errored"

/-- How much of a torrent the client can account for on disk. -/
inductive DataCompleteness where
  | complete
  | partialData (ratio : ℚ)
  deriving DecidableEq

namespace DataCompleteness

/-- Anything short of one is partial; nothing is rounded. -/
def fromRatio (ratio : ℚ) : DataCompleteness :=
  if 1 ≤ ratio then complete else partialData (max ratio 0)

def isComplete : DataCompleteness → Bool
  | complete => true
  | partialData _ => false

def ratio : DataCompleteness → ℚ
  | complete => 1
  | partialData r => r

def toJson : DataCompleteness → Json
  | complete => .obj [("completeness", .str "complete")]
  | partialData r => .obj [("completeness", .str "partial"), ("ratio", .num r)]

end DataCompleteness

/-- How much of one file the client can account for. -/
structure FileProgress where
  torrentPath : SafeRelativePath
  completeness : DataCompleteness

def FileProgress.toJson (f : FileProgress) : Json :=
  .obj [("torrent_path", .str f.torrentPath.asStr), ("completeness", f.completeness.toJson)]

structure TorrentStatus where
  state : ClientTorrentState
  completeness : DataCompleteness
  savePath : PathBuf
  files : Option (List FileProgress)
  /-- A check is queued but has not started. -/
  queued : Bool
  message : Option String
  uploadedBytes : ℕ
  seedingSeconds : Option ℕ

/-- A torrent to hand to the client, always paused. -/
structure AddTorrent where
  infoHash : InfoHash
  torrentFile : List UInt8
  savePath : PathBuf
  category : Option String
  deriving DecidableEq

inductive ClientError where
  | notImplemented (details : NotImplemented)
  | transport (detail : String)
  | protocol (detail : String)
  | unauthorized
  | rejected (detail : String)

namespace ClientError

def toText : ClientError → String
  | notImplemented d => d.toText
  | transport s => "download client request failed: " ++ s
  | protocol s => "download client returned data we cannot interpret: " ++ s
  | unauthorized => "download client rejected our credentials"
  | rejected s => "download client rejected the torrent: " ++ s

def isTransient : ClientError → Bool
  | transport _ | protocol _ => true
  | _ => false

end ClientError

/-- The torrent in an answer to a status call. -/
def answeredTorrent : Except ClientError (Option TorrentStatus) → Option TorrentStatus
  | .ok status => status
  | .error _ => none

end SeedMedic
