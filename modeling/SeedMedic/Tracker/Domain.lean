/-
  The tracker port: warnings, torrents and the one answer that completes a repair
  (`tracker/domain.rs`, `tracker/ports.rs`).
-/
import SeedMedic.Torrent.Domain

namespace SeedMedic

/-- The identifier a tracker is configured under. -/
structure TrackerId where
  str : String
  deriving DecidableEq

/-- The tracker's own identifier of a torrent. -/
structure TrackerTorrentId where
  str : String
  deriving DecidableEq

/-- A hit-and-run the tracker holds against the user. -/
structure HitAndRun where
  tracker : TrackerId
  torrentId : TrackerTorrentId
  torrentName : String
  infoHash : Option InfoHash
  sizeBytes : ℕ
  deadline : Option Time

inductive HitAndRunStatus where
  | active
  | cleared
  | unknown
  deriving DecidableEq

inductive TrackerError where
  | notImplemented (details : NotImplemented)
  | transport (detail : String)
  | protocol (detail : String)
  | rateLimited (retryAfterSeconds : ℕ)
  | unauthorized
  | notFound (torrent : TrackerTorrentId)

namespace TrackerError

def toText : TrackerError → String
  | notImplemented d => d.toText
  | transport s => "tracker request failed: " ++ s
  | protocol s => "tracker returned data we cannot interpret: " ++ s
  | rateLimited n => "tracker rate limited us; retry in " ++ toString n ++ "s"
  | unauthorized => "tracker rejected our credentials"
  | notFound t => "torrent " ++ t.str ++ " is not on the tracker"

def isTransient : TrackerError → Bool
  | transport _ | rateLimited _ | protocol _ => true
  | _ => false

end TrackerError

end SeedMedic
