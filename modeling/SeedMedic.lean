import SeedMedic.Lib.Word
import SeedMedic.Lib.Prog
import SeedMedic.Lib.Table
import SeedMedic.Lib.Json
import SeedMedic.Lib.Path
import SeedMedic.Torrent.Path
import SeedMedic.Torrent.Domain
import SeedMedic.Lib.Decimal
import SeedMedic.Torrent.Bencode
import SeedMedic.Torrent.BencodeSpec
import SeedMedic.Torrent.BencodeComplete
import SeedMedic.Tracker.Domain
import SeedMedic.Seeding.Domain
import SeedMedic.Staging.Domain
import SeedMedic.Library.Domain
import SeedMedic.Repair.Domain
import SeedMedic.Repair.Ports
import SeedMedic.Repair.Store
import SeedMedic.Repair.StoreSpec
import SeedMedic.Repair.RecordProgress
import SeedMedic.Library.Matching
import SeedMedic.Lib.Layout
import SeedMedic.Library.Verification
import SeedMedic.Library.VerificationSpec
import SeedMedic.Library.VerificationRounds
import SeedMedic.Library.VerificationExact
import SeedMedic.Library.VerificationPool
import SeedMedic.Repair.Policy
import SeedMedic.Repair.Effects
import SeedMedic.Repair.Steps
import SeedMedic.Repair.PlanOrder
import SeedMedic.Web.Review
import SeedMedic.Repair.Serve
import SeedMedic.Web.ChooseCandidate
import SeedMedic.Web.Discard
import SeedMedic.Repair.Worker
import SeedMedic.Lib.Hoare
import SeedMedic.Lib.Pool
import SeedMedic.Repair.Calls
import SeedMedic.Repair.Leases
import SeedMedic.Repair.StepLease
import SeedMedic.Repair.ResumeSafety
import SeedMedic.Repair.Drive
import SeedMedic.Repair.Conduct
import SeedMedic.Repair.Programs
import SeedMedic.Repair.Approval
import SeedMedic.Repair.Client
import SeedMedic.Repair.Recheck
import SeedMedic.Repair.Ledger
import SeedMedic.Repair.Snapshots
import SeedMedic.Repair.ReconcileSpec
import SeedMedic.Web.Reclaim
import SeedMedic.Web.Offer
import SeedMedic.Lib.Streak
import SeedMedic.Repair.Bench
import SeedMedic.Repair.Logbook
import SeedMedic.Repair.RetryBudget
import SeedMedic.Repair.UnknownAnswers
import SeedMedic.Staging.Local
import SeedMedic.Repair.Plans
import SeedMedic.Repair.Workshop
import SeedMedic.Repair.StagingRecord
import SeedMedic.Web.Neighbours
import SeedMedic.Repair.SavePath
import SeedMedic.Config.Domain
import SeedMedic.Config.Problems
import SeedMedic.Lib.Fallible
import SeedMedic.Lib.Toml
import SeedMedic.Config.Decode
import SeedMedic.Config.File
import SeedMedic.Runtime.Domain
import SeedMedic.Runtime.Build
import SeedMedic.Runtime.Handle
import SeedMedic.Runtime.Service
import SeedMedic.Runtime.Failure
import SeedMedic.Web.Settings.SaveAndReload
import SeedMedic.Web.Auth
import SeedMedic.Web.Events
import SeedMedic.Runtime.Sharing
import SeedMedic.Runtime.Calls
import SeedMedic.Runtime.Phases
import SeedMedic.Runtime.Refusals
import SeedMedic.Web.Sessions
import SeedMedic.Web.Feed
import SeedMedic.Web.Reconnects
import SeedMedic.Web.Bulk
import SeedMedic.Web.Announce
import SeedMedic.Web.AnnounceSpec
import SeedMedic.Web.Actions
import SeedMedic.Lib.FileTree
import SeedMedic.Staging.Syscalls
import SeedMedic.Staging.Outcomes
import SeedMedic.Staging.Confined
import SeedMedic.Lib.Text
import SeedMedic.Torrent.InfoHash
import SeedMedic.Library.VerificationRanges
import SeedMedic.Lib.Sorting
import SeedMedic.Library.MatchingUnion
import SeedMedic.Repair.MatchedPlan
import SeedMedic.Lib.Keyset
import SeedMedic.Repair.JobFilter
import SeedMedic.Web.JobList
import SeedMedic.Web.Traversal
import SeedMedic.Web.StagedBytes
import SeedMedic.Lib.Walk
import SeedMedic.Runtime.StagingRoot
import SeedMedic.Runtime.Durations
import SeedMedic.Runtime.Pacing
import SeedMedic.Repair.Refusals
import SeedMedic.Runtime.Delays
import SeedMedic.Repair.RecheckTimeout
import SeedMedic.Torrent.FileLists
import SeedMedic.Repair.TorrentLayout
import SeedMedic.Lib.Descent
import SeedMedic.Library.Filesystem
import SeedMedic.Library.Arr
import SeedMedic.Repair.LibraryLooks
import SeedMedic.Repair.StoredPlan
import SeedMedic.Staging.Trials
import SeedMedic.Staging.Progress
import SeedMedic.Staging.Space
import SeedMedic.Staging.Retries
import SeedMedic.Lib.Spacing
import SeedMedic.Tracker.Throttle
import SeedMedic.Repair.Discover
import SeedMedic.Repair.JobSearch
import SeedMedic.Tracker.Unit3d
import SeedMedic.Tracker.Listing
import SeedMedic.Lib.TomlPath
import SeedMedic.Config.Edit
import SeedMedic.Web.Settings.Fields
import SeedMedic.Web.Settings.Save
import SeedMedic.Web.Settings.Drafts
import SeedMedic.Web.Settings.SecretFiles
import SeedMedic.Web.Settings.Laws
import SeedMedic.Web.Settings.Rows
import SeedMedic.Config.Redact
import SeedMedic.Web.Settings.Submit
import SeedMedic.Web.Settings.ManagedSecrets
import SeedMedic.Web.Settings.Requests
import SeedMedic.Web.Settings.Versions
import SeedMedic.Config.RowNames
import SeedMedic.Lib.Cuts
import SeedMedic.Library.Pieces
import SeedMedic.Runtime.FailedSave
import SeedMedic.Repair.Drives
import SeedMedic.Lib.Lockstep
import SeedMedic.Repair.RowsAlike
import SeedMedic.Repair.Rerun
import SeedMedic.Web.Restart
import SeedMedic.Seeding.QBittorrent
import SeedMedic.Seeding.Session
import SeedMedic.Seeding.WebApi
import SeedMedic.Lib.Form
import SeedMedic.Web.Settings.Render
import SeedMedic.Web.Settings.PageKeys
import SeedMedic.Web.Settings.Unchanged
import SeedMedic.Web.Settings.ComesBack
import SeedMedic.Web.Settings.Untouched
import SeedMedic.Web.Settings.Probes
import SeedMedic.Repair.Outages
import SeedMedic.Repair.Notices
import SeedMedic.Web.Reasons
import SeedMedic.Web.Headers
