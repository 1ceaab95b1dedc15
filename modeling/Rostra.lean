import Rostra.Lib.Table
import Rostra.Lib.PairedQueue
import Rostra.Lib.Outcome
import Rostra.Lib.Index
import Rostra.Lib.Drain
import Rostra.Lib.Log
import Rostra.Lib.Newest
import Rostra.Lib.Board
import Rostra.Lib.Register
import Rostra.Lib.Machine
import Rostra.Lib.Backlog
import Rostra.Lib.Pages
import Rostra.Lib.Broadcast
import Rostra.Lib.Lru
import Rostra.Lib.Cursor
import Rostra.Lib.Merge
import Rostra.Lib.Frontier
import Rostra.Lib.Codec
import Rostra.Core.Event
import Rostra.Core.Retention
import Rostra.Core.Simulation
import Rostra.Core.Bincode
import Rostra.Dm.Device
import Rostra.Dm.History
import Rostra.Dm.Envelope
import Rostra.P2p.Connection
import Rostra.Db.Tables
import Rostra.Db.EventOps
import Rostra.Db.ContentOps
import Rostra.Db.Accounting
import Rostra.Db.Ingest
import Rostra.Db.Run
import Rostra.Db.Social
import Rostra.Db.Materialization
import Rostra.Db.Leases
import Rostra.Db.Destinations
import Rostra.Db.Watches
import Rostra.Db.Signals
import Rostra.Db.Authors
import Rostra.Db.Deferral
import Rostra.Db.Publication
import Rostra.Db.DryRun
import Rostra.Db.Writing
import Rostra.Db.Paginate
import Rostra.Db.PayloadDemand
import Rostra.Db.PayloadPressure
import Rostra.Db.Upkeep
import Rostra.Util.DedupChan
import Rostra.Client.Clock
import Rostra.Client.MissingEventFetcher
import Rostra.Client.Publisher
import Rostra.Client.NewHeadFetcher
import Rostra.Client.PollFolloweeHeadUpdates
import Rostra.Client.HeadUpdateBroadcaster
import Rostra.Client.MultiClient
import Rostra.Proofs.Basic
import Rostra.Proofs.Graph
import Rostra.Proofs.Insert
import Rostra.Proofs.Quiet
import Rostra.Proofs.Errors
import Rostra.Proofs.Rules
import Rostra.Proofs.Effects
import Rostra.Proofs.History
import Rostra.Proofs.Books
import Rostra.Proofs.Insertions
import Rostra.Proofs.Progress
import Rostra.Proofs.Queue
import Rostra.Proofs.Store
import Rostra.Proofs.Lifecycle
import Rostra.Proofs.Accounting
import Rostra.Proofs.Redelivery
import Rostra.Proofs.Social
import Rostra.Proofs.Reduction
import Rostra.Proofs.Follows
import Rostra.Proofs.Votes
import Rostra.Proofs.Latest
import Rostra.Proofs.Endpoints
import Rostra.Proofs.LatestValues
import Rostra.Proofs.Lineage
import Rostra.Proofs.Projections
import Rostra.Proofs.Versions
import Rostra.Proofs.Comments
import Rostra.Proofs.Pieces
import Rostra.Proofs.Decisions
import Rostra.Proofs.Collection
import Rostra.Proofs.Retention
import Rostra.Proofs.News
import Rostra.Proofs.Feed
import Rostra.Proofs.Leases
import Rostra.Proofs.Unread
import Rostra.Proofs.Envelope
import Rostra.Proofs.Wire
import Rostra.Proofs.View
import Rostra.Proofs.Trial
import Rostra.Proofs.Cover
import Rostra.Proofs.Destinations
import Rostra.Proofs.Signals
import Rostra.Proofs.Watches
import Rostra.Proofs.Deferral
import Rostra.Proofs.Publication
import Rostra.Proofs.RetentionKey
import Rostra.Proofs.Simulation
import Rostra.Proofs.DryRun
import Rostra.Proofs.Wanted
import Rostra.Proofs.Resolution
import Rostra.Proofs.Rejection
import Rostra.Proofs.DedupChan
import Rostra.Proofs.MissingEventFetcher
import Rostra.Proofs.Publisher
import Rostra.Proofs.NewHeadFetcher
import Rostra.Proofs.PollFolloweeHeadUpdates
import Rostra.Proofs.HeadUpdateBroadcaster
import Rostra.Proofs.MultiClient
import Rostra.Proofs.Origins
import Rostra.Client.DownloadEvents
import Rostra.Client.RequestHandler
import Rostra.Client.LongPolls
import Rostra.Client.Inbound
import Rostra.Client.PollFollowers
import Rostra.Proofs.DownloadOrder
import Rostra.Proofs.DownloadGraph
import Rostra.Proofs.PayloadReadRace
import Rostra.Proofs.LocalKeys
import Rostra.Proofs.Permits
import Rostra.Proofs.Commits
import Rostra.Proofs.Connection
import Rostra.Proofs.Convergence
import Rostra.Proofs.Feeding
import Rostra.Proofs.Exchange
import Rostra.Proofs.LongPolls
import Rostra.Proofs.Inbound
import Rostra.Proofs.PollFollowers
import Rostra.Proofs.Scans
import Rostra.Proofs.PayloadDemand
import Rostra.Proofs.PayloadPressure
import Rostra.Proofs.Upkeep
