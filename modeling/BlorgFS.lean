import BlorgFS.Lib.Chain
import BlorgFS.Lib.Transition
import BlorgFS.Lib.Tally
import BlorgFS.DiskCache.Index
import BlorgFS.DiskCache.IndexInvariant
import BlorgFS.DiskCache.IndexOps
import BlorgFS.DiskCache.IndexLedger
import BlorgFS.DiskCache.IndexRuns
import BlorgFS.DiskCache.Parts
import BlorgFS.CacheFile.Machine
import BlorgFS.PathCache.Path
import BlorgFS.PathCache.Bucket
import BlorgFS.PathCache.Machine
import BlorgFS.PathCache.Evolve
import BlorgFS.PathCache.Invariant
import BlorgFS.PathCache.Steps
import BlorgFS.PathCache.Acts
import BlorgFS.PathCache.Lookups
import BlorgFS.PathCache.TicketCurrent
import BlorgFS.ChangeFeed.Follower
import BlorgFS.ChangeFeed.Thread
import BlorgFS.ChangeFeed.Coherence
import BlorgFS.Read.Fair
import BlorgFS.Read.Machine
import BlorgFS.Read.Flow
import BlorgFS.Read.Account
import BlorgFS.Read.Release
import BlorgFS.Read.Sections
import BlorgFS.Read.Steps
import BlorgFS.Read.DiskSteps
import BlorgFS.Read.PartSteps
import BlorgFS.Read.Runs
import BlorgFS.Read.Accounting
import BlorgFS.Read.WorkItems
import BlorgFS.Read.Lifecycle
import BlorgFS.Read.Held
import BlorgFS.CacheFile.Pins
import BlorgFS.CacheFile.Sound
import BlorgFS.CacheFile.FillSteps
import BlorgFS.CacheFile.ReadSteps
import BlorgFS.CacheFile.PartSteps
import BlorgFS.CacheFile.Integrity
import BlorgFS.Teardown.Invariant
import BlorgFS.Teardown.Runs
import BlorgFS.NodeTable.Machine
import BlorgFS.NodeTable.Invariant
import BlorgFS.NodeTable.Steps
import BlorgFS.NodeTable.TreeSteps
import BlorgFS.NodeTable.Runs
import BlorgFS.Http.Headers
import BlorgFS.Lib.Framing
import BlorgFS.Http.Receive
import BlorgFS.Http.Bounds
import BlorgFS.Http.Safety
import BlorgFS.Http.Delivery
import BlorgFS.Http.Exchange
import BlorgFS.Http.Records
import BlorgFS.Http.Equivalence
import BlorgFS.Lib.History
import BlorgFS.Socket.Watchdog
import BlorgFS.Socket.Prewarm
import BlorgFS.Fsp.Machine
import BlorgFS.Fsp.Wakeups
import BlorgFS.Lib.WorkerPool
import BlorgFS.Fsp.Ownership
import BlorgFS.Fsp.Completion
import BlorgFS.Lib.ShareAccess
import BlorgFS.Create.Handles
import BlorgFS.Tree.Path
import BlorgFS.Tree.Machine
import BlorgFS.Tree.Invariant
import BlorgFS.Tree.Reap
import BlorgFS.Tree.Walk
import BlorgFS.Tree.Insert
import BlorgFS.Tree.Runs
import BlorgFS.Create.Cold
import BlorgFS.Create.Resident
import BlorgFS.Create.Volume
import BlorgFS.PathCache.Completions
import BlorgFS.PathCache.Seeds
import BlorgFS.PathCache.Agreement
import BlorgFS.DiskCache.Clock
import BlorgFS.DiskCache.Ghosts
import BlorgFS.Lib.Cheapest
import BlorgFS.DiskCache.Plan
import BlorgFS.DiskCache.Serve
import BlorgFS.DiskCache.Fill
import BlorgFS.Lib.FirstLeast
import BlorgFS.Read.Order
import BlorgFS.Statistics.Gauge
import BlorgFS.PathCache.Budget
import BlorgFS.Statistics.SlowFetches
import BlorgFS.PathCache.BudgetSteps
import BlorgFS.PathCache.BudgetWalks
import BlorgFS.PathCache.BudgetRuns
import BlorgFS.Lib.StartTimeFair
import BlorgFS.Read.Guards
import BlorgFS.Read.Tags
import BlorgFS.Read.FairBytes
import BlorgFS.Read.FrontOfQueue
import BlorgFS.Read.Granule
import BlorgFS.Read.GranuleRuns
import BlorgFS.Directory.Block
import BlorgFS.Directory.Index
import BlorgFS.Directory.Entry
import BlorgFS.Directory.Enumerate
import BlorgFS.Directory.Queries
import BlorgFS.Directory.Decode
import BlorgFS.Lib.Separated
import BlorgFS.PathCache.Calls
import BlorgFS.PathCache.Scope
import BlorgFS.PathCache.Listings
import BlorgFS.PathCache.ListingRuns
import BlorgFS.PathCache.SeedRuns
import BlorgFS.Directory.Seed
import BlorgFS.Directory.Descendants
import BlorgFS.Lib.Checked
import BlorgFS.Http.Scan
import BlorgFS.Http.FileVersion
import BlorgFS.Http.Request
import BlorgFS.Read.Trim
import BlorgFS.Read.Refetch
import BlorgFS.ChangeFeed.Batch
import BlorgFS.Lib.BigEndian
import BlorgFS.Tls.Der
import BlorgFS.Tls.Certificate
import BlorgFS.Tls.ServerHello
import BlorgFS.Tls.Signature
import BlorgFS.Tls.Handshake
import BlorgFS.Tls.HandshakeMachine
import BlorgFS.Tls.HandshakeSteps
import BlorgFS.Tls.KeyChange
import BlorgFS.Tls.Authentication
import BlorgFS.Lib.Filling
import BlorgFS.Lib.Presentation
import BlorgFS.Tls.Offer
import BlorgFS.Tls.ClientHello
import BlorgFS.Tls.HandshakeMessages
import BlorgFS.Tls.FragmentationRuns
import BlorgFS.Tls.HandshakeSafety
import BlorgFS.Http.Call
import BlorgFS.Http.ReceiveSteps
import BlorgFS.Http.CallSteps
import BlorgFS.Http.Client
import BlorgFS.Http.ClientRuns
import BlorgFS.Http.CallLevels
import BlorgFS.Http.ClientSafety
import BlorgFS.Http.ClientSealing
import BlorgFS.Http.CallEnds
import BlorgFS.Http.ClientEnds
