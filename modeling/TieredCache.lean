import TieredCache.Math.Alignment
import TieredCache.Math.ByteOrder
import TieredCache.Math.Memory
import TieredCache.Math.OpenAddressing
import TieredCache.Math.Runs
import TieredCache.Math.Tally
import TieredCache.Math.Tiling
import TieredCache.Math.Words
import TieredCache.Status
import TieredCache.Table.Config
import TieredCache.Table.FillPlan
import TieredCache.Table.RowIndex
import TieredCache.Table.State
import TieredCache.Table.Lifecycle
import TieredCache.Table.Sections
import TieredCache.Table.Machine
import TieredCache.Table.Frames
import TieredCache.Table.IndexInvariant
import TieredCache.Table.Edit
import TieredCache.Table.Step
import TieredCache.Table.Finishers
import TieredCache.Table.Coalescing
import TieredCache.Table.Books
import TieredCache.Table.Claims
import TieredCache.Table.Quiescence
import TieredCache.Table.FillBounds
import TieredCache.Table.Exclusivity
import TieredCache.Table.Leases
import TieredCache.Table.Admission
import TieredCache.Table.Calls
import TieredCache.Table.ResolveSteps
import TieredCache.Table.CallSteps
import TieredCache.Table.LeaseStability
import TieredCache.Table.AllOrNothing
import TieredCache.Table.Bindings
import TieredCache.Table.Isolation
import TieredCache.Table.RowReads
import TieredCache.Table.Submitted
import TieredCache.Table.Codec
import TieredCache.Table.FilledRows
import TieredCache.Table.FillsExact
import TieredCache.Table.FillBooks
import TieredCache.Table.Spans
import TieredCache.Table.Records
import TieredCache.Table.Wakeups
import TieredCache.Math.Digits
import TieredCache.Math.Files
import TieredCache.Math.Slices
import TieredCache.Math.Text
import TieredCache.Remote.Status
import TieredCache.Remote.Checksum
import TieredCache.Remote.ChunkFile
import TieredCache.Remote.ChunkStore
import TieredCache.Remote.Publication
import TieredCache.Remote.Generations
import TieredCache.Remote.Provenance
import TieredCache.Remote.RoundTrip
import TieredCache.Remote.Transport
import TieredCache.Remote.Mirror
import TieredCache.Remote.MirrorReads
import TieredCache.Remote.ChunkRequests
import TieredCache.Remote.Geometry
import TieredCache.Remote.Flights
import TieredCache.Remote.SingleFlight
import TieredCache.Remote.Http
import TieredCache.Remote.HttpText
import TieredCache.Remote.Packets
import TieredCache.Remote.RangeGrammar
import TieredCache.Remote.Validation
import TieredCache.Math.Clock
import TieredCache.Table.Motions
import TieredCache.Table.Statistics
import TieredCache.Table.Counters
import TieredCache.Table.Victims
import TieredCache.Table.Drained
import TieredCache.Table.Sizing
import TieredCache.Table.Retirement
import TieredCache.Table.Invalidation
import TieredCache.Table.Outcomes
import TieredCache.Table.Histories
import TieredCache.Table.OwnRows
import TieredCache.Table.Batches
import TieredCache.Remote.SharedDirectory
import TieredCache.Math.Folds
import TieredCache.Remote.Corruption
import TieredCache.Table.FlatFile
import TieredCache.Math.Retry
import TieredCache.Remote.Retries
import TieredCache.Remote.ReadFills
import TieredCache.Math.Ring
import TieredCache.Remote.MirrorBackend
import TieredCache.Remote.Reports
import TieredCache.Remote.BackendMoves
import TieredCache.Remote.Deliveries
import TieredCache.Remote.BackendCounters
import TieredCache.Remote.DeliversOnce
import TieredCache.Table.Ages
import TieredCache.Table.TicketBound
import TieredCache.Table.WaitCredits
import TieredCache.Math.Numbering
import TieredCache.Table.SizeClasses
import TieredCache.Table.Partition
import TieredCache.Math.Rounding
import TieredCache.Table.Shares
import TieredCache.Table.Ownership
import TieredCache.Table.Transfers
import TieredCache.Table.Contents
import TieredCache.Math.Families
import TieredCache.Table.ClassedMachine
import TieredCache.Table.ClientFrames
import TieredCache.Table.ClassedCalls
import TieredCache.Table.ClassedLeases
import TieredCache.Table.ClassedRows
import TieredCache.Table.ClassedFailures
import TieredCache.Table.SoleTickets
import TieredCache.Table.ClassedPrefetch
import TieredCache.Math.Ranks
import TieredCache.Table.Progress
import TieredCache.Table.HeldTickets
import TieredCache.Table.Rest
import TieredCache.Table.Teardown
