import CacheNode.Bytes
import CacheNode.Quantity
import CacheNode.Table
import CacheNode.Text.Utf8
import CacheNode.Error
import CacheNode.PartitionName
import CacheNode.HostMemory
import CacheNode.Config
import CacheNode.ScratchPool
import CacheNode.Glob
import CacheNode.Watch.Event
import CacheNode.Watch.Hub
import CacheNode.Watch.List
import CacheNode.Account
import CacheNode.Draws
import CacheNode.Entry
import CacheNode.Calendar.Date
import CacheNode.Text.Blank
import CacheNode.Text.Span
import CacheNode.Calendar.Notation
import CacheNode.Decimal
import CacheNode.Metadata
import CacheNode.Json.Value
import CacheNode.Json.Reader
import CacheNode.Json.Writer
import CacheNode.Metadata.Record
import CacheNode.Eviction.Sample
import CacheNode.Eviction.Policy
import CacheNode.Text.Printable
import CacheNode.Text.Quoted
import CacheNode.Fuse
import CacheNode.Report
import CacheNode.Partition.Basic
import CacheNode.Partition.Remove
import CacheNode.Partition.Read
import CacheNode.Partition.Write
import CacheNode.Partition.Compact
import CacheNode.Partition.Configure
import CacheNode.Outcome
import CacheNode.Partition.Operation
import CacheNode.Storage.Directory
import CacheNode.Storage.FileStore
import CacheNode.Storage.Recorder
import CacheNode.Storage.World
import CacheNode.Node.Basic
import CacheNode.Node.Admission
import CacheNode.Node.Configure
import CacheNode.Node.Scanner
import CacheNode.Node.Maintenance
import CacheNode.Node.Operation
import CacheNode.Session
import CacheNode.Proofs.Holdings
import CacheNode.Proofs.Steps
import CacheNode.Proofs.Changes
import CacheNode.Proofs.Operations
import CacheNode.Proofs.Runs
import CacheNode.Proofs.Counts
import CacheNode.Proofs.Deleting
import CacheNode.Proofs.Bookkeeping
import CacheNode.Proofs.Accounting
import CacheNode.Proofs.Capacity
import CacheNode.Proofs.Budget
import CacheNode.Proofs.Overwriting
import CacheNode.Proofs.Attempts
import CacheNode.Proofs.Subscriptions
import CacheNode.Proofs.Batches
import CacheNode.Proofs.Isolation
import CacheNode.Proofs.Refusal
import CacheNode.Proofs.MakingRoom
import CacheNode.Proofs.Replay
import CacheNode.Proofs.Announcing
import CacheNode.Proofs.Delivering
import CacheNode.Proofs.Alike
import CacheNode.Proofs.Configuring
import CacheNode.Proofs.Noninterference
import CacheNode.Proofs.Steady
import CacheNode.Proofs.Configurations
import CacheNode.Proofs.Living
import CacheNode.Proofs.Records
import CacheNode.Proofs.Reservations
import CacheNode.Proofs.Keeping
import CacheNode.Proofs.Restarting
import CacheNode.Proofs.Courses
import CacheNode.Proofs.Usage
import CacheNode.Proofs.Scripts
import CacheNode.Proofs.BatchOutcomes
import CacheNode.Proofs.Inserting
import CacheNode.Proofs.Candidates
import CacheNode.Proofs.Sampling
import CacheNode.Proofs.Evicting
import CacheNode.Proofs.Compacting
import CacheNode.Proofs.Scanning
import CacheNode.Proofs.Coldest
import CacheNode.Proofs.Reconfiguring
import CacheNode.Proofs.Paging
import CacheNode.Proofs.Deadlines
import CacheNode.Proofs.OneByOne
import CacheNode.Proofs.Matching
import CacheNode.Proofs.Sums
import CacheNode.Proofs.Instants
import CacheNode.Proofs.Grammar
import CacheNode.Proofs.Layouts
import CacheNode.Proofs.Settings
import CacheNode.Proofs.Filing
