import Lineage.Bytes
import Lineage.Checksum.Blake3
import Lineage.Checksum.Crc32c
import Lineage.Disk.Basic
import Lineage.Disk.Path
import Lineage.Graph.Basic
import Lineage.Graph.Expiry
import Lineage.Graph.Walk
import Lineage.History.Compaction
import Lineage.History.Error
import Lineage.History.RowKey
import Lineage.Host
import Lineage.Options
import Lineage.Outage
import Lineage.Proofs.Actions
import Lineage.Proofs.Disk.Places
import Lineage.Proofs.Disk.Walks
import Lineage.Proofs.Graph.Adding
import Lineage.Proofs.Graph.Classifying
import Lineage.Proofs.History.Compaction
import Lineage.Proofs.History.RowKey
import Lineage.Proofs.Recording
import Lineage.Proofs.Recovery
import Lineage.Proofs.Runs.Basic
import Lineage.Proofs.Runs.Exactness
import Lineage.Proofs.Runs.Graph
import Lineage.Proofs.Runs.Since
import Lineage.Proofs.Runs.Views
import Lineage.Proofs.Text.Utf8
import Lineage.Proofs.Wire
import Lineage.RecordFile.Basic
import Lineage.RecordFile.Frame
import Lineage.Scheduler.Basic
import Lineage.Scheduler.Rehearsal
import Lineage.SortedTable.FileName
import Lineage.SortedTable.InternalKey
import Lineage.SortedTable.Layout
import Lineage.SortedTable.Reader
import Lineage.SortedTable.Stripping
import Lineage.SortedTable.Writer
import Lineage.Store
import Lineage.Text.Decimal
import Lineage.Text.Hidden
import Lineage.Text.Quoted
import Lineage.Text.Utf8
import Lineage.TextLog.Line
import Lineage.TextLog.Replay
import Lineage.Tracker.Basic
import Lineage.Tracker.Comparison
import Lineage.Tracker.Recording
import Lineage.Tracker.Recovery
import Lineage.Tracker.Registry
import Lineage.Tracker.Upkeep
import Lineage.Wire
import Lineage.Proofs.Disk.Changes
import Lineage.Proofs.Graph.Expiring
import Lineage.Proofs.Backups
import Lineage.Proofs.Tables
import Lineage.Proofs.Stripping.Steps
import Lineage.Proofs.Upkeep
import Lineage.Proofs.Service.Basic
import Lineage.Proofs.Service.Backups
import Lineage.Proofs.Service.Locating
import Lineage.Proofs.Disk.Files
import Lineage.Proofs.RecordFile.Frames
import Lineage.Proofs.RecordFile.Opening
import Lineage.Proofs.RecordFile.Requests
import Lineage.Proofs.RecordFile.CutAppends
import Lineage.Proofs.Migration.Settling
import Lineage.Proofs.Migration.Runs
import Lineage.Proofs.Migration.Logs
import Lineage.Proofs.Migration.Restart
import Lineage.Proofs.Stripping
import Lineage.Proofs.Confinement
import Lineage.Proofs.Checksum.Crc32c
import Lineage.Proofs.RecordFile.Damage
import Lineage.Proofs.SortedTable.Keys
import Lineage.Proofs.SortedTable.Blocks
import Lineage.Proofs.SortedTable.Tables
import Lineage.Proofs.SortedTable.Writing
import Lineage.Proofs.SortedTable.ReadingBack
import Lineage.Proofs.SortedTable.Stripped
import Lineage.Proofs.Graph.Alike
import Lineage.Proofs.Graph.Trimming
import Lineage.Proofs.Retention
import Lineage.Proofs.RecordFile.TornTails
import Lineage.Proofs.Graph.Orders
import Lineage.Proofs.Graph.Agreement
import Lineage.Proofs.Graph.Grazing
import Lineage.Proofs.Graph.WellFormed
import Lineage.Proofs.Graph.Histories
import Lineage.Proofs.Graph.Levels
import Lineage.Proofs.Graph.Replaying
import Lineage.Proofs.Graph.Reaching
import Lineage.Proofs.Graph.ExpiryOrders
import Lineage.SortedTable.Machine
import Lineage.Proofs.SortedTable.Lengths
import Lineage.Proofs.SortedTable.Restripping
import Lineage.Proofs.SortedTable.Bounds
import Lineage.Proofs.Disk.Scratch
import Lineage.Proofs.Stripping.Copies
import Lineage.Proofs.Stripping.Inputs
import Lineage.Proofs.Stripping.Queues
import Lineage.Proofs.Stripping.Rounds
import Lineage.Proofs.Stripping.Retries
import Lineage.Proofs.Disk.Removals
import Lineage.Proofs.Rows
import Lineage.Proofs.Quiet
import Lineage.Proofs.Loading
import Lineage.Proofs.Migration.Probing
import Lineage.Proofs.Atomicity
import Lineage.Proofs.Expiry
import Lineage.Proofs.Expiry.Retries
import Lineage.Proofs.Expiry.Ages
import Lineage.Proofs.History.KeyOrder
import Lineage.Proofs.TextLog.Lines
import Lineage.Proofs.TextLog.Writing
import Lineage.Proofs.Recording.Interleaving
import Lineage.Proofs.Prefixes
import Lineage.Proofs.Wire.Faults
import Lineage.Proofs.Text.Decimal
import Lineage.Proofs.TextLog.Grammar
import Lineage.Proofs.Graph.Generations
import Lineage.Proofs.Graph.Totals
import Lineage.Proofs.Registry
import Lineage.Proofs.Scheduler
