import IshaVectorDb.Beam.Best
import IshaVectorDb.Beam.Descent
import IshaVectorDb.Beam.FullWidth
import IshaVectorDb.Beam.Marked
import IshaVectorDb.Beam.Scored
import IshaVectorDb.Beam.Search
import IshaVectorDb.Beam.Seen
import IshaVectorDb.Beam.Select
import IshaVectorDb.Blocks.Sparse
import IshaVectorDb.Correctness.BatchCounts
import IshaVectorDb.Correctness.Batches
import IshaVectorDb.Correctness.BitFlips
import IshaVectorDb.Correctness.Bitmaps
import IshaVectorDb.Correctness.Budgets
import IshaVectorDb.Correctness.Calls
import IshaVectorDb.Correctness.Compaction
import IshaVectorDb.Correctness.Courses
import IshaVectorDb.Correctness.Crashes
import IshaVectorDb.Correctness.Creating
import IshaVectorDb.Correctness.CurrentRows
import IshaVectorDb.Correctness.CutCreations
import IshaVectorDb.Correctness.CutDrops
import IshaVectorDb.Correctness.Damage
import IshaVectorDb.Correctness.Databases
import IshaVectorDb.Correctness.Deaths
import IshaVectorDb.Correctness.Descents
import IshaVectorDb.Correctness.Disk
import IshaVectorDb.Correctness.Dropping
import IshaVectorDb.Correctness.Edits
import IshaVectorDb.Correctness.ExactSearch
import IshaVectorDb.Correctness.FailedUpkeep
import IshaVectorDb.Correctness.Files
import IshaVectorDb.Correctness.FilterCompilers
import IshaVectorDb.Correctness.FirstOpens
import IshaVectorDb.Correctness.FlatFiles
import IshaVectorDb.Correctness.Flush
import IshaVectorDb.Correctness.Folding
import IshaVectorDb.Correctness.Found
import IshaVectorDb.Correctness.FullWidth
import IshaVectorDb.Correctness.GraphSearch
import IshaVectorDb.Correctness.GraphSnapshots
import IshaVectorDb.Correctness.Graphs
import IshaVectorDb.Correctness.Histories
import IshaVectorDb.Correctness.IndexCalls
import IshaVectorDb.Correctness.IndexSnapshots
import IshaVectorDb.Correctness.LazyFilter
import IshaVectorDb.Correctness.Listing
import IshaVectorDb.Correctness.LiveRows
import IshaVectorDb.Correctness.Log
import IshaVectorDb.Correctness.LogDirs
import IshaVectorDb.Correctness.LogFile
import IshaVectorDb.Correctness.LogRuns
import IshaVectorDb.Correctness.LogScan
import IshaVectorDb.Correctness.LogWrites
import IshaVectorDb.Correctness.Manifests
import IshaVectorDb.Correctness.Memtable
import IshaVectorDb.Correctness.MemtableRuns
import IshaVectorDb.Correctness.MetadataLimits
import IshaVectorDb.Correctness.Names
import IshaVectorDb.Correctness.NearSearch
import IshaVectorDb.Correctness.OpenedSegments
import IshaVectorDb.Correctness.Opening
import IshaVectorDb.Correctness.Pages
import IshaVectorDb.Correctness.PathArrays
import IshaVectorDb.Correctness.Preparing
import IshaVectorDb.Correctness.Reachability
import IshaVectorDb.Correctness.ReachedStates
import IshaVectorDb.Correctness.ReadOnly
import IshaVectorDb.Correctness.Reads
import IshaVectorDb.Correctness.Refinement
import IshaVectorDb.Correctness.Reopening
import IshaVectorDb.Correctness.Replays
import IshaVectorDb.Correctness.Retrying
import IshaVectorDb.Correctness.Returning
import IshaVectorDb.Correctness.RowLookup
import IshaVectorDb.Correctness.Sections
import IshaVectorDb.Correctness.SegmentFiles
import IshaVectorDb.Correctness.Segments
import IshaVectorDb.Correctness.Sessions
import IshaVectorDb.Correctness.SharedIndex
import IshaVectorDb.Correctness.SlotPool
import IshaVectorDb.Correctness.SlotRuns
import IshaVectorDb.Correctness.State
import IshaVectorDb.Correctness.TopK
import IshaVectorDb.Correctness.Verifying
import IshaVectorDb.Correctness.WriteBack
import IshaVectorDb.Correctness.WritePaths
import IshaVectorDb.Correctness.Writes
import IshaVectorDb.Engine.Api
import IshaVectorDb.Engine.Bitmap
import IshaVectorDb.Engine.Collection
import IshaVectorDb.Engine.Database
import IshaVectorDb.Engine.Document
import IshaVectorDb.Engine.Error
import IshaVectorDb.Engine.Filter
import IshaVectorDb.Engine.ManifestStore
import IshaVectorDb.Engine.Memtable
import IshaVectorDb.Engine.PathStrings
import IshaVectorDb.Engine.PathText
import IshaVectorDb.Engine.Query
import IshaVectorDb.Engine.Search
import IshaVectorDb.Engine.Sections
import IshaVectorDb.Engine.Segment
import IshaVectorDb.Engine.Storage
import IshaVectorDb.Engine.Verify
import IshaVectorDb.Engine.Wal
import IshaVectorDb.Format.Block
import IshaVectorDb.Format.Bursts
import IshaVectorDb.Format.Canonical
import IshaVectorDb.Format.Catalog
import IshaVectorDb.Format.Checksums
import IshaVectorDb.Format.Crc32c
import IshaVectorDb.Format.Cursor
import IshaVectorDb.Format.Directories
import IshaVectorDb.Format.Manifest
import IshaVectorDb.Format.Records
import IshaVectorDb.Format.Segment
import IshaVectorDb.Format.Tombstones
import IshaVectorDb.Format.Value
import IshaVectorDb.Format.ValueCanonical
import IshaVectorDb.Format.ValueLimits
import IshaVectorDb.Format.ValueLookup
import IshaVectorDb.Format.Varint
import IshaVectorDb.Format.Wal
import IshaVectorDb.Format.Zigzag
import IshaVectorDb.Index.Build
import IshaVectorDb.Index.Courses
import IshaVectorDb.Index.Graph
import IshaVectorDb.Index.Kernels
import IshaVectorDb.Index.Scratch
import IshaVectorDb.Index.Snapshot
import IshaVectorDb.Index.Visited
import IshaVectorDb.Interaction.Calls
import IshaVectorDb.Interaction.Ends
import IshaVectorDb.Interaction.Failing
import IshaVectorDb.Interaction.Faults
import IshaVectorDb.Interaction.Keeps
import IshaVectorDb.Interaction.Program
import IshaVectorDb.Interaction.Triple
import IshaVectorDb.KeyLog.Layers
import IshaVectorDb.KeyLog.Log
import IshaVectorDb.Lanes.Sums
import IshaVectorDb.Metering.Course
import IshaVectorDb.Packed.Words
import IshaVectorDb.Parsing.Bits
import IshaVectorDb.Parsing.Flips
import IshaVectorDb.Parsing.LittleEndian
import IshaVectorDb.Parsing.Reads
import IshaVectorDb.Parsing.Remainders
import IshaVectorDb.Parsing.RunsOut
import IshaVectorDb.Parsing.ShiftRegister
import IshaVectorDb.Parsing.Slices
import IshaVectorDb.Sdk.FilterBuilder
import IshaVectorDb.Sdk.FilterSteps
import IshaVectorDb.Sdk.IndexedDb
import IshaVectorDb.Sdk.NodeFilter
import IshaVectorDb.Sdk.OpfsPool
import IshaVectorDb.Sdk.WriteBack
