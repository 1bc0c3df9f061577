import VsqlVector.Lib.Prog
import VsqlVector.Lib.Bytes
import VsqlVector.Lib.Links
import VsqlVector.Lib.Runs
import VsqlVector.Storage.Layout
import VsqlVector.Storage.ColumnStore
import VsqlVector.Storage.FreeList
import VsqlVector.Storage.Records
import VsqlVector.Storage.RootLayout
import VsqlVector.Index.Level
import VsqlVector.Index.Graph
import VsqlVector.Lib.Queue
import VsqlVector.Lib.Slots
import VsqlVector.Lib.Trail
import VsqlVector.Index.Layer
import VsqlVector.Index.GraphOps
import VsqlVector.Index.Records
import VsqlVector.Index.Chains
import VsqlVector.Index.Mutual
import VsqlVector.Index.Linking
import VsqlVector.Index.Replacing
import VsqlVector.Index.Unlinking
import VsqlVector.Index.Lifetime
import VsqlVector.Index.Search
import VsqlVector.Index.Repair
import VsqlVector.Index.Towers
import VsqlVector.Index.Insert
import VsqlVector.Index.Remove
import VsqlVector.Index.Histories
import VsqlVector.Index.Safety
import VsqlVector.Index.Orphans
import VsqlVector.Index.Serial
import VsqlVector.Index.IndexStore
import VsqlVector.Index.Reload
import VsqlVector.Index.EntryPoint
import VsqlVector.Index.Barrier
import VsqlVector.Lib.Cursor
import VsqlVector.Tools.HnswLayout
import VsqlVector.Index.Heuristic
import VsqlVector.Storage.FreeSlots
import VsqlVector.Tools.DataPageParser
import VsqlVector.Vector.Text
import VsqlVector.Vector.Compare
import VsqlVector.Storage.Failures
import VsqlVector.Storage.ColumnStorage
import VsqlVector.Storage.Updates
import VsqlVector.Tools.PageBounds
import VsqlVector.Lib.Triple
import VsqlVector.Index.Outcomes
import VsqlVector.Index.Overflows
import VsqlVector.Lib.Compaction
import VsqlVector.Index.GraphContext
import VsqlVector.Index.Scratch
import VsqlVector.Storage.Ownership
import VsqlVector.Index.Locate
import VsqlVector.Index.Attempts
import VsqlVector.Index.Steady
import VsqlVector.Index.Footing
import VsqlVector.Index.Salvage
import VsqlVector.Index.Trials
import VsqlVector.Index.Answers
import VsqlVector.Index.Options
import VsqlVector.Lib.Latches
import VsqlVector.Storage.Concurrent
import VsqlVector.Storage.OneThread
import VsqlVector.Storage.Interleaving
import VsqlVector.Storage.Progress
