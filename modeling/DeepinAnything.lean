import DeepinAnything.Lib.Memory
import DeepinAnything.Lib.Forest
import DeepinAnything.Lib.Before
import DeepinAnything.Lib.Paging
import DeepinAnything.Lib.PathTree
import DeepinAnything.Lib.Decoder
import DeepinAnything.FsBuf.Basic
import DeepinAnything.FsBuf.Edit
import DeepinAnything.FsBuf.Layout
import DeepinAnything.FsBuf.Scan
import DeepinAnything.FsBuf.Exact
import DeepinAnything.FsBuf.Repair
import DeepinAnything.FsBuf.Lookup
import DeepinAnything.FsBuf.Insert
import DeepinAnything.FsBuf.EmptyRoot
import DeepinAnything.FsBuf.Remove
import DeepinAnything.FsBuf.Rename
import DeepinAnything.FsBuf.PathName
import DeepinAnything.FsBuf.Relocate
import DeepinAnything.FsBuf.WellFormed
import DeepinAnything.Walkdir.Basic
import DeepinAnything.Walkdir.Build
import DeepinAnything.Walkdir.Cut
import DeepinAnything.FsBuf.Run
import DeepinAnything.FsBuf.Move
import DeepinAnything.FsBuf.Moved
import DeepinAnything.FsBuf.Change
import DeepinAnything.FsBuf.Search
import DeepinAnything.FsBuf.ParallelSearch
import DeepinAnything.FsBuf.Items
import DeepinAnything.FsBuf.RuleSearch
import DeepinAnything.FsBuf.PathRange
import DeepinAnything.Lib.Loop
import DeepinAnything.Lib.Bfs
import DeepinAnything.FsBuf.TreeEnd
import DeepinAnything.FsBuf.SearchFiles
import DeepinAnything.FsBuf.RuleResults
import DeepinAnything.FsBuf.RulePages
import DeepinAnything.FsBuf.Slices
import DeepinAnything.FsBuf.SliceReads
import DeepinAnything.FsBuf.SliceResults
import DeepinAnything.FsBuf.SliceCuts
import DeepinAnything.FsBuf.Splice
import DeepinAnything.FsBuf.Exactness
import DeepinAnything.FsBuf.File
import DeepinAnything.FsBuf.AllOrNothing
import DeepinAnything.EventMerge.Basic
import DeepinAnything.EventMerge.Invariant
import DeepinAnything.EventMerge.Pick
import DeepinAnything.EventMerge.Run
import DeepinAnything.EventMerge.Timer
import DeepinAnything.EventMerge.Order
import DeepinAnything.EventMerge.Capacity
import DeepinAnything.EventMerge.Probes
import DeepinAnything.EventMerge.History
import DeepinAnything.EventMerge.Log
import DeepinAnything.EventMerge.Tidy
import DeepinAnything.EventMerge.Delivery
import DeepinAnything.EventMerge.PlainFiles
import DeepinAnything.Server.EventAdaptor
import DeepinAnything.Server.EventSource
import DeepinAnything.Server.Receive
import DeepinAnything.Server.Device
import DeepinAnything.Server.UnnamedDevices
import DeepinAnything.Server.LftManager
import DeepinAnything.Server.MountCacher
import DeepinAnything.Server.Search
import DeepinAnything.Server.SearchRules
import DeepinAnything.Server.PagedSearch
import DeepinAnything.Server.PagedListing
import DeepinAnything.Server.PrepareBuf
import DeepinAnything.Lib.Utf8
import DeepinAnything.Index.Basic
import DeepinAnything.Index.Fill
import DeepinAnything.Index.Contains
import DeepinAnything.Lib.Table
import DeepinAnything.Index.Stored
import DeepinAnything.Index.Update
import DeepinAnything.Index.Console
import DeepinAnything.Server.Buffers
import DeepinAnything.Server.RemovePath
import DeepinAnything.Server.IndexKind
import DeepinAnything.FsBuf.PathMax
import DeepinAnything.Walkdir.Partition
import DeepinAnything.Walkdir.MatchingDir
import DeepinAnything.Chinese.Pinyin
import DeepinAnything.Server.SerialUri
import DeepinAnything.Server.RuleStrings
import DeepinAnything.Lib.Steps
import DeepinAnything.ThreadPool.Basic
import DeepinAnything.ThreadPool.Invariant
import DeepinAnything.ThreadPool.Progress
import DeepinAnything.ThreadPool.Search
import DeepinAnything.FsBuf.FileEvent
import DeepinAnything.Server.FileEvents
import DeepinAnything.Server.LateEvents
import DeepinAnything.Server.CatchUp
import DeepinAnything.Server.BuildEvents
