import StreamFdl.Base.Runs
import StreamFdl.Base.LinkedChain
import StreamFdl.Base.OrderedMap
import StreamFdl.Members
import StreamFdl.DoubleLinkedList
import StreamFdl.ListShape
import StreamFdl.ListRuns
import StreamFdl.Base.UseCount
import StreamFdl.DataStore
import StreamFdl.Neighbours
import StreamFdl.Graph
import StreamFdl.Handles
import StreamFdl.Requests
import StreamFdl.Base.SlidingWindow
import StreamFdl.CircularBuffer
import StreamFdl.Watchlist
import StreamFdl.InitialMembers
import StreamFdl.FaultDetection
import StreamFdl.DetectionRounds
import StreamFdl.Base.Hysteresis
import StreamFdl.AbortCriteria
import StreamFdl.SubgraphBuilder
import StreamFdl.EdgeCoverage
import StreamFdl.Base.DepthFirst
import StreamFdl.Blindspots
import StreamFdl.PendingUpdates
import StreamFdl.Base.FoldView
import StreamFdl.MessageFolds
import StreamFdl.EdgeConverse
import StreamFdl.Assignments
import StreamFdl.LookupCache
import StreamFdl.Base.Leases
import StreamFdl.Subscriptions
import StreamFdl.WatchlistReset
import StreamFdl.WindowIsolation
import StreamFdl.Base.Samuelson
import StreamFdl.SmallWindows
import StreamFdl.AbortRace
import StreamFdl.BlindspotCalls
import StreamFdl.Base.MixedRemainder
import StreamFdl.RingOffsets
import StreamFdl.IpcRetry
import StreamFdl.TextualResponse
import StreamFdl.FullGraphView
import StreamFdl.Base.PolledQueues
import StreamFdl.MessageLoop
import StreamFdl.AlertDelivery
import StreamFdl.HandleTraffic
import StreamFdl.QueryResponse
import StreamFdl.BlindspotCheck
import StreamFdl.Visualisation
import StreamFdl.Shutdown
import StreamFdl.RoundFailures
import StreamFdl.PluginManager
import StreamFdl.AttributeSources
import StreamFdl.Base.LockOrder
import StreamFdl.Locking
import StreamFdl.LockRuns
