import Csc469.Alloc.HeaderSafety
import Csc469.Alloc.LargeRuns
import Csc469.Chat.ConnectionSafety
import Csc469.Chat.LostReplies
import Csc469.Chat.NameRetry
import Csc469.Chat.Heartbeat
import Csc469.Chat.ChatText
import Csc469.Chat.SweepRules
import Csc469.Chat.RoomNames
import Csc469.Kheap.Runs
import Csc469.Alloc.Accesses
import Csc469.Alloc.OutOfMemory
import Csc469.Alloc.Interleaving
import Csc469.Chat.Frames
import Csc469.Chat.Receiver
import Csc469.Chat.Outcomes
import Csc469.Alloc.Balance
import Csc469.Alloc.Segment
import Csc469.Alloc.Selection
import Csc469.Alloc.EmptyBin
import Csc469.Alloc.LargeSizes
import Csc469.Alloc.Growth
import Csc469.Tracing.Periods
import Csc469.ByteMemory
import Csc469.Alloc.InitBytes
import Csc469.Chat.NameBuffer
import Csc469.Chat.Lists
import Csc469.Chat.Commands
import Csc469.FirstSeen
import Csc469.Tokens
import Csc469.Chat.RoomConfig
import Csc469.Decimal
import Csc469.Chat.Location
import Csc469.Kheap.Release
import Csc469.Kheap.BigChunks
import Csc469.Kheap.Chunks
import Csc469.Kheap.BigRuns
import Csc469.Kheap.Routing
import Csc469.Chat.ServiceRefinement
import Csc469.Chat.InputThreads
import Csc469.Chat.ReceiverShutdown
import Csc469.Chat.Reconnect
import Csc469.Alloc.LockOrder
import Csc469.Kheap.Contents
import Csc469.Alloc.Isolation
