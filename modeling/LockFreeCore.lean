import LockFreeCore.Model.CRingBuff
import LockFreeCore.Proofs.CRingBuff
import LockFreeCore.Proofs.CRingBuff.Fifo
import LockFreeCore.Model.CPacket
import LockFreeCore.Proofs.CPacket
import LockFreeCore.Proofs.CPacket.Extraction
import LockFreeCore.Proofs.CPacket.ShortReads
import LockFreeCore.Proofs.CPacket.Building
import LockFreeCore.Model.Framing
import LockFreeCore.Proofs.Framing
import LockFreeCore.Proofs.Framing.Receiving
import LockFreeCore.Model.Wire
import LockFreeCore.Proofs.Framing.RoundTrip
import LockFreeCore.Model.LockFreeStack
import LockFreeCore.Proofs.LockFreeStack
import LockFreeCore.Model.MemoryPool
import LockFreeCore.Proofs.MemoryPool
import LockFreeCore.Model.LockFreeQueue
import LockFreeCore.Proofs.LockFreeQueue
import LockFreeCore.Proofs.LockFreeQueue.Stalls
import LockFreeCore.Proofs.LockFreeQueue.OneThread
import LockFreeCore.ToMathlib.CountedClose
import LockFreeCore.Model.Map
import LockFreeCore.Proofs.Map.Heap
import LockFreeCore.Proofs.Map.Fixup
import LockFreeCore.Proofs.Map.EraseFixup
import LockFreeCore.Proofs.Map.Search
import LockFreeCore.Proofs.Map.Insert
import LockFreeCore.Proofs.Map.Erase
import LockFreeCore.Proofs.Map.Refinement
import LockFreeCore.Proofs.Map.Invariants
import LockFreeCore.Proofs.Map.Depth
import LockFreeCore.Proofs.Map.Sentinel
import LockFreeCore.Model.HashTable
import LockFreeCore.Proofs.HashTable
import LockFreeCore.ToMathlib.Words
import LockFreeCore.Model.CTextParser
import LockFreeCore.Proofs.CTextParser.Traced
import LockFreeCore.Proofs.CTextParser.Tokenizer
import LockFreeCore.Proofs.CTextParser.Tokens
import LockFreeCore.Proofs.CTextParser.Ranges
import LockFreeCore.Proofs.CTextParser.Spaces
import LockFreeCore.Proofs.CTextParser.Reports
import LockFreeCore.Proofs.CTextParser.Bounds
import LockFreeCore.Proofs.CTextParser.Config
import LockFreeCore.Proofs.CTextParser.Lookup
import LockFreeCore.Model.CLockFreeCore
import LockFreeCore.Proofs.CLockFreeCore.Steps
import LockFreeCore.Proofs.CLockFreeCore.Roles
import LockFreeCore.Proofs.CLockFreeCore.Teardown
import LockFreeCore.Proofs.CLockFreeCore.Lifetimes
import LockFreeCore.Proofs.CLockFreeCore.Closing
import LockFreeCore.Proofs.CLockFreeCore.Recycling
import LockFreeCore.Proofs.CLockFreeCore.SendPending
import LockFreeCore.Proofs.CLockFreeCore.Packets
import LockFreeCore.Proofs.CLockFreeCore.OneSession
import LockFreeCore.Proofs.CLockFreeCore.Wakeups
import LockFreeCore.Proofs.CLockFreeCore.Sequential
import LockFreeCore.Proofs.CLockFreeCore.SessionPool
import LockFreeCore.Proofs.CLockFreeCore.SendRing
import LockFreeCore.Proofs.CLockFreeCore.Pipeline
import LockFreeCore.Proofs.CLockFreeCore.SendOrder
import LockFreeCore.Proofs.CLockFreeCore.Ownership
import LockFreeCore.Proofs.CLockFreeCore.Completions
import LockFreeCore.Proofs.CLockFreeCore.Disposal
import LockFreeCore.ToMathlib.Reads
import LockFreeCore.Model.SendPacket
import LockFreeCore.Proofs.SendPacket
import LockFreeCore.Proofs.CLockFreeCore.RingMemory
import LockFreeCore.ToMathlib.BestFirst
import LockFreeCore.Model.Pathfinding
import LockFreeCore.Proofs.Pathfinding.Paths
import LockFreeCore.Proofs.Pathfinding.AStar
import LockFreeCore.Proofs.Pathfinding.Jump
import LockFreeCore.Proofs.Pathfinding.JumpPoints
import LockFreeCore.Proofs.Pathfinding.JPS
import LockFreeCore.Proofs.Pathfinding.Cheapest
import LockFreeCore.Proofs.Pathfinding.Agreement
import LockFreeCore.Model.EchoServer
import LockFreeCore.Model.BotClient
import LockFreeCore.Proofs.EchoServer
import LockFreeCore.Proofs.BotClient
import LockFreeCore.Proofs.BotClient.Responses
import LockFreeCore.Proofs.BotClient.Completion
import LockFreeCore.Proofs.LockFreeQueue.Linearization
import LockFreeCore.Model.Benchmark
import LockFreeCore.Proofs.Benchmark.Spinlock
import LockFreeCore.Proofs.LockFreeQueue.Returns
import LockFreeCore.Proofs.Benchmark.QueueTest
import LockFreeCore.ToMathlib.Allocation
import LockFreeCore.Proofs.Map.Destructor
import LockFreeCore.Proofs.HashTable.Destructor
import LockFreeCore.ToMathlib.Progress
import LockFreeCore.Proofs.LockFreeStack.Progress
import LockFreeCore.Proofs.MemoryPool.Progress
import LockFreeCore.Model.BotConfig
import LockFreeCore.Proofs.BotConfig
import LockFreeCore.Proofs.Benchmark.MapTest
import LockFreeCore.Proofs.EchoServer.Draining
import LockFreeCore.Proofs.Pathfinding.Distance
import LockFreeCore.Proofs.Pathfinding.Edits
import LockFreeCore.ToMathlib.Lending
import LockFreeCore.Proofs.CLockFreeCore.Claims
import LockFreeCore.Proofs.CLockFreeCore.Conservation
