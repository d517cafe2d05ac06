import LinuxProgram.Lib.SortedMap
import LinuxProgram.Lib.StdSort
import LinuxProgram.Lib.CallAuction
import LinuxProgram.Lib.StepSystem
import LinuxProgram.Lib.Agents
import LinuxProgram.Lib.Allocation
import LinuxProgram.Lib.Polling
import LinuxProgram.Lib.Drain
import LinuxProgram.Lib.Tally
import LinuxProgram.Lib.Charge
import LinuxProgram.Lib.ByteLayout
import LinuxProgram.Lib.CallSequence
import LinuxProgram.Lib.Pieces
import LinuxProgram.Lib.Predecessor
import LinuxProgram.Lib.Loops
import LinuxProgram.Lib.Ring
import LinuxProgram.Lib.InputStream
import LinuxProgram.Lib.HexNumber
import LinuxProgram.Lib.SlotPool
import LinuxProgram.Lib.Stores
import LinuxProgram.Lib.LinearExtension
import LinuxProgram.PrestoLabs.Order
import LinuxProgram.PrestoLabs.Book
import LinuxProgram.PrestoLabs.Rules
import LinuxProgram.PrestoLabs.MatchSteps
import LinuxProgram.PrestoLabs.MatchRun
import LinuxProgram.PrestoLabs.BookInvariant
import LinuxProgram.PrestoLabs.Engine
import LinuxProgram.PrestoLabs.Auction
import LinuxProgram.PrestoLabs.Balance
import LinuxProgram.PrestoLabs.Priority
import LinuxProgram.PrestoLabs.NormalBook
import LinuxProgram.PrestoLabs.Remainder
import LinuxProgram.PrestoLabs.AuctionPrice
import LinuxProgram.PrestoLabs.AuctionTrades
import LinuxProgram.PrestoLabs.ReportBuffer
import LinuxProgram.PrestoLabs.ReportReferences
import LinuxProgram.PrestoLabs.AuctionCalls
import LinuxProgram.PrestoLabs.LevelTotals
import LinuxProgram.PrestoLabs.TradePrices
import LinuxProgram.PrestoLabs.Volumes
import LinuxProgram.PrestoLabs.EndReads
import LinuxProgram.PrestoLabs.EmptyFills
import LinuxProgram.PrestoLabs.OrderPool
import LinuxProgram.MemoryAllocator.ConcurrentRing
import LinuxProgram.MemoryAllocator.ConcurrentRingSafety
import LinuxProgram.MemoryAllocator.DrainedRing
import LinuxProgram.MemoryAllocator.MemoryRingBuffer
import LinuxProgram.MemoryAllocatorBitmap.MemoryRingBuffer
import LinuxProgram.MemoryAllocatorBitmap.BitmapSpec
import LinuxProgram.MemoryAllocatorBitmap.AllocatorSound
import LinuxProgram.MemoryAllocatorBitmap.FirstFit
import LinuxProgram.MemoryAllocatorBitmap.InStorage
import LinuxProgram.MemoryAllocatorBitmap.SearchExact
import LinuxProgram.MemoryAllocatorBitmap.RangeExact
import LinuxProgram.Binlog.Record
import LinuxProgram.Binlog.WriteFile
import LinuxProgram.Binlog.LogRead
import LinuxProgram.Binlog.LogReadSpec
import LinuxProgram.Binlog.LogReadBounds
import LinuxProgram.Binlog.Dump
import LinuxProgram.Binlog.DumpRecords
import LinuxProgram.Binlog.Described
import LinuxProgram.Binlog.DumpOrder
import LinuxProgram.Binlog.DumpInTime
import LinuxProgram.Binlog.LogInfoContainer
import LinuxProgram.Binlog.RegistryCapacity
import LinuxProgram.Binlog.RegistryVisible
import LinuxProgram.Binlog.RecordCells
import LinuxProgram.Binlog.PerfEvents
import LinuxProgram.Binlog.Recovery
import LinuxProgram.Utils.Rcu
import LinuxProgram.Utils.RcuSafety
import LinuxProgram.Utils.TicketLock
import LinuxProgram.Utils.TicketLockSafety
import LinuxProgram.ProcessOrder.LoadFile
import LinuxProgram.ProcessOrder.Message
import LinuxProgram.ProcessOrder.LoadFileSpec
import LinuxProgram.ProcessOrder.Bounds
import LinuxProgram.ProcessOrder.LinkFile
import LinuxProgram.ProcessOrder.Attribution
import LinuxProgram.ProcessOrder.Rankings
import LinuxProgram.ProcessOrder.ShowResult
import LinuxProgram.Kernel.ProcTest
import LinuxProgram.Kernel.Sharemem
import LinuxProgram.Kernel.SharememMmap
import LinuxProgram.Kernel.SharememRead
import LinuxProgram.MetaProgram.UpperBound
import LinuxProgram.MetaProgram.IsPrimeNumber
import LinuxProgram.MetaProgram.Typelist
import LinuxProgram.MetaProgram.TaskDsl
import LinuxProgram.MetaProgram.TaskOrder
import LinuxProgram.Cache.CapacityDetect
import LinuxProgram.HugePage.IsHugePageMapping
import LinuxProgram.HugePage.Smaps
import LinuxProgram.HugePage.SmapsAnswer
import LinuxProgram.Kernel.Scull.Device
import LinuxProgram.Kernel.Scull.DeviceCalls
import LinuxProgram.Kernel.Scull.DeviceRun
import LinuxProgram.Kernel.Scull.Pipe
import LinuxProgram.Kernel.Scull.PipeFifo
import LinuxProgram.Kernel.Scull.PipeWaiting
import LinuxProgram.Kernel.Scull.Transfer
import LinuxProgram.Kernel.Scull.Access
import LinuxProgram.Kernel.Scull.AccessSafe
import LinuxProgram.Utils.SeqLock
import LinuxProgram.Utils.SeqLockSafety
import LinuxProgram.Kernel.Shortprint
