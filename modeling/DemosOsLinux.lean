import DemosOsLinux.Lib.Machine
import DemosOsLinux.Lib.MachineInt
import DemosOsLinux.Lib.RingBuffer
import DemosOsLinux.Lib.Fifo
import DemosOsLinux.Lib.Threads
import DemosOsLinux.Lib.Monitor
import DemosOsLinux.Lib.ReadersWriter
import DemosOsLinux.Lib.Processes
import DemosOsLinux.Lib.ForkJoin
import DemosOsLinux.Lib.ByteMemory
import DemosOsLinux.Lib.Semaphores
import DemosOsLinux.Lib.Ledger
import DemosOsLinux.Lib.WaitQueue
import DemosOsLinux.Lib.LinkedRing
import DemosOsLinux.Lib.ArrayLoops
import DemosOsLinux.Lib.BlockedLoops
import DemosOsLinux.Lib.CString
import DemosOsLinux.Lib.Clusters
import DemosOsLinux.Lib.OrderedMap
import DemosOsLinux.Lib.OwnedBlocks
import DemosOsLinux.Lib.IntLoops
import DemosOsLinux.Lib.StoreBuffer
import DemosOsLinux.KernelPipe.Pipe
import DemosOsLinux.KernelPipe.Ring
import DemosOsLinux.KernelPipe.Transfer
import DemosOsLinux.KernelPipe.System
import DemosOsLinux.KernelPipe.Trans
import DemosOsLinux.KernelPipe.Fifo
import DemosOsLinux.KernelPipe.Lock
import DemosOsLinux.KernelPipe.Eof
import DemosOsLinux.KernelPipe.Wakeup
import DemosOsLinux.SimplePipe.Pipe
import DemosOsLinux.CircularPipe.Basic
import DemosOsLinux.CircularPipe.Fifo
import DemosOsLinux.CopyFile.Select
import DemosOsLinux.Tee.Streams
import DemosOsLinux.CopyFile.Splice
import DemosOsLinux.CopyFile.SpliceSelect
import DemosOsLinux.CopyFile.Threads
import DemosOsLinux.Tee.Basic
import DemosOsLinux.Tee.Bad
import DemosOsLinux.Tee.Bug
import DemosOsLinux.Tee.NonPipes
import DemosOsLinux.EchoServer.Server
import DemosOsLinux.EchoServer.Trans
import DemosOsLinux.EchoServer.Connections
import DemosOsLinux.EchoServer.Echo
import DemosOsLinux.EchoServer.Progress
import DemosOsLinux.EchoServer.Attribution
import DemosOsLinux.EchoServer.BatchSize
import DemosOsLinux.EchoServer.Memory
import DemosOsLinux.EchoServer.MemTrans
import DemosOsLinux.EchoServer.Bookkeeping
import DemosOsLinux.EchoServer.HalfClose
import DemosOsLinux.EdgeServer.Server
import DemosOsLinux.EdgeServer.Stall
import DemosOsLinux.EventCond.Cond
import DemosOsLinux.EventCond.Slots
import DemosOsLinux.EventCond.Client
import DemosOsLinux.EventCond.Signal
import DemosOsLinux.EventRwLock.Lock
import DemosOsLinux.EventRwLock.Exclusion
import DemosOsLinux.EventRwLock.Progress
import DemosOsLinux.PthreadRwLock.Lock
import DemosOsLinux.PthreadRwLock.Broadcast
import DemosOsLinux.MessageQueue.Queue
import DemosOsLinux.MessageQueue.Wakeup
import DemosOsLinux.StandaloneMq.Queue
import DemosOsLinux.StandaloneMq.Sleepers
import DemosOsLinux.SyncQueue.Queue
import DemosOsLinux.Exchanger.Exchange
import DemosOsLinux.Exchanger.Pairs
import DemosOsLinux.Exchanger.Progress
import DemosOsLinux.Watchdog.Handlers
import DemosOsLinux.Watchdog.Liveness
import DemosOsLinux.Watchdog.Children
import DemosOsLinux.Watchdog.Forward
import DemosOsLinux.ForkWatchdog.Restart
import DemosOsLinux.Spooler.Index
import DemosOsLinux.Spooler.Jobs
import DemosOsLinux.Spooler.Order
import DemosOsLinux.MergeSort.Calls
import DemosOsLinux.MergeSort.Sort
import DemosOsLinux.RamDisk.Transfer
import DemosOsLinux.RamDisk.Sectors
import DemosOsLinux.GetUserPages.Calls
import DemosOsLinux.GetUserPages.Pages
import DemosOsLinux.MmapModules.Mappings
import DemosOsLinux.MmapModules.Buffers
import DemosOsLinux.AceTurns.Counter
import DemosOsLinux.Philosophers.Table
import DemosOsLinux.PipeModules.Init
import DemosOsLinux.WebServer.Worker
import DemosOsLinux.CrashHandling.Handler
import DemosOsLinux.CrashHandling.Daemon
import DemosOsLinux.StdoutLogger.Logger
import DemosOsLinux.Clipboard.Transfer
import DemosOsLinux.Clipboard.Sleepers
import DemosOsLinux.SleepWakeup.Driver
import DemosOsLinux.KernelList.Api
import DemosOsLinux.KernelList.Runs
import DemosOsLinux.KernelList.Queue
import DemosOsLinux.Phonebook.Book
import DemosOsLinux.IncreasingSubsequence.Search
import DemosOsLinux.IncreasingSubsequence.Buffers
import DemosOsLinux.IncreasingSubsequence.TieBreak
import DemosOsLinux.CacheChunks.Process
import DemosOsLinux.MatrixMultiply.Multiply
import DemosOsLinux.ImagePrune.Prune
import DemosOsLinux.ProcessTree.Forest
import DemosOsLinux.ProcessTree.Print
import DemosOsLinux.SelectionSort.Sort
import DemosOsLinux.Ipow.Power
import DemosOsLinux.MemAlign.Align
import DemosOsLinux.TimespecUtils.Algebra
import DemosOsLinux.MersenneTwister.Twister
import DemosOsLinux.Statistics.Histogram
import DemosOsLinux.Statistics.Extremes
import DemosOsLinux.DivIoctl.Ioctl
import DemosOsLinux.SpinLock.Turns
import DemosOsLinux.RingLimits.Sizes
import DemosOsLinux.StringClass.Values
import DemosOsLinux.IoUring.Copy
import DemosOsLinux.IoUring.FullResults
import DemosOsLinux.IoUring.Requeue
import DemosOsLinux.DigitNumber.Digits
import DemosOsLinux.MinMax.BranchFree
import DemosOsLinux.MemoryReordering.WriteWrite
import DemosOsLinux.TryingToBreak.Workers
import DemosOsLinux.TryingToBreak.Results
import DemosOsLinux.CountRange.Threads
import DemosOsLinux.EventFd.Sum
import DemosOsLinux.LoseSignals.Parent
