import LinuxProgramming.ThreadSafeTree
import LinuxProgramming.TransitionSystems
import LinuxProgramming.ThreadSafeTreeInvariant
import LinuxProgramming.ThreadSafeTreeConcurrentAdd
import LinuxProgramming.ThreadSafeTreeSequential
import LinuxProgramming.ThreadSafeTreeDelete
import LinuxProgramming.LinkedTable
import LinuxProgramming.DecimalText
import LinuxProgramming.FormattedScan
import LinuxProgramming.NameValueServer
import LinuxProgramming.NameValueStore
import LinuxProgramming.NameValueDatagram
import LinuxProgramming.ConsecutiveRanges
import LinuxProgramming.SeqnumServer
import LinuxProgramming.SeqnumService
import LinuxProgramming.SeqnumBackup
import LinuxProgramming.ThreadSafeTreeInterleaving
import LinuxProgramming.ThreadSafeTreeInterleavingInvariant
import LinuxProgramming.ThreadSafeTreeUnlockedLookup
import LinuxProgramming.ThreadSafeTreeLockDiscipline
import LinuxProgramming.ByteMemory
import LinuxProgramming.MallocAndFree
import LinuxProgramming.MallocFirstFit
import LinuxProgramming.MallocSizeLimits
import LinuxProgramming.MallocFree
import LinuxProgramming.SeqnumTransports
import LinuxProgramming.SeqnumTransportAgreement
import LinuxProgramming.ParentForest
import LinuxProgramming.ProcessTree
import LinuxProgramming.LimitedChildren
import LinuxProgramming.DirectoryObserver
import LinuxProgramming.DirectoryObserverMoves
import LinuxProgramming.OneTimeInit
import LinuxProgramming.BidirectionalPipes
import LinuxProgramming.PipeBandwidth
import LinuxProgramming.PopenDescriptors
import LinuxProgramming.RegularFiles
import LinuxProgramming.TailLines
import LinuxProgramming.SparseCopy
import LinuxProgramming.DescriptorTables
import LinuxProgramming.FcntlAsDupn
import LinuxProgramming.ScatterGather
import LinuxProgramming.Environ
import LinuxProgramming.DirnameBasename
import LinuxProgramming.ExeclpFromExecve
import LinuxProgramming.ThreadSafeTreeReplacement
import LinuxProgramming.ProcessList
import LinuxProgramming.FreeAndSbrk
import LinuxProgramming.PasswdScan
import LinuxProgramming.UserProcesses
import LinuxProgramming.DoublyLinkedLists
import LinuxProgramming.NameValueHashTable
import LinuxProgramming.UthashRuns
import LinuxProgramming.ChildWaitParent
import LinuxProgramming.FlockDeadlock
import LinuxProgramming.ReliableDatagrams
import LinuxProgramming.SignalExchange
import LinuxProgramming.StreamTransfer
import LinuxProgramming.Talk
import LinuxProgramming.ThreadIncrement
import LinuxProgramming.AtomicAppend
import LinuxProgramming.BecomeDaemon
import LinuxProgramming.EchoServer
import LinuxProgramming.ProcessScan
import LinuxProgramming.ChildStatus
import LinuxProgramming.TimerSpec
import LinuxProgramming.UserProcessScan
import LinuxProgramming.NiceCommand
