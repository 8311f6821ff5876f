import Xv6.Library.Command
import Xv6.Library.Parts
import Xv6.Library.Bytes
import Xv6.Library.Crash
import Xv6.Library.Transition
import Xv6.Param
import Xv6.Log.RedoLog
import Xv6.Log.CrashAtomicity
import Xv6.Log.GroupCommit
import Xv6.Log.Reservation
import Xv6.Library.Tally
import Xv6.Log.BufferCache
import Xv6.Log.CommitProgress
import Xv6.Log.BufferUse
import Xv6.Log.CacheContents
import Xv6.Log.CoherentStore
import Xv6.Log.CacheSize
import Xv6.Library.Linked
import Xv6.Log.BufferList
import Xv6.Log.BufferOrder
import Xv6.Library.Ring
import Xv6.Pipe.Fifo
import Xv6.Console.LineEditor
import Xv6.Fs.Layout
import Xv6.Library.Ownership
import Xv6.Fs.Inode
import Xv6.Fs.Disk
import Xv6.Fs.Allocation
import Xv6.Fs.Pointers
import Xv6.Fs.Mapping
import Xv6.Fs.Contents
import Xv6.Fs.Truncation
import Xv6.Fs.Consistency
import Xv6.Fs.InodeTable
import Xv6.Fs.LogBudget
import Xv6.Fs.BlockBudget
import Xv6.Fs.Directory
import Xv6.Fs.Calls
import Xv6.Fs.Entries
import Xv6.Fs.BlockOwnership
import Xv6.Fs.ByteArrays
import Xv6.Library.Tree
import Xv6.Vm.Paging
import Xv6.Vm.Process
import Xv6.Vm.Words
import Xv6.Vm.Books
import Xv6.Vm.Tables
import Xv6.Vm.Walk
import Xv6.Vm.Mapping
import Xv6.Vm.Teardown
import Xv6.Vm.Spaces
import Xv6.Vm.UserAccess
import Xv6.Vm.Processes
import Xv6.Vm.UserView
import Xv6.Vm.ExecImage
import Xv6.Vm.ExecSegments
import Xv6.Vm.ExecStack
import Xv6.Vm.Exec
import Xv6.Vm.PageConservation
import Xv6.Vm.AddressBound
import Xv6.Vm.ForkIsolation
import Xv6.Vm.LazyAllocation
import Xv6.Vm.ExecMemory
import Xv6.Vm.Sbrk
import Xv6.Vm.PageMap
import Xv6.Vm.PageTable
import Xv6.Proc.SleepWakeup
import Xv6.Proc.Conditions
import Xv6.Proc.SleepLock
import Xv6.Pipe.Sleepers
import Xv6.Proc.Family
import Xv6.Proc.ExitStatus
import Xv6.Proc.Kill
import Xv6.Proc.LifeCycle
import Xv6.Proc.Processors
import Xv6.File.Reading
import Xv6.Fs.ShortWrites
import Xv6.File.SharedOffset
import Xv6.Log.Waiting
import Xv6.Proc.Interrupts
import Xv6.Fs.Reclaim
import Xv6.Fs.FailedCalls
import Xv6.Fs.DirectoryMap
import Xv6.Fs.PathLocks
import Xv6.Strings.Memmove
import Xv6.Strings.Printf
import Xv6.Strings.GrepLines
import Xv6.Strings.ShellWords
import Xv6.Fs.Images
import Xv6.Exec.Kexec
import Xv6.Exec.FailedExec
import Xv6.Log.HeaderPins
