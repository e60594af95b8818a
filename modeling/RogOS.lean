import RogOS.Basic
import RogOS.Lib.Assoc
import RogOS.Lib.Cmd
import RogOS.Lib.Mem
import RogOS.Lib.Mmu
import RogOS.Lib.DList
import RogOS.Lib.DLists
import RogOS.Lib.Ring
import RogOS.Lib.Str
import RogOS.Lib.DirWalk
import RogOS.Lib.Ledger
import RogOS.Lib.ClearRun
import RogOS.Fs.Basic
import RogOS.Fs.Impl.Bitmap
import RogOS.Fs.Impl.Inode
import RogOS.Fs.Impl.Dir
import RogOS.Fs.Impl.File
import RogOS.Fs.Impl.Path
import RogOS.Fs.Impl.Syscall
import RogOS.Fs.Impl.Format
import RogOS.Fs.Impl.Fork
import RogOS.Fs.Impl.InodeHeap
import RogOS.Fs.Impl.Heap
import RogOS.Fs.Impl.HeapCalls
import RogOS.Fs.System
import RogOS.Fs.Lemmas.Basic
import RogOS.Fs.Lemmas.Volume
import RogOS.Fs.Lemmas.Bitmap
import RogOS.Fs.Lemmas.Format
import RogOS.Fs.Lemmas.Open
import RogOS.Fs.Lemmas.Dir
import RogOS.Fs.Lemmas.Insert
import RogOS.Fs.Lemmas.Ownership
import RogOS.Fs.Lemmas.Delete
import RogOS.Fs.Lemmas.DeleteRun
import RogOS.Fs.Lemmas.FileAlloc
import RogOS.Fs.Lemmas.FileWrite
import RogOS.Fs.Lemmas.FileRead
import RogOS.Fs.Lemmas.FileReturns
import RogOS.Fs.Lemmas.Calls
import RogOS.Fs.Lemmas.Heap
import RogOS.Fs.Lemmas.HeapSearch
import RogOS.Fs.Lemmas.Syscall
import RogOS.Fs.Lemmas.Frame
import RogOS.Fs.Lemmas.Path
import RogOS.Fs.Lemmas.Search
import RogOS.Fs.Lemmas.Lookup
import RogOS.Fs.Lemmas.Listing
import RogOS.Fs.Invariant.Tree
import RogOS.Fs.Invariant.Steps
import RogOS.Fs.Invariant.Entries
import RogOS.Fs.Invariant.Volume
import RogOS.Fs.Invariant.Contents
import RogOS.Fs.Invariant.Count
import RogOS.Fs.Invariant.State
import RogOS.Fs.Invariant.Calls
import RogOS.Fs.InodeTable
import RogOS.Fs.Insertion
import RogOS.Fs.Deletion
import RogOS.Fs.Readdir
import RogOS.Fs.FileContent
import RogOS.Fs.FileBlocks
import RogOS.Fs.FileLimits
import RogOS.Fs.FormatLayout
import RogOS.Fs.PathResolution
import RogOS.Fs.DepthTest
import RogOS.Fs.PathLookup
import RogOS.Fs.NameRoundTrip
import RogOS.Fs.Impl.Cwd
import RogOS.Fs.WorkingDir
import RogOS.Shell.Impl.BuildinCmd
import RogOS.Shell.PathWashing
import RogOS.Fs.NameArray
import RogOS.Fs.InodeBuffers
import RogOS.Fs.Release
import RogOS.Fs.BitmapScan
import RogOS.Fs.AllocFailure
import RogOS.Fs.OpenFailure
import RogOS.Fs.OpenCounts
import RogOS.Fs.SingleWriter
import RogOS.Fs.Descriptors
import RogOS.Fs.DescriptorArgs
import RogOS.Fs.HeapLeaks
import RogOS.Fs.InodeHeap
import RogOS.Memory.Impl.List
import RogOS.Memory.Impl.Heap
import RogOS.Memory.Lemmas.List
import RogOS.Memory.Lists
import RogOS.Memory.Lemmas.Arena
import RogOS.Memory.Lemmas.Heap
import RogOS.Memory.Lemmas.Free
import RogOS.Memory.HeapSystem
import RogOS.Memory.HeapSafety
import RogOS.Memory.Impl.Paging
import RogOS.Memory.Lemmas.Paging
import RogOS.Memory.Lemmas.KernelMap
import RogOS.Memory.PageMap
import RogOS.Memory.PageSafety
import RogOS.Memory.OutOfSpace
import RogOS.Memory.PoolLayout
import RogOS.Memory.PageTable
import RogOS.Memory.UserPage
import RogOS.Task.Impl.Cpu
import RogOS.Task.Impl.Fork
import RogOS.Task.Impl.Name
import RogOS.Task.Lemmas.Fork
import RogOS.Task.Impl.Exec
import RogOS.Task.Names
import RogOS.Task.Lemmas.Exec
import RogOS.Task.ForkReturn
import RogOS.Task.ExecImage
import RogOS.Task.ExecFailure
import RogOS.Task.Impl.Process
import RogOS.Task.ForkTrace
import RogOS.Memory.HeapFork
import RogOS.Thread.Impl.Sync
import RogOS.Thread.Impl.Sched
import RogOS.Thread.Lemmas.Sync
import RogOS.Thread.Queues
import RogOS.Thread.Lemmas.Sched
import RogOS.Thread.LockSystem
import RogOS.Thread.Lemmas.LockCalls
import RogOS.Thread.LockSafety
import RogOS.Thread.Impl.Pid
import RogOS.Thread.PidSafety
import RogOS.Thread.SchedSystem
import RogOS.Thread.SchedSafety
import RogOS.Device.Impl.Ioqueue
import RogOS.Device.Impl.Ide
import RogOS.Lib.Ram
import RogOS.Lib.CStr
import RogOS.Device.Impl.IdeTransfer
import RogOS.Device.IoqueueSystem
import RogOS.Device.IoqueueFifo
import RogOS.Device.IoqueueWait
import RogOS.Device.Impl.Keyboard
import RogOS.Device.Keyboard
import RogOS.Device.IdeSystem
import RogOS.Device.IdeTransfer
import RogOS.Device.IdeCompletion
import RogOS.Lib.Halt
import RogOS.Device.Impl.Partition
import RogOS.Device.Lemmas.Partition
import RogOS.Device.PartitionDiscovery
import RogOS.Device.PartitionWalk
import RogOS.Device.PartitionTermination
import RogOS.Lib.Related
import RogOS.Device.PartitionDisks
import RogOS.Lib.Marks
import RogOS.Fs.Impl.FormatSearch
import RogOS.Fs.FormatSearch
import RogOS.Shell.Impl.WashPath
import RogOS.Shell.Lemmas.CString
import RogOS.Shell.WashPath
import RogOS.Lib.Words
import RogOS.Shell.Impl.CmdParse
import RogOS.Shell.CmdParse
import RogOS.Lib.Terminal
import RogOS.Print.Impl.Print
import RogOS.Print.Screen
import RogOS.Lib.Numeral
import RogOS.Print.Impl.Stdio
import RogOS.Print.Numerals
import RogOS.Print.Vsprintf
import RogOS.Shell.Impl.Readline
import RogOS.Shell.LineEditing
import RogOS.Fs.Invariant.Directories
import RogOS.Fs.Invariant.Formatted
import RogOS.Fs.TreeSystem
import RogOS.Fs.Consistency
import RogOS.Fs.Positions
import RogOS.Fs.Contents
