import Pintos.Lib.Block
import Pintos.Lib.Runs
import Pintos.Lib.GrowArray
import Pintos.Lib.Queue
import Pintos.Lib.Ring
import Pintos.Lib.Command
import Pintos.FileSys.Device
import Pintos.FileSys.Bitmap
import Pintos.FileSys.Transfer
import Pintos.FileSys.State
import Pintos.FileSys.Inode
import Pintos.FileSys.File
import Pintos.FileSys.Directory
import Pintos.FileSys.Filesys
import Pintos.FileSys.Ownership
import Pintos.FileSys.FreeMap
import Pintos.FileSys.Allocation
import Pintos.FileSys.Create
import Pintos.FileSys.Grow
import Pintos.FileSys.Extend
import Pintos.FileSys.Write
import Pintos.FileSys.Heap
import Pintos.FileSys.InodeOps
import Pintos.FileSys.Release
import Pintos.FileSys.OpenFiles
import Pintos.FileSys.DirectoryView
import Pintos.FileSys.Healthy
import Pintos.FileSys.FileCalls
import Pintos.FileSys.Names
import Pintos.FileSys.CreateRemove
import Pintos.FileSys.Mount
import Pintos.FileSys.Format
import Pintos.FileSys.Calls
import Pintos.FileSys.FileArray
import Pintos.FileSys.Sectors
import Pintos.FileSys.SystemSectors
import Pintos.FileSys.Persistence
import Pintos.Devices.Intq
import Pintos.Devices.IntqSafety
import Pintos.Memory.Malloc
import Pintos.Memory.Arenas
import Pintos.Memory.MallocSafety
import Pintos.Vm.Inode
import Pintos.Vm.Layouts
import Pintos.Vm.Swap
import Pintos.Vm.SwapSlots
import Pintos.Vm.Pools
import Pintos.Vm.Kernel
import Pintos.Vm.Load
import Pintos.Vm.Ownership
import Pintos.Vm.Frames
import Pintos.Vm.Processes
import Pintos.Threads.Sched
import Pintos.Threads.Sync
import Pintos.Threads.Queues
import Pintos.Threads.Switch
import Pintos.Threads.Waiting
import Pintos.Threads.Locks
import Pintos.Threads.Semaphores
import Pintos.Threads.Steps
import Pintos.Threads.Runs
import Pintos.Threads.Priority
import Pintos.Threads.Machine
import Pintos.Threads.Interrupt
import Pintos.Threads.Safety
import Pintos.Threads.Sentinels
import Pintos.Threads.Alarm
import Pintos.Lib.Bits
import Pintos.Memory.Pagedir
import Pintos.Memory.PagedirMap
import Pintos.Memory.PagedirRuns
import Pintos.FileSys.BitmapElems
import Pintos.FileSys.FreeMapRuns
import Pintos.FileSys.DirectoryMap
import Pintos.Lib.Tally
import Pintos.FileSys.OpenTable
import Pintos.FileSys.OpenTableSafety
import Pintos.FileSys.OpenTableRuns
import Pintos.FileSys.OpenTableFrame
import Pintos.Userprog.ExecFile
import Pintos.Vm.Eviction
import Pintos.Memory.Palloc
import Pintos.FileSys.Space
import Pintos.FileSys.SpaceReturned
import Pintos.Shell.Jobs
import Pintos.Shell.Msh
import Pintos.Shell.MshRuns
import Pintos.Shell.MshRaces
import Pintos.Lib.ClassSet
import Pintos.Containers.Hash
import Pintos.FileSys.Ustar
import Pintos.FileSys.Fsutil
import Pintos.FileSys.NamedFiles
import Pintos.FileSys.Archive
import Pintos.FileSys.Extraction
import Pintos.FileSys.RoundTrip
import Pintos.Lib.Linked
import Pintos.Containers.List
import Pintos.Vm.SupTable
import Pintos.Lib.Words
import Pintos.Lib.Memory
import Pintos.Stdio.Conversion
import Pintos.Stdio.Integer
import Pintos.Stdio.Printf
import Pintos.Stdio.Vsnprintf
import Pintos.Stdio.Width
import Pintos.Strings.Memmove
import Pintos.Strings.Strtok
import Pintos.Strings.Tokens
import Pintos.Userprog.Kernel
import Pintos.Userprog.Pages
import Pintos.Userprog.SetupStack
import Pintos.Userprog.StackLayout
import Pintos.Userprog.StackRun
import Pintos.Userprog.ArgumentPassing
import Pintos.Userprog.Load
import Pintos.Userprog.Frame
import Pintos.Userprog.PageDemand
import Pintos.Userprog.Segments
import Pintos.Userprog.OpenFiles
import Pintos.Userprog.Execute
import Pintos.Userprog.ExecuteCases
import Pintos.Userprog.Leaks
import Pintos.Lib.Quotient
import Pintos.Numbers.Arithmetic
import Pintos.Memory.Calloc
import Pintos.Lib.Chain
import Pintos.Containers.ListOps
import Pintos.Containers.Sequences
import Pintos.Containers.ListLoops
import Pintos.Lib.NaturalMerge
import Pintos.Lib.Numerals
import Pintos.Containers.ListSort
import Pintos.Lib.Heapsort
import Pintos.Containers.Stdlib
import Pintos.Shell.Parseline
import Pintos.Devices.Partition
import Pintos.Threads.Condition
import Pintos.Vm.Records
import Pintos.Vm.FaultHandler
import Pintos.Vm.StackFrames
import Pintos.Userprog.Descriptors
import Pintos.Userprog.Wait
import Pintos.Userprog.Handshake
import Pintos.Userprog.Spawn
import Pintos.Userprog.SpawnOutcome
import Pintos.Vm.LockDiscipline
import Pintos.Devices.SerialSafety
import Pintos.Shell.Fib
import Pintos.FileSys.StoreRuns
