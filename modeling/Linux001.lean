import Linux001.Lib.Runs
import Linux001.Lib.Counting
import Linux001.Lib.Loops
import Linux001.Mm.Memory
import Linux001.Mm.PageTables
import Linux001.Mm.RefCount
import Linux001.Mm.RefCountOps
import Linux001.Mm.ExactCounts
import Linux001.Mm.Mmu
import Linux001.Mm.CopyOnWrite
import Linux001.Mm.Isolation
import Linux001.InodeTable.Counts
import Linux001.InodeTable.Unique
import Linux001.BufferCache.Queues
import Linux001.BufferCache.Processes
import Linux001.BufferCache.Recycling
import Linux001.BufferCache.Locks
import Linux001.BufferCache.Clean
import Linux001.BufferCache.SingleCopy
import Linux001.Fs.Blocks
import Linux001.Fs.Model
import Linux001.Fs.Mount
import Linux001.Fs.EmptyDir
import Linux001.Fs.Calls
import Linux001.Fs.ZoneTree
import Linux001.Fs.Truncation
import Linux001.Fs.DirectoryBlocks
import Linux001.Fs.Directory
import Linux001.Fs.Searches
import Linux001.Fs.Walks
import Linux001.Fs.PathNames
import Linux001.Fs.Pipe
import Linux001.Sched.WaitQueue
import Linux001.Hd.Driver
import Linux001.Hd.Interrupts
import Linux001.Hd.Queue
import Linux001.Hd.Retries
import Linux001.Hd.Addressing
import Linux001.Lib.Sweeps
import Linux001.Hd.Elevator
import Linux001.Names.Processes
import Linux001.Names.Steps
import Linux001.Names.References
import Linux001.Names.Quiet
import Linux001.Names.Lookups
import Linux001.Names.Paths
import Linux001.Names.Unlinks
import Linux001.Names.Exclusive
import Linux001.Files.Writers
import Linux001.Files.SharedWrites
import Linux001.Files.Descriptors
import Linux001.Sched.Fpu
import Linux001.Sched.Interruptible
import Linux001.Sched.Schedule
import Linux001.Sched.TimeSlices
import Linux001.Files.OpenCounts
import Linux001.Files.CloseOnExec
import Linux001.Files.Offsets
import Linux001.Tty.Video
import Linux001.Tty.Console
import Linux001.Tty.Cursor
import Linux001.Tty.Scrolling
import Linux001.Tty.Queue
import Linux001.Tty.Cooked
import Linux001.Tty.Screens
import Linux001.Tty.Echoes
import Linux001.Tty.Queries
import Linux001.Tty.SavedCursor
import Linux001.Tty.Write
import Linux001.Tty.Serial
import Linux001.Tty.Keyboard
import Linux001.Tty.Interrupts
import Linux001.Tty.Read
import Linux001.Tty.Alarms
import Linux001.Tty.Editing
import Linux001.Tty.LineEditing
import Linux001.Mm.Directory
import Linux001.Mm.Segment
import Linux001.Mm.AddressSpaces
import Linux001.Mm.Slots
import Linux001.Inodes.Names
import Linux001.Lib.Ledger
import Linux001.Inodes.References
import Linux001.Inodes.Calls
import Linux001.Inodes.Exact
import Linux001.Inodes.OnDisk
import Linux001.Mm.Confinement
import Linux001.Mm.ProcessTable
import Linux001.Mm.Zombies
import Linux001.Inodes.Privileges
import Linux001.Fs.Access
import Linux001.Lib.Invariants
import Linux001.Fs.Permissions
import Linux001.Fs.Owners
import Linux001.BufferCache.Submissions
import Linux001.Bitmaps.Allocation
import Linux001.Bitmaps.Exclusive
import Linux001.BufferCache.Alone
import Linux001.Fs.DiskInode
import Linux001.Fs.Sync
import Linux001.BufferCache.Quiescent
import Linux001.Lib.Overlay
import Linux001.BufferCache.BlockDevice
import Linux001.BufferCache.BlockNumbers
import Linux001.Lib.UserStores
import Linux001.UserMemory.CopyOut
import Linux001.UserMemory.Verified
import Linux001.Mm.FreeFrames
import Linux001.Mm.OutOfMemory
import Linux001.Mm.VerifyArea
import Linux001.Mm.KernelStores
import Linux001.UserMemory.SharedPages
import Linux001.Lib.Effects
import Linux001.Lib.Calendar
import Linux001.Clock.Mktime
import Linux001.Clock.Startup
import Linux001.Signals.Kill
import Linux001.Lib.I386
import Linux001.Signals.Delivery
import Linux001.Exec.Model
import Linux001.Exec.Arguments
import Linux001.Exec.Header
import Linux001.Exec.UserSpace
import Linux001.Exec.NewSpace
import Linux001.Exec.Stack
import Linux001.Exec.Image
import Linux001.Printf.Number
import Linux001.Printf.Format
import Linux001.Printf.Directives
import Linux001.Fs.BlockMap
import Linux001.Fs.NewBlocks
import Linux001.Fs.FileContents
import Linux001.Fs.ByteFiles
import Linux001.Boot.Loader
import Linux001.Boot.Paging
import Linux001.Strings.Scanning
import Linux001.Strings.Copying
import Linux001.Strings.Storing
import Linux001.Strings.Comparing
import Linux001.Traps.Handlers
import Linux001.Traps.Gates
import Linux001.Traps.Contexts
import Linux001.Processes.Model
import Linux001.Processes.Life
import Linux001.Processes.Times
import Linux001.Processes.Sessions
import Linux001.BufferCache.Layout
import Linux001.BufferCache.Pointers
import Linux001.Mm.Descriptors
