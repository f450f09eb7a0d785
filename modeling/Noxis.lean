import Noxis.Bytes
import Noxis.Loop
import Noxis.Run
import Noxis.Pmm
import Noxis.Radix
import Noxis.Vmm
import Noxis.VmTables
import Noxis.Trees
import Noxis.VmMap
import Noxis.VmCount
import Noxis.VmFork
import Noxis.VmFree
import Noxis.VmAccess
import Noxis.VmRoom
import Noxis.Frames
import Noxis.CowFork
import Noxis.KernelStore
import Noxis.Elf
import Noxis.Built
import Noxis.Process
import Noxis.ElfReads
import Noxis.ElfLoad
import Noxis.ExecArgv
import Noxis.Sharers
import Noxis.Touch
import Noxis.Linked
import Noxis.BufCache
import Noxis.BufIo
import Noxis.BufCoherent
import Noxis.BufHash
import Noxis.BufRead
import Noxis.Bitmap
import Noxis.Volume
import Noxis.BmpAlloc
import Noxis.Drivers
import Noxis.Procfs
import Noxis.Owned
import Noxis.VolumeInv
import Noxis.FileData
import Noxis.FileStore
import Noxis.Ring
import Noxis.Pipe
import Noxis.Fd
import Noxis.PipeEnds
import Noxis.Sched
import Noxis.RoundRobin
import Noxis.Block
import Noxis.Loaded
import Noxis.Reused
import Noxis.Kheap
import Noxis.HeapFrame
import Noxis.HeapBytes
import Noxis.Slab
import Noxis.Fuel
import Noxis.Nsh
import Noxis.NshScript
import Noxis.NshExec
import Noxis.NshCollect
import Noxis.NshNest
import Noxis.NshParse
import Noxis.NshPipeline
import Noxis.CStr
import Noxis.Environ
import Noxis.EnvBounds
import Noxis.Dir
import Noxis.DirSpec
import Noxis.Signal
import Noxis.StackCode
import Noxis.Context
import Noxis.Threads
import Noxis.Task
import Noxis.Handlers
import Noxis.Parents
import Noxis.Path
import Noxis.Cwd
import Noxis.Normal
import Noxis.Resolve
import Noxis.Atomic
import Noxis.Discard
import Noxis.Brk
import Noxis.KernelHalf
import Noxis.Fs
import Noxis.Capacity
import Noxis.Create
import Noxis.Filed
import Noxis.Created
import Noxis.DirMap
import Noxis.Cursor
import Noxis.Getdents
import Noxis.Files
import Noxis.Seek
import Noxis.ReadBuf
import Noxis.Split
import Noxis.Written
import Noxis.Overwrite
import Noxis.Shared
import Noxis.Entered
import Noxis.Opened
import Noxis.Table
import Noxis.Coherent
import Noxis.OpenFails
import Noxis.Removed
import Noxis.Changes
import Noxis.Leaks
import Noxis.TestCmd
