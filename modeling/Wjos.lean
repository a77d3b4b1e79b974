import Wjos.Lib.Run
import Wjos.Lib.CInt
import Wjos.Lib.Queues
import Wjos.Lib.Segment
import Wjos.Tools.Bitmap
import Wjos.Tools.List
import Wjos.Core.AddrAlloc
import Wjos.Core.Task
import Wjos.Ipc.Mutex
import Wjos.Ipc.Sem
import Wjos.Core.Sched
import Wjos.Core.SchedInv
import Wjos.Core.SchedRefine
import Wjos.Core.SchedTheorems
import Wjos.Core.SchedFrame
import Wjos.Ipc.MutexTheorems
import Wjos.Ipc.SemTheorems
import Wjos.Core.WaitExit
import Wjos.Fs.Fs
import Wjos.Fs.FsTheorems
import Wjos.Fs.Fatfs.Volume
import Wjos.Fs.Fatfs.Fatfs
import Wjos.Fs.Fatfs.Image
import Wjos.Fs.Fatfs.Cluster
import Wjos.Fs.Fatfs.Directory
import Wjos.Fs.Fatfs.DirMap
import Wjos.Fs.Fatfs.Owner
import Wjos.Fs.Fatfs.CrossLink
import Wjos.Fs.Fatfs.Contents
import Wjos.Fs.Fatfs.Append
import Wjos.Dev.Console
import Wjos.Dev.ConsoleTheorems
import Wjos.Ipc.Blocking
import Wjos.Lib.Ring
import Wjos.Dev.Tty
import Wjos.Dev.TtyIn
import Wjos.Dev.TtyOut
import Wjos.Fs.Fatfs.Calls
import Wjos.Fs.Fatfs.ReadOnly
import Wjos.Core.Process
import Wjos.Core.ProcessSlots
import Wjos.Core.ProcessExits
import Wjos.Fs.OpenClose
import Wjos.Fs.OpenCloseTheorems
import Wjos.Fs.Fatfs.FreeList
import Wjos.Fs.Fatfs.Transfers
import Wjos.Core.Paging
import Wjos.Cpu.Gdt
import Wjos.Core.Life
import Wjos.Core.LifeTheorems
import Wjos.Dev.Dev
import Wjos.Dev.ConsoleIsolation
import Wjos.Fs.Fatfs.FreeChain
import Wjos.Fs.Fatfs.Alloc
import Wjos.Fs.Fatfs.DeviceCalls
import Wjos.Fs.Fatfs.AllocTheorems
import Wjos.Fs.Fatfs.Seek
import Wjos.Fs.Fatfs.SeekRead
import Wjos.Fs.Fatfs.Overlay
import Wjos.Fs.Fatfs.OverlayTheorems
import Wjos.Fs.Fatfs.Mount
import Wjos.Fs.Fatfs.Names
import Wjos.Fs.Path
import Wjos.Fs.Devfs
import Wjos.Fs.Fatfs.FatArray
import Wjos.Core.Frames
import Wjos.Core.CopyUvm
import Wjos.Core.CopyUvmTheorems
import Wjos.Core.Fork
import Wjos.Fs.Fatfs.CacheFaults
import Wjos.Fs.Fatfs.Counts
import Wjos.Lib.Stretch
import Wjos.Tools.BitmapRuns
import Wjos.Core.MemoryInit
import Wjos.Core.PageTableRuns
import Wjos.Core.AllocPages
import Wjos.Core.Sbrk
import Wjos.Core.TaskPair
import Wjos.Core.Sleepers
import Wjos.Core.RoundRobin
import Wjos.Core.UserMemory
import Wjos.Core.CopyArgs
import Wjos.Core.SpaceGrowth
import Wjos.Core.LoadElf
import Wjos.Core.LoadFat
import Wjos.Dev.Time
import Wjos.Dev.TimeTheorems
import Wjos.Dev.Cmos
import Wjos.Dev.ConsoleErase
import Wjos.Dev.ConsoleParams
import Wjos.Base.HistoryCmd
import Wjos.Lib.Recent
import Wjos.Base.HistoryList
import Wjos.Base.HistoryWalk
import Wjos.Base.HistoryGet
import Wjos.Dev.TtyLine
import Wjos.Dev.TtyTyping
import Wjos.Dev.TtyRecall
import Wjos.Dev.TtyReader
import Wjos.Core.NewSpace
import Wjos.Core.ExecFiles
import Wjos.Core.ExecFailed
import Wjos.Dev.TtyFifo
import Wjos.Dev.Keyboard
import Wjos.Lib.Family
import Wjos.Dev.Terminals
import Wjos.Dev.Paper
import Wjos.Dev.Printed
import Wjos.Dev.Disk
import Wjos.Dev.DiskTheorems
import Wjos.Dev.DiskProgress
import Wjos.Loader.ReadDisk
import Wjos.Loader.LoadKernel
import Wjos.Tools.ListRuns
import Wjos.Lib.Track
import Wjos.Tools.Strncpy
import Wjos.Dev.Clock
import Wjos.Lib.Numeral
import Wjos.Tools.Itoa
import Wjos.Tools.Log
import Wjos.Cpu.DumpRegs
import Wjos.Lib.Words
import Wjos.Shell.CmdExecutor
import Wjos.Shell.ParseArg
import Wjos.Core.SameMap
import Wjos.Core.FreshMemory
import Wjos.Core.SameImage
import Wjos.Core.FreshImage
