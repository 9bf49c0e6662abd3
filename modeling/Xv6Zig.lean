import Xv6Zig.Lib.Run
import Xv6Zig.Lib.Circular
import Xv6Zig.Lib.Updates
import Xv6Zig.Lib.Radix
import Xv6Zig.Lib.Outcome
import Xv6Zig.Param
import Xv6Zig.Spsc
import Xv6Zig.Log
import Xv6Zig.LogCrash
import Xv6Zig.LogRefines
import Xv6Zig.LogGroups
import Xv6Zig.Kalloc
import Xv6Zig.Vm
import Xv6Zig.Uvm
import Xv6Zig.Ringbuf
import Xv6Zig.Proc
import Xv6Zig.Lib.Ledger
import Xv6Zig.RingbufSpec
import Xv6Zig.KernelInv
import Xv6Zig.RingbufInv
import Xv6Zig.RingbufCalls
import Xv6Zig.Images
import Xv6Zig.ProcInv
import Xv6Zig.ExecInv
import Xv6Zig.KernelRuns
import Xv6Zig.Files
import Xv6Zig.FilesInv
import Xv6Zig.Conserve
import Xv6Zig.Lib.Bump
import Xv6Zig.Regions
import Xv6Zig.Pipe
import Xv6Zig.PipeStream
import Xv6Zig.PipeWakeup
import Xv6Zig.TextPages
import Xv6Zig.UserStores
import Xv6Zig.ProcPlaces
import Xv6Zig.ProcSlots
import Xv6Zig.Reaping
import Xv6Zig.FileRefs
import Xv6Zig.FreeList
import Xv6Zig.PageMem
import Xv6Zig.PageMaps
import Xv6Zig.RingContents
import Xv6Zig.RingRuns
import Xv6Zig.UserRingbuf
import Xv6Zig.Sched
import Xv6Zig.SleepWakeup
import Xv6Zig.Bio
import Xv6Zig.BioInv
import Xv6Zig.Itable
import Xv6Zig.ItableInv
import Xv6Zig.Lib.Chain
import Xv6Zig.Queue
import Xv6Zig.RingMapping
import Xv6Zig.RingNames
import Xv6Zig.InodeContents
import Xv6Zig.InodeRuns
import Xv6Zig.Lib.RingIndex
import Xv6Zig.UserPrintf
import Xv6Zig.Virtio
import Xv6Zig.VirtioInv
import Xv6Zig.VirtioRuns
import Xv6Zig.Fs.Format
import Xv6Zig.Lib.Pointers
import Xv6Zig.Fs.Blocks
import Xv6Zig.Fs.Owns
import Xv6Zig.Fs.ReadWrite
import Xv6Zig.PipeReads
import Xv6Zig.Fs.LogWrites
import Xv6Zig.Fs.FileBytes
import Xv6Zig.Fs.FileWrite
import Xv6Zig.Fs.FileRead
import Xv6Zig.Fs.ShortWrites
import Xv6Zig.CopyMem
import Xv6Zig.Fs.Inode
import Xv6Zig.MemMove
import Xv6Zig.Grep
import Xv6Zig.SysSleep
import Xv6Zig.Console
import Xv6Zig.Fs.Paths
import Xv6Zig.Shell
import Xv6Zig.Lib.Cycle
import Xv6Zig.Umalloc
import Xv6Zig.Lib.Monitor
import Xv6Zig.SleepLock
import Xv6Zig.Uart
