import LykOS.Lib.StringMem
import LykOS.Common.Sync.Mutex
import LykOS.Mm.Pmm.Greedy
import LykOS.Mm.Pmm.DoubleFree
import LykOS.Mm.Heap.Routing
import LykOS.Arch.X8664.Ptm.Clear
import LykOS.Arch.Ptm
import LykOS.Arch.X8664.Syscall
import LykOS.Arch.X8664.Thread
import LykOS.Arch.X8664.Interrupt
import LykOS.Arch.X8664.Ioapic
import LykOS.Fs.Vfs.Errors
import LykOS.Fs.Vfs.Flush
import LykOS.Mm.Vmm.Shared
import LykOS.Fs.Vfs.MountVnode
import LykOS.Lib.InPlace
import LykOS.Fs.Initrd.Archive
import LykOS.Fs.Initrd.Scan
import LykOS.Fs.Tmpfs.Copies
import LykOS.Fs.Listing
import LykOS.Fs.NameBounds
import LykOS.Sys.Sockets.Peer
import LykOS.Sys.Sockets.Fifo
import LykOS.Sys.Module.Info
import LykOS.Sys.ExecReturns
import LykOS.Sys.Sched.RefCount
import LykOS.Dev.Device
import LykOS.Dev.Block
import LykOS.Dev.Ahci
import LykOS.Syscalls.Mmap
import LykOS.Syscalls.Seek
import LykOS.Fs.Initrd.Read
