import Xv6.Param
import Xv6.Lib.LittleEndian
import Xv6.Lib.WriteSeq
import Xv6.Lib.Transition
import Xv6.Lib.Tally
import Xv6.Log.Header
import Xv6.Log.Commit
import Xv6.Log.Protocol
import Xv6.Proofs.Log.Crash
import Xv6.Proofs.Log.GroupCommit
import Xv6.Proofs.Log.Reservation
import Xv6.Fs.Inode
import Xv6.Lib.CString
import Xv6.Fs.Dir
import Xv6.Fs.Syscall
import Xv6.Lib.StateExcept
import Xv6.Proofs.Fs.Inode
import Xv6.Blocks.Dev
import Xv6.Blocks.Inode
import Xv6.Proofs.Blocks.Bmap
import Xv6.Proofs.Blocks.Content
import Xv6.Proofs.Blocks.UserCopy
import Xv6.Blocks.Ops
import Xv6.Proofs.Blocks.Alloc
import Xv6.Fs.Namespace
import Xv6.Lib.Reach
import Xv6.Proofs.Fs.Bookkeeping
import Xv6.Vm.Copy
import Xv6.Fs.Read
import Xv6.Proofs.Fs.Read
import Xv6.Pipe.Pipe
import Xv6.Proofs.Pipe.Fifo
import Xv6.Proc.Table
import Xv6.Proofs.Proc.Frame
import Xv6.Proofs.Proc.Tree
import Xv6.Proofs.Proc.Steps
import Xv6.Proofs.Proc.Holders
import Xv6.Proofs.Proc.FileCalls
import Xv6.Proofs.Proc.Files
import Xv6.Lib.Ring
import Xv6.Bio.Cache
import Xv6.Proofs.Bio.Cache
import Xv6.Pipe.Wakeup
import Xv6.Proofs.Pipe.Wakeup
import Xv6.Console
import Xv6.Proofs.Console
import Xv6.Proc.Sched
import Xv6.Proofs.Proc.Sched
import Xv6.Bio.Readers
import Xv6.Proofs.Bio.Readers
import Xv6.Blocks.Shared
import Xv6.Proofs.Blocks.Shared
import Xv6.Mkfs
import Xv6.Proofs.Mkfs
import Xv6.Lib.Window
import Xv6.Virtio
import Xv6.Proofs.Virtio
import Xv6.Blocks.Image
import Xv6.Proofs.Mkfs.Sim
import Xv6.Uart
import Xv6.Proofs.Uart
import Xv6.Vm.Sv39
import Xv6.Proofs.Vm.Walk
import Xv6.Proofs.Vm.Map
import Xv6.Proofs.Vm.UserCopy
import Xv6.Vm.Grow
import Xv6.Proofs.Vm.Grow
import Xv6.Proofs.Vm.Unmap
import Xv6.Proofs.Vm.Alloc
import Xv6.Proofs.Vm.Fork
import Xv6.Proofs.Fs.Dir
import Xv6.Lib.Move
import Xv6.Memmove
import Xv6.Proofs.Memmove
import Xv6.Lib.Regex
import Xv6.User.Grep
import Xv6.Proofs.User.Grep
import Xv6.Printf
import Xv6.User.Printf
import Xv6.Proofs.Printf
import Xv6.Lib.Threaded
import Xv6.Proofs.Vm.Kalloc
import Xv6.User.Umalloc
import Xv6.Proofs.User.Umalloc
import Xv6.User.Sh
import Xv6.Proofs.User.ShGrammar
import Xv6.Proofs.User.ShParse
import Xv6.Proofs.Fs.Path
import Xv6.Lib.Cycle
import Xv6.Lib.Tiling
import Xv6.Proofs.User.Heap
import Xv6.Proofs.User.HeapRun
