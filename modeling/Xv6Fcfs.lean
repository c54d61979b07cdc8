import Xv6Fcfs.Process.Fcfs
import Xv6Fcfs.Process.CleanSlot
import Xv6Fcfs.Process.Getppid
import Xv6Fcfs.Process.Wait
import Xv6Fcfs.Process.RoundRobin
import Xv6Fcfs.Disk.Livelock
import Xv6Fcfs.Disk.Protocol
import Xv6Fcfs.Bio.Lru
import Xv6Fcfs.Bio.Reserve
import Xv6Fcfs.Log.Sync
import Xv6Fcfs.Log.Coherence
import Xv6Fcfs.Fs.Refine
import Xv6Fcfs.Fs.Dirmap
import Xv6Fcfs.Fs.Reach
import Xv6Fcfs.Fs.Write
import Xv6Fcfs.Fs.Namei
import Xv6Fcfs.Vm.Refine
import Xv6Fcfs.Vm.Lazy
import Xv6Fcfs.Vm.Usercopy
import Xv6Fcfs.Pipes.Ready
import Xv6Fcfs.Files.Consume
import Xv6Fcfs.Files.Writers
import Xv6Fcfs.Shell.Exact
import Xv6Fcfs.Shell.Redirect
import Xv6Fcfs.Umalloc.Break
import Xv6Fcfs.Inodes.Reuse
import Xv6Fcfs.Sched.Order
import Xv6Fcfs.Sched.Sleeplock
import Xv6Fcfs.Sys.Safety
import Xv6Fcfs.Sys.Stack
import Xv6Fcfs.Grep.Loop
import Xv6Fcfs.Clib.Printint
import Xv6Fcfs.Sched.Scan
import Xv6Fcfs.Sched.Nesting
