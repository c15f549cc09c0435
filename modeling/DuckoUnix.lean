import DuckoUnix.Bio.Transparent
import DuckoUnix.Boot.Bootmain
import DuckoUnix.Boot.Mp
import DuckoUnix.Dcc.Decode
import DuckoUnix.Dcc.Image
import DuckoUnix.Exec.Stack
import DuckoUnix.Grep.Stream
import DuckoUnix.Ide.Errors
import DuckoUnix.Log.Admission
import DuckoUnix.Log.Atomicity
import DuckoUnix.Log.Buffers
import DuckoUnix.Log.Waiting
import DuckoUnix.Mkfs.Kernel
import DuckoUnix.Pipe.Fifo
import DuckoUnix.Pipe.Unread
import DuckoUnix.Sched.Kill
import DuckoUnix.Sched.Pids
import DuckoUnix.Sh.Exact
import DuckoUnix.Sh.Getcmd
import DuckoUnix.Sh.Prompt
import DuckoUnix.Sync.Sleeplock
import DuckoUnix.Sync.Spinlock
import DuckoUnix.Sys.Exec
import DuckoUnix.Syscall.Args
import DuckoUnix.Umalloc.Sizes
import DuckoUnix.User.Cal
import DuckoUnix.User.Calc
import DuckoUnix.User.De
import DuckoUnix.User.Memmove
import DuckoUnix.Vm.Translate
