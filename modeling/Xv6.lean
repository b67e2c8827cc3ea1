import Xv6.Bio.Durable
import Xv6.Proc.Wait
import Xv6.File.Refs
import Xv6.Sys.Balance
import Xv6.Proc.Sched
import Xv6.Proc.Cpu
import Xv6.Pipe.Stream
import Xv6.Pipe.Sleep
import Xv6.User.Parse
import Xv6.Vm.Sbrk
import Xv6.Vm.Roles
import Xv6.Fs.Full
import Xv6.Fs.Chunk
import Xv6.Bio.Lru
import Xv6.Fs.DirMap
import Xv6.Fs.Walk
import Xv6.User.Request
import Xv6.Proc.Sleeplock
import Xv6.Sys.Args
import Xv6.Console.Editor
import Xv6.Vm.Copy
import Xv6.Vm.Launch
import Xv6.Bio.Ide
import Xv6.User.GrepLoop
import Xv6.Vm.Memmove
