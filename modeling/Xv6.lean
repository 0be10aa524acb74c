import Xv6.Log.Crash
import Xv6.Log.Space
import Xv6.Fs.Blocks
import Xv6.Fs.Components
import Xv6.Pipe.Sleepers
import Xv6.Sys.Counts
import Xv6.Sys.Paths
import Xv6.Sys.Dangling
import Xv6.Sys.LinkCounts
import Xv6.Fs.DirMap
import Xv6.Itable.Protocol
import Xv6.Proc.NoLostWakeup
import Xv6.Proc.Interrupts
import Xv6.Proc.Reaping
import Xv6.Console.Lines
import Xv6.Sys.SharedOffset
import Xv6.Virtio.Matching
import Xv6.User.Promise
import Xv6.Shell.RoundTrip
import Xv6.Exec.Headers
import Xv6.Proc.Pids
import Xv6.Proc.Killed
import Xv6.Vm.Spaces
