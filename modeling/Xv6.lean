import Xv6.Bio.Coherence
import Xv6.Console.LineEditor
import Xv6.Fs.Descriptor
import Xv6.Grep.Lines
import Xv6.Log.Reservation
import Xv6.Malloc.Requests
import Xv6.Pipe.Delivery
import Xv6.Pipe.Waiting
import Xv6.Proc.Exclusion
import Xv6.Proc.Interrupts
import Xv6.Proc.Kill
import Xv6.Proc.SchedTests
import Xv6.Shell.Redirections
import Xv6.Virtio.Steps
import Xv6.Vm.ExecCalls
import Xv6.Vm.Fork
import Xv6.Vm.Loading
import Xv6.Vm.Overrun
