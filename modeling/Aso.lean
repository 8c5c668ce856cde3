import Aso.Xv6.Log.Crash
import Aso.Xv6.Log.Capacity
import Aso.Xv6.Ptable.ExitCode
import Aso.Xv6.Fs.Shared
import Aso.Xv6.Pipe
import Aso.Xv6.Ptable.Kill
import Aso.Xv6.Fs.Freemap
import Aso.Xv6.Mkfs.Consistent
import Aso.Xv6.Names.LinkCount
import Aso.Xv6.Vm.Trap
import Aso.Xv6.Kalloc.Reaped
import Aso.Xv6.Console
import Aso.Xv6.Grep
import Aso.Xv6.Umalloc
import Aso.Xv6.Sleep.Wakeup
import Aso.Xv6.Bio.Store
import Aso.Xv6.Icache.References
import Aso.Posix.MergeMystringsSplit
import Aso.Xv6.Ptable.WaitStatus
import Aso.Xv6.Vm.ExecFile
import Aso.Xv6.Fs.Walk
