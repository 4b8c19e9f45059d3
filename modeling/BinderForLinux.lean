import BinderForLinux.Driver.Cancel
import BinderForLinux.Driver.Grants
import BinderForLinux.Driver.Alloc.Budget
import BinderForLinux.Driver.Async.Ready
import BinderForLinux.Driver.Deaths.Runs
import BinderForLinux.Ipc.Talk
import BinderForLinux.Ipc.In
import BinderForLinux.RefBase.Runs
import BinderForLinux.Proxy.Lock
import BinderForLinux.Driver.Deaths.Commands
import BinderForLinux.Proxy.BpBinder
import BinderForLinux.Proxy.Lifetime
import BinderForLinux.Parcel.Heap
import BinderForLinux.Parcel.Hostile
import BinderForLinux.Ashmem.Purges
import BinderForLinux.Ashmem.Protection
import BinderForLinux.MemoryDealer.Dealer
import BinderForLinux.MemoryDealer.Runs
import BinderForLinux.MemoryHeap.Runs
import BinderForLinux.VectorImpl.Runs
import BinderForLinux.Driver.Alloc.BestFit
import BinderForLinux.Driver.Pending
import BinderForLinux.Driver.Split
import BinderForLinux.ServiceManager.Reads
import BinderForLinux.Parcel.HandleTrip
import BinderForLinux.Driver.Apart
import BinderForLinux.ServiceManager.Puts
import BinderForLinux.Ashmem.Pages
import BinderForLinux.Ashmem.Intervals
import BinderForLinux.Ashmem.Shrink
import BinderForLinux.TextOutput.Runs
import BinderForLinux.Unicode.Lengths
import BinderForLinux.Unicode.RoundTrip
import BinderForLinux.VectorImpl.SizedRuns
import BinderForLinux.VectorImpl.SortedRuns
import BinderForLinux.Debug.HexDump
import BinderForLinux.Driver.Descriptors
import BinderForLinux.ServiceManager.Balance
import BinderForLinux.Looper.Wakes
