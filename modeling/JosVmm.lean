import JosVmm.Ept.Freed
import JosVmm.Ept.Lookup
import JosVmm.Ept.Update
import JosVmm.Pmap.AllOrNothing
import JosVmm.Pmap.Crowded
import JosVmm.Pmap.DoubleFree
import JosVmm.Guests.Atomic
import JosVmm.Guests.Counts
import JosVmm.Guests.Leak
import JosVmm.Guests.Reports
import JosVmm.Guests.Share
import JosVmm.Pmap.RefCount
import JosVmm.Vmx.Interrupts
import JosVmm.Vmx.Launch
import JosVmm.Vmx.Switch
import JosVmm.Vmx.Rip
import JosVmm.Guests.FreeList
import JosVmm.Guests.Faults
import JosVmm.Vmx.Rtc
import JosVmm.Guests.MemoryMap
import JosVmm.User.Descriptors
import JosVmm.User.Pipe
import JosVmm.User.Arena
import JosVmm.Envs.Fairness
import JosVmm.Envs.Ids
import JosVmm.Envs.Stall
import JosVmm.Envs.UserMem
import JosVmm.Guests.Sizing
import JosVmm.Fs.OpenFiles
import JosVmm.Fs.BlockCache
import JosVmm.Fs.Consistent
import JosVmm.Boot.RealRam
import JosVmm.Boot.KernelSpace
import JosVmm.Net.Mbox
import JosVmm.Net.Serv
import JosVmm.Envs.Isolation
import JosVmm.Envs.Reclaim
import JosVmm.Vmx.Efer
import JosVmm.Boot.Accounting
import JosVmm.Boot.Mmio
import JosVmm.Loader.Debug
import JosVmm.Loader.Create
import JosVmm.Fs.FileIds
import JosVmm.Fs.Readn
import JosVmm.User.FdTable
import JosVmm.User.GuestKernel
import JosVmm.User.Shell
import JosVmm.User.ElfHeaders
import JosVmm.Lib.Printfmt
