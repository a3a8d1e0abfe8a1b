import Kos.Theorems.Alloc
import Kos.Theorems.PhysRange
import Kos.Theorems.FindAddr
import Kos.Theorems.FirstFit
import Kos.Theorems.AllocAddr
import Kos.Theorems.Rights
import Kos.Theorems.IsMapped
import Kos.Theorems.BootPages
import Kos.Theorems.HeapMemory
import Kos.Theorems.Realloc
import Kos.Theorems.Load
import Kos.Theorems.Sbrk
import Kos.Theorems.Fork
import Kos.Theorems.Exec
import Kos.Theorems.Getcmdline
import Kos.Theorems.ReadyQueue
import Kos.Theorems.RoundRobin
import Kos.Theorems.Preemption
import Kos.Theorems.Sleep
import Kos.Theorems.Pids
import Kos.Theorems.Wait
import Kos.Theorems.Buffers
import Kos.Theorems.Read
import Kos.Theorems.Chkid
import Kos.Theorems.Descriptors
import Kos.Theorems.Readdir
import Kos.Theorems.Keyboard
import Kos.Theorems.TtyRead
import Kos.Theorems.TtyOutput
import Kos.Theorems.Ringbuffer
import Kos.Theorems.List
import Kos.Theorems.Array
import Kos.Theorems.CdiLists
import Kos.Theorems.StorageRead
import Kos.Theorems.StorageBuffer
import Kos.Theorems.Params
import Kos.Theorems.Numfmt
import Kos.Theorems.Format
import Kos.Theorems.Debug
import Kos.Theorems.Cmdline
import Kos.Theorems.SplitStores
import Kos.Theorems.Words
import Kos.Theorems.Switch
import Kos.Theorems.Critical
import Kos.Theorems.Irq
import Kos.Theorems.Console
