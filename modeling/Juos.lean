import Juos.Ext2.Remount
import Juos.Ata.Identify
import Juos.Terminal.InputBuffer
import Juos.Terminal.Keyboard
import Juos.Terminal.LineEditing
import Juos.Scheduler.Registered
import Juos.Stdio.Printf
import Juos.Stdio.Format
import Juos.DataStructures.Concatenation
import Juos.DataStructures.StaticStack
import Juos.DataStructures.LinkedList
import Juos.DataStructures.StrCmp
import Juos.Ext2.SuperBlocks
import Juos.Ext2.GroupRoundTrip
import Juos.Ext2.CacheEntries
import Juos.Ext2.BlockBuffer
import Juos.Ext2.Instances
import Juos.Ata.ByteAccess
import Juos.Interrupts.Handlers
import Juos.Interrupts.Stubs
import Juos.Interrupts.Startup
import Juos.Interrupts.Lines
import Juos.Interrupts.Acknowledge
import Juos.Interrupts.Descriptors
import Juos.Kmm.Initialize
import Juos.Kmm.Region
import Juos.Kmm.Spaces
import Juos.Kmm.Tiling
import Juos.Paging.Destroy
import Juos.Paging.Leaks
import Juos.Paging.MapRange
import Juos.Paging.Isolation
import Juos.Paging.Identity
import Juos.Paging.PrimitiveHeap
import Juos.Paging.BumpAllocator
import Juos.Scheduler.AddressSpaces
import Juos.Scheduler.Fairness
import Juos.Scheduler.Cancel
import Juos.Scheduler.Contexts
import Juos.Scheduler.Shell
import Juos.Ext2.Layout
import Juos.Ext2.Fs
import Juos.Ext2.BlockIO
import Juos.Ext2.Groups
import Juos.Kmm.FastBins
import Juos.Kmm.Coalesce
import Juos.Kmm.Accounting
import Juos.Terminal.Tty
import Juos.Terminal.LogLines
import Juos.DataStructures.Vector
import Juos.DataStructures.String
import Juos.Kmm.BestFit
import Juos.Kmm.HoleReuse
import Juos.Stdio.Format
import Juos.Terminal.LogLines
import Juos.Runtime.Atexit
import Juos.Ext2.OnAta
