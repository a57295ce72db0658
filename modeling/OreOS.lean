import OreOS.Laws.Kernel.Waits
import OreOS.Laws.Kernel.Bitmap
import OreOS.Laws.Kernel.HeapCalls
import OreOS.Laws.Kernel.Net
import OreOS.Laws.Kernel.Terrain
import OreOS.Laws.Kernel.VoxelRange
import OreOS.Laws.Kernel.UserAlloc
import OreOS.Laws.Kernel.Shared
import OreOS.Laws.Kernel.Modules
import OreOS.Laws.Kernel.WaitQueue
import OreOS.Laws.Kernel.Directories
import OreOS.Laws.Kernel.Backends
import OreOS.Laws.Kernel.Replies
import OreOS.Laws.Kernel.Acpi
import OreOS.Laws.Kernel.Console
import OreOS.Laws.Kernel.Input
import OreOS.Laws.Kernel.Tar
import OreOS.Laws.Orec.Calls
import OreOS.Laws.Orec.Elements
import OreOS.Laws.Orec.Slots
import OreOS.Laws.Orec.Structs
import OreOS.Laws.Kernel.UserMemory
import OreOS.Laws.Kernel.OreSpace
import OreOS.Laws.Kernel.Spinlock
