import BlessOS.Guarantees.CyclicBufferFifo
import BlessOS.Guarantees.PageAllocator
import BlessOS.Guarantees.GdtFollowsCurrent
import BlessOS.Guarantees.SingleRunning
import BlessOS.Guarantees.SleepInterleaving
import BlessOS.Guarantees.TaskSelection
import BlessOS.Guarantees.PriorityAgeing
import BlessOS.Guarantees.TaskListIntegrity
import BlessOS.Guarantees.HeapSafety
import BlessOS.Guarantees.HeapFrame
import BlessOS.Guarantees.HeapContraction
import BlessOS.Guarantees.HeapInterior
import BlessOS.Guarantees.HeapOversize
import BlessOS.Guarantees.HeapProbes
import BlessOS.Guarantees.HeapAligned
import BlessOS.Guarantees.HeapCoalescing
import BlessOS.Guarantees.HeapOrder
import BlessOS.Guarantees.HeapLimit
import BlessOS.Guarantees.HeapPages
import BlessOS.Guarantees.HeapAccounting
import BlessOS.Guarantees.RequestQueues
import BlessOS.Guarantees.SubmitRequest
import BlessOS.Guarantees.EchoPipeline
import BlessOS.Guarantees.ConsoleBounds
import BlessOS.Guarantees.ShiftState
import BlessOS.Guarantees.InterruptReturn
import BlessOS.Guarantees.OrderedArrayMultiset
import BlessOS.Guarantees.PageMap
import BlessOS.Guarantees.NewPageTable
import BlessOS.Guarantees.MemMapBounds
import BlessOS.Guarantees.PageFault
import BlessOS.Guarantees.HeapPhysical
import BlessOS.Guarantees.QueueSize
import BlessOS.Guarantees.StatusPolling
import BlessOS.Guarantees.BufferLists
import BlessOS.Guarantees.ConsoleText
import BlessOS.Guarantees.ConsoleTerminal
import BlessOS.Guarantees.HardwareScroll
import BlessOS.Guarantees.FrameScan
import BlessOS.Guarantees.FramePages
import BlessOS.Guarantees.PrintkFormat
import BlessOS.Guarantees.PrintkBounds
import BlessOS.Guarantees.BootLoad
import BlessOS.Guarantees.HeapSearch
import BlessOS.Guarantees.HeapShrink
import BlessOS.Guarantees.ArrayCapacity
import BlessOS.Guarantees.MemCopy
import BlessOS.Guarantees.KernelImage
import BlessOS.Guarantees.EarlyTick
import BlessOS.Guarantees.DiskInterrupts
import BlessOS.Guarantees.TaskFairness
import BlessOS.Guarantees.ScreenRun
import BlessOS.Guarantees.TranslatedTables
import BlessOS.Guarantees.ExceptionReport
import BlessOS.Guarantees.IdtGates
