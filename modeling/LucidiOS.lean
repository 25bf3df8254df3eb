import LucidiOS.Memory.ByteMemory
import LucidiOS.Memory.WordArray
import LucidiOS.Memory.CellCopy
import LucidiOS.Memory.Packed
import LucidiOS.Control.Loop
import LucidiOS.Control.RecordSearch
import LucidiOS.Control.StepSequence
import LucidiOS.Allocation.RegionPool
import LucidiOS.Allocation.FirstFit
import LucidiOS.Allocation.Fragmentation
import LucidiOS.Paging.Hierarchy
import LucidiOS.Paging.Entries
import LucidiOS.Paging.Rights
import LucidiOS.Paging.TranslationCache
import LucidiOS.Pmm.PageBitmap
import LucidiOS.Pmm.FrameOwnership
import LucidiOS.Kernel.State
import LucidiOS.Kernel.MemoryCopy
import LucidiOS.Pmm.Storage
import LucidiOS.Pmm.MemoryMap
import LucidiOS.Pmm.Completeness
import LucidiOS.Pmm.BootBitmap
import LucidiOS.Pmm.HeapBitmap
import LucidiOS.Pmm.Placement
import LucidiOS.Pmm.Draining
import LucidiOS.Vmm.VmmAlloc
import LucidiOS.Vmm.Mapping
import LucidiOS.Vmm.Supply
import LucidiOS.Vmm.Correctness
import LucidiOS.Vmm.Exhaustion
import LucidiOS.Vmm.FirstStore
import LucidiOS.Vmm.Confinement
import LucidiOS.Vmm.DirectMap
import LucidiOS.Vmm.AccessRights
import LucidiOS.Vmm.MemoryRuns
import LucidiOS.Vmm.TlbCoherence
import LucidiOS.Interrupt.StackMachine
import LucidiOS.Interrupt.EntryStub
import LucidiOS.Interrupt.StackDiscipline
import LucidiOS.Interrupt.DescriptorTable
import LucidiOS.Interrupt.GateLayout
import LucidiOS.Segments.GlobalTable
import LucidiOS.Device.Mmio
import LucidiOS.Device.DownCounter
import LucidiOS.Device.InterruptController
import LucidiOS.Device.Uart
import LucidiOS.Acpi.Tables
import LucidiOS.Acpi.Walks
import LucidiOS.Acpi.Discovery
import LucidiOS.Kernel.MemoryCompare
import LucidiOS.Apic.Controllers
import LucidiOS.Apic.PitCalibration
import LucidiOS.Apic.VectorClosure
import LucidiOS.Apic.Redirection
import LucidiOS.Heap.KernelHeap
import LucidiOS.Heap.Ownership
import LucidiOS.Heap.Backing
import LucidiOS.Heap.Requests
import LucidiOS.Heap.Fragmentation
import LucidiOS.Heap.Objects
import LucidiOS.Heap.PagedHeap
import LucidiOS.Heap.SharedMemory
import LucidiOS.Boot.Sequence
import LucidiOS.Boot.Start
import LucidiOS.Boot.Mappings
import LucidiOS.Boot.HeapFrames
import LucidiOS.Boot.KernelMemory
import LucidiOS.Boot.IoApicUse
import LucidiOS.Boot.Descriptors
import LucidiOS.Display.Raster
import LucidiOS.Display.TextGrid
import LucidiOS.Framebuffer.Console
import LucidiOS.Framebuffer.Bounds
import LucidiOS.Framebuffer.Refinement
import LucidiOS.Framebuffer.Scrolling
import LucidiOS.Framebuffer.RightEdge
import LucidiOS.Framebuffer.Session
import LucidiOS.Text.CString
import LucidiOS.Text.Numeral
import LucidiOS.Serial.Port
import LucidiOS.Serial.Numbers
import LucidiOS.Serial.Integers
import LucidiOS.Serial.Format
import LucidiOS.Serial.Printf
import LucidiOS.Serial.Rendering
import LucidiOS.Serial.Transmission
import LucidiOS.Interrupt.Handler
import LucidiOS.Interrupt.Service
import LucidiOS.Interrupt.KeyboardBytes
import LucidiOS.Interrupt.ScancodeOutput
import LucidiOS.Interrupt.ConsoleOutput
import LucidiOS.Interrupt.HandlerMessages
