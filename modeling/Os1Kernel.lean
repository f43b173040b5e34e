import Os1Kernel.Lib.Prog
import Os1Kernel.Lib.Linked
import Os1Kernel.Lib.Tiling
import Os1Kernel.Source.Queue
import Os1Kernel.Heap.Frame
import Os1Kernel.Heap.Canonical
import Os1Kernel.Heap.Sizes
import Os1Kernel.Heap.Layout
import Os1Kernel.Threads.Queues
import Os1Kernel.Source.Machine
import Os1Kernel.Threads.SemOpen
import Os1Kernel.Threads.Close
import Os1Kernel.Threads.Places
import Os1Kernel.Threads.Units
import Os1Kernel.Console.Lock
import Os1Kernel.Console.Line
import Os1Kernel.Traps.Ticks
import Os1Kernel.Console.Decimal
import Os1Kernel.Console.Buffer
import Os1Kernel.Threads.Deques
import Os1Kernel.Threads.Joins
import Os1Kernel.Threads.Slices
import Os1Kernel.Threads.Refinement
import Os1Kernel.Threads.CharsRun
import Os1Kernel.Traps.Transparent
import Os1Kernel.Console.Exceptions
import Os1Kernel.Traps.Yield
import Os1Kernel.Threads.Atomic
import Os1Kernel.Threads.Lifecycle
import Os1Kernel.Client.BoundedBuffer
import Os1Kernel.Client.Printing
