import KernelSim.Library.Runs
import KernelSim.Library.KeyedTree
import KernelSim.Memory.Block
import KernelSim.Memory.Tree
import KernelSim.Memory.Search
import KernelSim.Library.Dyadic
import KernelSim.Memory.Coverage
import KernelSim.Memory.Operations
import KernelSim.Memory.Overlap
import KernelSim.Memory.Markers
import KernelSim.Library.TreeContext
import KernelSim.Memory.Merge
import KernelSim.Generator.Reaping
import KernelSim.Library.BinaryHeap
import KernelSim.Library.RingBuffer
import KernelSim.Scheduler.ReadyStructures
import KernelSim.Scheduler.Scheduler
import KernelSim.Scheduler.Switching
import KernelSim.Scheduler.Moves
import KernelSim.Scheduler.Books
import KernelSim.Scheduler.MainLoop
import KernelSim.Scheduler.Conservation
import KernelSim.Scheduler.Shortest
import KernelSim.Scheduler.WorkConservation
import KernelSim.Scheduler.Preemption
import KernelSim.Scheduler.Causality
import KernelSim.Scheduler.Shutdown
import KernelSim.Scheduler.Completion
import KernelSim.Scheduler.Accounting
import KernelSim.Scheduler.Waiting
import KernelSim.Memory.EventLog
import KernelSim.Generator.Intake
import KernelSim.Generator.SenderRefinement
import KernelSim.Generator.Admission
import KernelSim.Library.Histories
import KernelSim.Scheduler.HighestPriority
import KernelSim.Library.Fifo
import KernelSim.Scheduler.Rotation
import KernelSim.Scheduler.RoundRobin
import KernelSim.Scheduler.Clock
import KernelSim.Scheduler.LogGrammar
import KernelSim.Scheduler.LogTimes
import KernelSim.Library.Tally
import KernelSim.Scheduler.Charging
import KernelSim.Scheduler.Workload
import KernelSim.Scheduler.Utilisation
import KernelSim.Library.Channel
import KernelSim.Scheduler.Handshake
import KernelSim.Library.TreePath
import KernelSim.Memory.BuddyShape
import KernelSim.Memory.Release
import KernelSim.Memory.Merging
import KernelSim.Memory.Completeness
import KernelSim.Memory.LiveSet
import KernelSim.Memory.Refusal
import KernelSim.Generator.Serving
import KernelSim.Scheduler.RunProcess
import KernelSim.Scheduler.Statistics
import KernelSim.Library.Popping
import KernelSim.Scheduler.ReadyHeap
import KernelSim.Scheduler.TieBreaking
import KernelSim.Generator.ArrivalQueue
import KernelSim.Library.Simulation
import KernelSim.Scheduler.ReadyQueue
import KernelSim.Memory.Rounding
import KernelSim.Comparators
import KernelSim.Scheduler.HeapUpdate
import KernelSim.Memory.Addresses
import KernelSim.Generator.ExecArguments
import KernelSim.Generator.ReadProcesses
import KernelSim.Generator.TestGenerator
import KernelSim.ProgressBars
import KernelSim.Library.FirstFit
import KernelSim.Memory.SlotTable
import KernelSim.Memory.Capacity
import KernelSim.Memory.Ownership
import KernelSim.Library.Formats
import KernelSim.Memory.LogText
import KernelSim.Generator.Fairness
import KernelSim.Scheduler.Dispatcher
import KernelSim.Scheduler.IpcObjects
import KernelSim.Scheduler.LogText
import KernelSim.Scheduler.BoundedWaiting
import KernelSim.Scheduler.Figures
import KernelSim.Simulator
import KernelSim.Lifetimes
import KernelSim.Housing
import KernelSim.Generator.CommandLine
import KernelSim.Generator.Footprint
import KernelSim.Library.LeastRemaining
import KernelSim.Scheduler.Optimality
import KernelSim.Scheduler.Overhead
import KernelSim.Scheduler.PcbMemory
import KernelSim.Scheduler.FreedMemory
