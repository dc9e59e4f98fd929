import Mathlib.Algebra.Order.Ring.Int

/-! What the programs share: `int` arithmetic, the process control block and the algorithms. -/
namespace KernelSim

/-- A C `int` arithmetic result, wrapped to 32 bits. -/
def wrap32 (x : ℤ) : ℤ := x.bmod (2 ^ 32)

inductive ProcessState
  | waiting
  | ready
  | running
  | stopped
  | terminated
  deriving DecidableEq, Repr

/-- `struct PCB`, less the fields `finish_time` and `child_pid` that no code reads or writes. -/
structure PCB where
  pid : ℤ
  idFromFile : ℤ
  arrivalTime : ℤ
  startTime : ℤ
  remainingTime : ℤ
  priority : ℤ
  waitingTime : ℤ
  executionTime : ℤ
  lastPremptTime : ℤ
  shmId : ℤ
  memorySize : ℤ
  syncSemid : ℤ
  state : ProcessState
  deriving DecidableEq, Repr

/-- `struct Process`, a line of the process file. -/
structure Process where
  id : ℤ
  arrivalTime : ℤ
  executionTime : ℤ
  priority : ℤ
  memorySize : ℤ
  deriving DecidableEq, Repr

/-- The PCB that the generator fills for a process. `malloc` leaves `last_prempt_time` and `state`
as they are; the scheduler overwrites both. -/
def Process.newPcb (p : Process) (pid shmId syncSemid : ℤ) : PCB :=
  { pid, shmId, syncSemid
    idFromFile := p.id
    arrivalTime := p.arrivalTime
    executionTime := p.executionTime
    priority := p.priority
    waitingTime := 0
    startTime := -1
    remainingTime := p.executionTime
    memorySize := p.memorySize
    lastPremptTime := 0
    state := .waiting }

inductive SchedulingAlgorithm
  | HPF
  | SRTN
  | RR
  deriving DecidableEq, Repr

def compareRemainingTime (a b : PCB) : ℤ := wrap32 (a.remainingTime - b.remainingTime)

def comparePriority (a b : PCB) : ℤ := wrap32 (a.priority - b.priority)

def compareArrivalTime (a b : PCB) : ℤ := wrap32 (a.arrivalTime - b.arrivalTime)

theorem wrap32_eq {x : ℤ} (h1 : -2 ^ 31 ≤ x) (h2 : x < 2 ^ 31) : wrap32 x = x :=
  Int.bmod_eq_of_le_mul_two (by omega) (by omega)

end KernelSim
