import KernelSim.Scheduler.ReadyStructures

/-! The functions of `scheduler.c` that move processes between ready, running and finished. -/
namespace KernelSim
open RingBuffer MinHeap

/-- The states that `log_process_event` writes. -/
inductive ProcessEvent
  | started
  | resumed
  | stopped
  | finished
  deriving DecidableEq, Repr

inductive Signal
  | cont
  | stop
  deriving DecidableEq, Repr

/-- What the scheduler does to the world outside it, with the PCB as it is at that moment. -/
inductive Effect
  | received (process : PCB)
  | signal (signal : Signal) (process : PCB)
  /-- one line of `scheduler.log` -/
  | logged (event : ProcessEvent) (time : ℤ) (process : PCB) (finishTime : ℤ)
  | progressBar (completed total : ℤ)
  /-- `semctl(sync_semid, 0, SETVAL, 1)` -/
  | grant (process : PCB)
  /-- `shmctl(shm_id, IPC_RMID)` -/
  | removeShm (process : PCB)
  /-- `semctl(sync_semid, 0, IPC_RMID)` -/
  | removeSem (process : PCB)
  deriving DecidableEq, Repr

/-- The globals of the scheduler and the memory its `PCB *` point to. `readings` and `kills` are
what the next reads of shared memory (`none` when `shmat` fails) and the next calls of `kill` will
return, and `trace` is what it has done. -/
structure Scheduler where
  algorithm : SchedulingAlgorithm
  quantum : ℤ
  pcbs : ℕ → PCB
  nextPcb : ℕ
  currentProcess : Option ℕ
  readyHeap : MinHeap ℕ
  rrQueue : PCBQueue
  processCount : ℕ
  finishedProcesses : ℕ
  startTime : ℤ
  generatorFinished : Bool
  activeCpuTime : ℤ
  turnaroundTimes : List ℤ
  waitTimes : List ℤ
  timeSliceStart : ℤ
  clockValue : ℤ
  readings : List (Option ℤ)
  kills : List Bool
  trace : List Effect

namespace Scheduler

/-- The scheduler when it enters its loop, `clk` being the time on the clock. -/
def initial (algorithm : SchedulingAlgorithm) (quantum clk : ℤ) : Scheduler :=
  { algorithm, quantum
    pcbs := fun _ => emptyFront
    nextPcb := 0
    currentProcess := none
    readyHeap := createMinHeap 0
    rrQueue := queueInit 100 emptyFront
    processCount := 0
    finishedProcesses := 0
    startTime := -1
    generatorFinished := false
    activeCpuTime := 0
    turnaroundTimes := List.replicate 100 0
    waitTimes := List.replicate 100 0
    timeSliceStart := -1
    clockValue := clk - 1
    readings := []
    kills := []
    trace := [] }

def emit (s : Scheduler) (e : Effect) : Scheduler := { s with trace := s.trace ++ [e] }

/-- A write through a PCB pointer. -/
def writePcb (s : Scheduler) (process : ℕ) (f : PCB → PCB) : Scheduler :=
  { s with pcbs := Function.update s.pcbs process (f (s.pcbs process)) }

/-- `malloc` of a PCB that is then filled. -/
def mallocPcb (s : Scheduler) (pcb : PCB) : Scheduler × ℕ :=
  ({ s with pcbs := Function.update s.pcbs s.nextPcb pcb, nextPcb := s.nextPcb + 1 }, s.nextPcb)

/-- The line that `log_process_event` writes. -/
def logProcessEvent (s : Scheduler) (event : ProcessEvent) (process : ℕ) (finishTime : ℤ) :
    Effect :=
  .logged event s.clockValue (s.pcbs process) finishTime

/-- A call of `kill`, and the report made when it succeeds. -/
def signalProcess (s : Scheduler) (process : ℕ) (signal : Signal) (report : List Effect) :
    Scheduler :=
  { s with
    kills := s.kills.tail
    trace := s.trace ++ .signal signal (s.pcbs process) ::
      if s.kills.headD true then report else [] }

/-- The comparator that `main` gives to `create_min_heap`. -/
def cmp (s : Scheduler) (a b : ℕ) : ℤ :=
  match s.algorithm with
  | .HPF => comparePriority (s.pcbs a) (s.pcbs b)
  | _ => compareRemainingTime (s.pcbs a) (s.pcbs b)

def updateProcessRemainingTime (s : Scheduler) (process : ℕ) : Scheduler :=
  if (s.pcbs process).shmId ≠ -1 then
    let value := s.readings.headD none
    let s := { s with readings := s.readings.tail }
    match value with
    | some value => s.writePcb process fun p => { p with remainingTime := value }
    | none => s
  else s

/-- `update_process_remaining_time(current_process)`, if there is one. -/
def updateCurrent (s : Scheduler) : Scheduler :=
  match s.currentProcess with
  | none => s
  | some process => s.updateProcessRemainingTime process

def startProcess (s : Scheduler) (process : ℕ) : Scheduler :=
  if (s.pcbs process).syncSemid ≤ 0 then s
  else
    let s := s.writePcb process fun p =>
      { p with state := .running, startTime := s.clockValue }
    let s := { s with
      startTime := if s.startTime = -1 then (s.pcbs process).startTime else s.startTime
      activeCpuTime := s.activeCpuTime + (s.pcbs process).executionTime }
    let s := s.writePcb process fun p => { p with waitingTime := s.clockValue - p.arrivalTime }
    let s := s.signalProcess process .cont [s.logProcessEvent .started process (-1)]
    { s with timeSliceStart := s.clockValue }

def resumeProcess (s : Scheduler) (process : ℕ) : Scheduler :=
  let s := s.writePcb process fun p =>
    { p with
      state := .running
      waitingTime := if p.lastPremptTime ≠ -1 then p.waitingTime + (s.clockValue - p.lastPremptTime)
        else p.waitingTime }
  let s := s.signalProcess process .cont [s.logProcessEvent .resumed process (-1)]
  { s with timeSliceStart := s.clockValue }

/-- `preempt_process` after it has read the remaining time. -/
def stopProcess (s : Scheduler) (process : ℕ) : Scheduler :=
  let s := s.writePcb process fun p =>
    { p with state := .ready, lastPremptTime := s.clockValue }
  let p := s.pcbs process
  s.signalProcess process .stop [s.logProcessEvent .stopped process (-1),
    .progressBar (p.executionTime - p.remainingTime) p.executionTime]

def preemptProcess (s : Scheduler) (process : ℕ) : Scheduler :=
  (s.updateProcessRemainingTime process).stopProcess process

/-- The re-insertion of the preempted process. -/
def requeue (s : Scheduler) (process : ℕ) : Scheduler :=
  match s.algorithm with
  | .RR => { s with rrQueue := queueEnqueue s.rrQueue (s.pcbs process) }
  | _ => { s with readyHeap := insertProcessMinHeap s.cmp s.readyHeap process }

/-- When the front process has an invalid semaphore, it changes places with the first one that
has a valid one. -/
def recoverFront (q : PCBQueue) : PCBQueue :=
  if (queueFront q).syncSemid ≤ 0 then
    match (List.range q.size).find? fun i => 0 < (q.data (q.slot i)).syncSemid with
    | some i =>
      { q with
        data := Function.update (Function.update q.data q.front (q.data (q.slot i))) (q.slot i)
          (q.data q.front) }
    | none => q
  else q

/-- The choice of the next process. -/
def pickProcess (s : Scheduler) : Scheduler × Option ℕ :=
  match s.algorithm with
  | .RR =>
    if 0 < s.rrQueue.size then
      let q := recoverFront s.rrQueue
      let (s, newProcess) := ({ s with rrQueue := queueDequeue q }).mallocPcb (queueFront q)
      (s, some newProcess)
    else (s, none)
  | _ =>
    let (newProcess, heap) := extractMin s.cmp s.readyHeap
    ({ s with readyHeap := heap }, newProcess)

/-- The end of `context_switching`, once `current_process` is the process chosen. -/
def dispatch (s : Scheduler) : Scheduler :=
  match s.currentProcess with
  | none => s
  | some process =>
    if (s.pcbs process).syncSemid ≤ 0 then { s with currentProcess := none }
    else if (s.pcbs process).startTime = -1 then s.startProcess process
    else s.resumeProcess process

def switchToNext (s : Scheduler) : Scheduler :=
  let (s, newProcess) := s.pickProcess
  ({ s with currentProcess := newProcess }).dispatch

def contextSwitching (s : Scheduler) : Scheduler :=
  match s.currentProcess with
  | none => s.switchToNext
  | some process =>
    let s := s.updateProcessRemainingTime process
    if (s.pcbs process).remainingTime = 0 then s
    else if (s.pcbs process).state ≠ .terminated then
      ((s.preemptProcess process).requeue process).switchToNext
    else s.switchToNext

def runRRAlgorithm (s : Scheduler) : Scheduler :=
  let s := if s.currentProcess = none ∧ 0 < s.rrQueue.size then s.contextSwitching else s
  match s.currentProcess with
  | none => s
  | some process =>
    let s := s.updateProcessRemainingTime process
    if s.clockValue - s.timeSliceStart ≥ s.quantum ∧ 0 < s.rrQueue.size then s.contextSwitching
    else s

def runSRTNAlgorithm (s : Scheduler) : Scheduler :=
  let s := s.updateCurrent
  if 0 < s.readyHeap.size then
    let shortest := s.readyHeap.processes 0
    match s.currentProcess with
    | none => s.contextSwitching
    | some process =>
      if (s.pcbs process).remainingTime > (s.pcbs shortest).remainingTime then s.contextSwitching
      else s
  else s

def runHPFAlgorithm (s : Scheduler) : Scheduler :=
  if s.currentProcess = none ∧ 0 < s.readyHeap.size then s.contextSwitching else s

def runAlgorithm (s : Scheduler) : Scheduler :=
  match s.algorithm with
  | .HPF => s.runHPFAlgorithm
  | .SRTN => s.runSRTNAlgorithm
  | .RR => s.runRRAlgorithm

/-- The check after a process is enqueued: the first one in the queue with its id gets the
semaphore id back if it lost it. -/
def restoreSemid (q : PCBQueue) (idFromFile semIdBackup : ℤ) : PCBQueue :=
  match (List.range q.size).find? fun i => (q.data (q.slot i)).idFromFile = idFromFile with
  | some i =>
    if (q.data (q.slot i)).syncSemid ≤ 0 then
      { q with
        data := Function.update q.data (q.slot i)
          { q.data (q.slot i) with syncSemid := semIdBackup } }
    else q
  | none => q

def handleProcessArrival (s : Scheduler) (process : PCB) : Scheduler :=
  let s := { s with processCount := s.processCount + 1 }
  let process := { process with remainingTime := process.executionTime }
  let s := s.emit (.received process)
  let process := { process with state := .ready, startTime := -1, lastPremptTime := -1 }
  match s.algorithm with
  | .RR =>
    let q := queueEnqueue s.rrQueue process
    { s with rrQueue := restoreSemid q process.idFromFile process.syncSemid }
  | _ =>
    let (s, heapProcess) := s.mallocPcb process
    { s with readyHeap := insertProcessMinHeap s.cmp s.readyHeap heapProcess }

/-- After an arrival SRTN compares it with the current process at once. -/
def preemptOnArrival (s : Scheduler) : Scheduler :=
  if s.algorithm = .SRTN ∧ s.currentProcess ≠ none then s.runSRTNAlgorithm else s

/-- With no current process, reception makes the loop run the algorithm in this tick. -/
def forgetTick (s : Scheduler) : Scheduler :=
  if s.currentProcess = none then { s with clockValue := -1 } else s

/-- One round of the loop of `receive_new_process`. -/
def receiveMessage (s : Scheduler) (process : PCB) : Scheduler :=
  (s.handleProcessArrival process).preemptOnArrival.forgetTick

def handleGeneratorCompletion (s : Scheduler) : Scheduler := { s with generatorFinished := true }

def removeSharedMemory (s : Scheduler) (process : ℕ) : Scheduler :=
  if (s.pcbs process).shmId ≠ -1 then
    (s.emit (.removeShm (s.pcbs process))).writePcb process fun p => { p with shmId := -1 }
  else s

/-- The part of `handle_process_completion` that marks the process terminated and does the
bookkeeping. A write past the end of an array has no effect here: the runs of the loop end before
one. -/
def recordCompletion (s : Scheduler) (process : ℕ) : Scheduler :=
  let s := s.writePcb process fun p => { p with state := .terminated }
  let p := s.pcbs process
  let finishTime := s.clockValue
  let ta := finishTime - p.arrivalTime
  let wait := ta - p.executionTime
  let s := { s with
    turnaroundTimes := s.turnaroundTimes.set s.finishedProcesses ta
    waitTimes := s.waitTimes.set s.finishedProcesses wait }
  let s := s.emit (s.logProcessEvent .finished process finishTime)
  let s := { s with finishedProcesses := s.finishedProcesses + 1 }
  let s := s.emit (.progressBar s.finishedProcesses s.processCount)
  { s.emit (.removeSem p) with currentProcess := none }

/-- What `handle_process_completion` does to the current process. -/
def retire (s : Scheduler) (process : ℕ) : Scheduler :=
  ((s.updateProcessRemainingTime process).removeSharedMemory process).recordCompletion process

/-- `handle_process_completion` once it has read the clock. -/
def completeCurrent (s : Scheduler) : Scheduler :=
  match s.currentProcess with
  | none => s
  | some process =>
    let s := s.retire process
    if s.generatorFinished ∧ s.algorithm = .SRTN then s.contextSwitching else s

/-- The `SIGUSR2` handler, `clk` being the time on the clock. -/
def handleProcessCompletion (s : Scheduler) (clk : ℤ) : Scheduler :=
  ({ s with clockValue := clk }).completeCurrent

/-- The test on which `main` leaves its loop. -/
def isDone (s : Scheduler) : Bool :=
  s.generatorFinished && s.currentProcess.isNone &&
    match s.algorithm with
    | .RR => s.rrQueue.size == 0
    | _ => s.readyHeap.size == 0

/-- The grant of one tick to the current process. -/
def grantTick (s : Scheduler) : Scheduler :=
  match s.currentProcess with
  | none => s
  | some process => s.emit (.grant (s.pcbs process))

end Scheduler

end KernelSim
