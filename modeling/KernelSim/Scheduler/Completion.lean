import KernelSim.Scheduler.Conservation
import KernelSim.Scheduler.Workers

/-! `context_switching` one access at a time, while the processes run and their `SIGUSR2` is handled
in between. -/
namespace KernelSim
open Runs

/-- What comes next in `context_switching`. -/
inductive Stage
  | outside
  /-- the reading of the remaining time, and the tests on it -/
  | guard
  /-- `update_process_remaining_time(process)` in `preempt_process` -/
  | preemptRead (process : ℕ)
  /-- the rest of `preempt_process`, `SIGSTOP` included -/
  | stop (process : ℕ)
  /-- the re-insertion of `current_process` -/
  | requeue
  | pick
  /-- `current_process = new_process;` and its start or its resumption -/
  | dispatch (newProcess : Option ℕ)
  /-- a null `current_process` has been used -/
  | crashed
  deriving DecidableEq

/-- The scheduler, the processes, and the senders of the `SIGUSR2` under way. -/
structure Interleaving where
  scheduler : Scheduler
  stage : Stage
  clock : ℤ
  workers : ℤ → Worker
  signals : List ℤ

inductive InterleavingAct
  | tick
  | worker (pid : ℤ) (act : WorkerAct)
  | sigusr1
  | sigusr2
  /-- `handle_process_arrival` -/
  | receive (process : PCB)
  /-- an assignment to `clockValue` -/
  | setClock (clk : ℤ)
  /-- `update_process_remaining_time(current_process)` outside `context_switching` -/
  | reread
  | grant
  /-- a call of `context_switching` by the algorithm -/
  | switch
  /-- the next step of `context_switching` -/
  | advance
  deriving DecidableEq

/-- The test on which the algorithm calls `context_switching`. -/
def Scheduler.callsSwitch (s : Scheduler) : Bool :=
  match s.algorithm with
  | .HPF => s.currentProcess = none ∧ 0 < s.readyHeap.size
  | .SRTN => 0 < s.readyHeap.size ∧ ∀ process ∈ s.currentProcess,
      (s.pcbs process).remainingTime > (s.pcbs (s.readyHeap.processes 0)).remainingTime
  | .RR => 0 < s.rrQueue.size ∧
      (s.currentProcess = none ∨ s.clockValue - s.timeSliceStart ≥ s.quantum)

namespace Interleaving

def initial (algorithm : SchedulingAlgorithm) (quantum clk : ℤ) : Interleaving :=
  { scheduler := Scheduler.initial algorithm quantum clk
    stage := .outside
    clock := clk
    workers := fun _ => .create 0
    signals := [] }

/-- What shared memory holds for a process at this moment. -/
def inputs (s : Interleaving) (process : ℕ) : Inputs :=
  ⟨[some (s.workers (s.scheduler.pcbs process).pid).sharedRemainingTime], []⟩

/-- `update_process_remaining_time`, from the shared memory as it is now. -/
def read (s : Interleaving) (process : ℕ) : Scheduler :=
  (s.scheduler.feed (s.inputs process)).updateProcessRemainingTime process

/-- A step of the scheduler, and what the processes notice of it. -/
def perform (s : Interleaving) (t : Scheduler) (stage : Stage) : Interleaving :=
  { s with
    scheduler := t
    stage
    workers := (t.trace.drop s.scheduler.trace.length).foldl observe s.workers }

/-- The handler `handle_process_completion`. -/
def complete (s : Interleaving) : Scheduler :=
  match s.scheduler.currentProcess with
  | none => (s.scheduler.feed {}).handleProcessCompletion s.clock
  | some process => (s.scheduler.feed (s.inputs process)).handleProcessCompletion s.clock

/-- The statements of `context_switching`. -/
def advance (s : Interleaving) : Option Interleaving :=
  match s.stage with
  | .outside => none
  | .guard =>
    match s.scheduler.currentProcess with
    | none => some { s with stage := .crashed }
    | some process =>
      let t := s.read process
      if (t.pcbs process).remainingTime = 0 then some (s.perform t .outside)
      else if (t.pcbs process).state ≠ .terminated then some (s.perform t (.preemptRead process))
      else some (s.perform t .pick)
  | .preemptRead process => some (s.perform (s.read process) (.stop process))
  | .stop process => some (s.perform (s.scheduler.stopProcess process) .requeue)
  | .requeue =>
    match s.scheduler.currentProcess with
    | none => some { s with stage := .crashed }
    | some process => some (s.perform (s.scheduler.requeue process) .pick)
  | .pick => some (s.perform s.scheduler.pickProcess.1 (.dispatch s.scheduler.pickProcess.2))
  | .dispatch newProcess =>
    some (s.perform ({ s.scheduler with currentProcess := newProcess }).dispatch .outside)
  | .crashed => none

def next (s : Interleaving) : InterleavingAct → Option Interleaving
  | .tick => some { s with clock := s.clock + 1 }
  | .worker pid act => ((s.workers pid).next s.clock act).map fun w =>
      { s with
        workers := Function.update s.workers pid w
        signals := if act = .kill then s.signals ++ [pid] else s.signals }
  | .sigusr1 => some { s with scheduler := s.scheduler.handleGeneratorCompletion }
  | .sigusr2 =>
    match s.signals with
    | [] => none
    | _ :: signals =>
      if s.stage = .crashed ∨ s.scheduler.Overruns then none
      else some { s.perform s.complete s.stage with signals }
  | .receive process =>
    if s.stage = .outside then
      some { s with
        scheduler := s.scheduler.handleProcessArrival process
        workers := Function.update s.workers process.pid (.create process.executionTime) }
    else none
  | .setClock clk =>
    if s.stage = .outside then some { s with scheduler := { s.scheduler with clockValue := clk } }
    else none
  | .reread =>
    match s.stage, s.scheduler.currentProcess with
    | .outside, some process => some (s.perform (s.read process) .outside)
    | _, _ => none
  | .grant =>
    if s.stage = .outside then some (s.perform s.scheduler.grantTick .outside) else none
  | .switch =>
    if s.stage = .outside ∧ s.scheduler.callsSwitch then
      some { s with stage := if s.scheduler.currentProcess = none then .pick else .guard }
    else none
  | .advance => s.advance

end Interleaving

/-- The pid of the process whose end an effect is part of. -/
def Effect.endedPid : Effect → Option ℤ
  | .logged event _ p _ => if event = .finished then some p.pid else none
  | .removeShm p => some p.pid
  | .removeSem p => some p.pid
  | _ => none

/-- The pid of the process an effect reports as received. -/
def Effect.receivedPid : Effect → Option ℤ
  | .received p => some p.pid
  | _ => none

namespace Scheduler

/-- The processes recorded as finished, or whose shared memory or semaphore was removed. -/
def endedPids (s : Scheduler) : List ℤ := s.trace.filterMap Effect.endedPid

def receivedPids (s : Scheduler) : List ℤ := s.trace.filterMap Effect.receivedPid

end Scheduler

/-- Whenever the handler runs, the current process is the sender of the signal; no process was ended
before its remaining time was 0; and no process that has exited is in the ready structure. -/
structure Credited (s : Interleaving) : Prop where
  sender : ∀ pid ∈ s.signals, ∃ p, s.scheduler.current = some p ∧ p.pid = pid
  ended : ∀ pid ∈ s.scheduler.endedPids,
    (s.workers pid).phase = .exited ∧ (s.workers pid).sharedRemainingTime = 0
  ready : ∀ p ∈ s.scheduler.ready, (s.workers p.pid).phase ≠ .exited

/-- Messages with a valid semaphore and shared memory, of processes not sent before. -/
def NewProcesses (s : Interleaving) : InterleavingAct → Prop
  | .receive p => 0 < p.syncSemid ∧ p.shmId ≠ -1 ∧ p.pid ∉ s.scheduler.receivedPids
  | _ => True

instance : ∀ s a, Decidable (NewProcesses s a)
  | s, .receive p => inferInstanceAs
      (Decidable (0 < p.syncSemid ∧ p.shmId ≠ -1 ∧ p.pid ∉ s.scheduler.receivedPids))
  | _, .tick => isTrue trivial
  | _, .worker _ _ => isTrue trivial
  | _, .sigusr1 => isTrue trivial
  | _, .sigusr2 => isTrue trivial
  | _, .setClock _ => isTrue trivial
  | _, .reread => isTrue trivial
  | _, .grant => isTrue trivial
  | _, .switch => isTrue trivial
  | _, .advance => isTrue trivial

/-- No process sends `SIGUSR2` between the reading that finds it unfinished and its `SIGSTOP`. -/
def NoneBetween (s : Interleaving) : InterleavingAct → Prop
  | .worker _ .kill => ∀ process, s.stage ≠ .preemptRead process ∧ s.stage ≠ .stop process
  | _ => True

namespace Scheduler

variable {s s' t : Scheduler} {p q : PCB} {process : ℕ} {clk : ℤ} {sent : Bool}
  {event : ProcessEvent} {workers : ℤ → Worker} {es : List Effect}

theorem observe_cont : (contEffects event clk sent p).foldl observe workers =
    Function.update workers p.pid { workers p.pid with stopped := false } := by
  cases sent <;> simp [contEffects, observe]

theorem observe_stop : (stopEffects clk sent p).foldl observe workers =
    Function.update workers p.pid { workers p.pid with stopped := true } := by
  cases sent <;> simp [stopEffects, observe]

theorem observe_retire {finished count : ℕ} {value : ℤ} :
    (retireEffects clk finished count value p).foldl observe workers = workers := by
  unfold retireEffects
  split <;> simp [observe]

theorem endedPid_ofSwitch {e : Effect} (h : e.OfSwitch) : e.endedPid = none := by
  cases e with
  | logged event => exact if_neg h
  | removeShm p | removeSem p => cases h
  | _ => rfl

theorem receivedPid_ofSwitch {e : Effect} (h : e.OfSwitch) : e.receivedPid = none := by
  cases e with
  | received p => cases h
  | _ => rfl

theorem pids_ofSwitch (ht : s'.trace = s.trace ++ es) (hes : ∀ e ∈ es, e.OfSwitch) :
    s'.endedPids = s.endedPids ∧ s'.receivedPids = s.receivedPids := by
  have hend := filterMap_ofSwitch (fun _ => endedPid_ofSwitch) hes
  have hrec := filterMap_ofSwitch (fun _ => receivedPid_ofSwitch) hes
  simp [endedPids, receivedPids, ht, hend, hrec]

theorem pids_eq (ht : s'.trace = s.trace) :
    s'.endedPids = s.endedPids ∧ s'.receivedPids = s.receivedPids :=
  ⟨by rw [endedPids, ht, endedPids], by rw [receivedPids, ht, receivedPids]⟩

theorem pids_retire {finished count : ℕ} {value : ℤ}
    (ht : s'.trace = s.trace ++ retireEffects clk finished count value p) :
    (∀ pid ∈ s'.endedPids, pid ∈ s.endedPids ∨ pid = p.pid) ∧ s'.receivedPids = s.receivedPids := by
  constructor
  · intro pid hmem
    rw [endedPids, ht, List.filterMap_append, retireEffects] at hmem
    refine (List.mem_append.mp hmem).imp_right fun hmem => ?_
    split at hmem <;> simpa [List.filterMap_cons, Effect.endedPid, PCB.retired] using hmem
  · rw [receivedPids, ht, List.filterMap_append, retireEffects, receivedPids]
    split <;> simp [Effect.receivedPid]

theorem pids_grant (s : Scheduler) (p : PCB) :
    (s.emit (.grant p)).endedPids = s.endedPids ∧
      (s.emit (.grant p)).receivedPids = s.receivedPids := by
  simp [endedPids, receivedPids, emit, Effect.endedPid, Effect.receivedPid]

theorem Reread.pid (h : Reread s s') : s'.current.map PCB.pid = s.current.map PCB.pid := by
  rcases h.current with hc | ⟨p, v, hc, hc'⟩
  · rw [hc]
  · rw [hc, hc']
    rfl

theorem Stored.congr (hs : Stored s) (hq : s'.rrQueue = s.rrQueue) (hh : s'.readyHeap = s.readyHeap)
    (hn : s'.nextPcb = s.nextPcb) : Stored s' :=
  ⟨hq ▸ hs.queue, hh ▸ hs.capacity, hh ▸ hs.nodup, by rw [hh, hn]; exact hs.heap_lt⟩

/-- Every process that has not ended has its shared memory. -/
def Attached (s : Scheduler) : Prop := ∀ p ∈ s.held, p.shmId ≠ -1

theorem Attached.of_reread (h : Attached s) (hr : Reread s s') : Attached s' := by
  rcases hr.current with hc | ⟨p, v, hc, hc'⟩
  · unfold Attached held
    rw [hc, hr.ready]
    exact h
  · unfold Attached at *
    rw [held_some hc] at h
    rw [held_some hc', hr.ready]
    intro q hq
    rcases List.mem_cons.mp hq with rfl | hq
    · exact h p List.mem_cons_self
    · exact h q (List.mem_cons_of_mem _ hq)

/-- A process as it waits to be dispatched. -/
structure Settled (p : PCB) : Prop where
  state : p.state = .ready
  semid : 0 < p.syncSemid
  shm : p.shmId ≠ -1

theorem settled_ready (hs : Sound s) (ha : Attached s) : ∀ p ∈ s.ready, Settled p :=
  fun p hp => ⟨hs.ready_state p hp, hs.ready_semid p hp, ha p (List.mem_append_right _ hp)⟩

end Scheduler

namespace Interleaving

open Scheduler

variable {s s' : Interleaving} {t : Scheduler} {stage : Stage} {es : List Effect} {process : ℕ}

/-- The process that can run: none from `SIGSTOP` to the next dispatch. -/
def onCpu (s : Interleaving) : Option ℤ :=
  match s.stage with
  | .requeue | .pick | .dispatch _ => none
  | _ => s.scheduler.current.map PCB.pid

/-- The processes in the ready structure, on their way into it or out of it. -/
def waitingPids (s : Interleaving) : List ℤ :=
  match s.stage with
  | .requeue => s.scheduler.held.map PCB.pid
  | .dispatch (some process) => ((s.scheduler.pcbs process) :: s.scheduler.ready).map PCB.pid
  | _ => s.scheduler.ready.map PCB.pid

/-- The scheduler's data at each stage. -/
def Shape (s : Interleaving) : Prop :=
  match s.stage with
  | .outside | .guard | .crashed => Sound s.scheduler ∧ Attached s.scheduler
  | .preemptRead process | .stop process => Sound s.scheduler ∧ Attached s.scheduler ∧
      s.scheduler.currentProcess = some process
  | .requeue => Allocated s.scheduler ∧ (∀ p ∈ s.scheduler.held, Settled p) ∧
      s.scheduler.currentProcess ≠ none
  | .pick => Stored s.scheduler ∧ ∀ p ∈ s.scheduler.ready, Settled p
  | .dispatch newProcess => Stored s.scheduler ∧ (∀ p ∈ s.scheduler.ready, Settled p) ∧
      ∀ process, newProcess = some process → process < s.scheduler.nextPcb ∧
        process ∉ s.scheduler.readyHeap.toList ∧ Settled (s.scheduler.pcbs process)

/-- The process about to be stopped has not exited. -/
def Unexited (s : Interleaving) : Prop :=
  match s.stage with
  | .preemptRead _ | .stop _ => ∀ pid, s.onCpu = some pid → (s.workers pid).phase ≠ .exited
  | _ => True

/-- The invariant of the runs in which no process exits before its `SIGSTOP`. -/
structure Crediting (s : Interleaving) : Prop where
  shape : s.Shape
  credit : Credit s.onCpu s.waitingPids s.scheduler.endedPids s.workers s.signals
  known : ∀ pid ∈ s.onCpu.toList ++ s.waitingPids ++ s.scheduler.endedPids,
    pid ∈ s.scheduler.receivedPids
  unexited : s.Unexited

theorem crediting_of (onCpu : Option ℤ) (waiting : List ℤ) (hshape : s.Shape)
    (hcpu : s.onCpu = onCpu) (hw : s.waitingPids = waiting)
    (hcredit : Credit onCpu waiting s.scheduler.endedPids s.workers s.signals)
    (hknown : ∀ pid ∈ onCpu.toList ++ waiting ++ s.scheduler.endedPids,
      pid ∈ s.scheduler.receivedPids) (hun : s.Unexited) : Crediting s := by
  subst hcpu hw
  exact ⟨hshape, hcredit, hknown, hun⟩

@[simp] theorem perform_scheduler : (s.perform t stage).scheduler = t := rfl

theorem perform_workers (stage : Stage) (ht : t.trace = s.scheduler.trace ++ es) :
    (s.perform t stage).workers = es.foldl observe s.workers := by
  simp [perform, ht]

theorem perform_workers_eq (stage : Stage) (ht : t.trace = s.scheduler.trace) :
    (s.perform t stage).workers = s.workers := by
  simp [perform, ht]

/-- Two steps in a row, as one. -/
theorem perform_perform {u : Scheduler} {fs : List Effect} (signals : List ℤ)
    (hu : u.trace = s.scheduler.trace ++ es) (ht : t.trace = u.trace ++ fs) :
    ({ s.perform u stage with signals } : Interleaving).perform t stage =
      { s.perform t stage with signals } := by
  have hut : t.trace = s.scheduler.trace ++ (es ++ fs) := by rw [ht, hu, List.append_assoc]
  have hworkers := perform_workers stage hut
  rw [List.foldl_append, ← perform_workers stage hu] at hworkers
  have hworkers' : (({ s.perform u stage with signals } : Interleaving).perform t stage).workers =
      fs.foldl observe (s.perform u stage).workers := by
    simp [perform, ht]
  unfold perform at *
  dsimp only at *
  rw [hworkers', hworkers]

/-- A reading of the current process sees its shared memory. -/
theorem read_spec (hs : Sound s.scheduler) (ha : Attached s.scheduler)
    (hc : s.scheduler.currentProcess = some process) :
    Sound (s.read process) ∧ Attached (s.read process) ∧ Reread s.scheduler (s.read process) ∧
      (s.read process).currentProcess = some process ∧
      ((s.read process).pcbs process).state = .running ∧
      ((s.read process).pcbs process).remainingTime =
        (s.workers (s.scheduler.pcbs process).pid).sharedRemainingTime := by
  have hfeed := hs.feed (s.inputs process)
  have hcur := current_some hc
  have hupdate := updateProcessRemainingTime_reread hfeed hc
  have hread : Reread s.scheduler (s.read process) :=
    ⟨hupdate.current, hupdate.ready, hupdate.trace⟩
  obtain ⟨v, htouch, -, -⟩ :=
    updateProcessRemainingTime_spec (s.scheduler.feed (s.inputs process)) process
  refine ⟨(reread_move hfeed hc).sound, ha.of_reread hread, hread,
    htouch.currentProcess.trans hc, ?_, ?_⟩
  · rw [read, htouch.pcb]
    exact hs.current_state (s.scheduler.pcbs process) hcur
  · have hshm : (s.scheduler.pcbs process).shmId ≠ -1 := ha _ (by simp [held, hcur])
    have hval : (s.read process).pcbs = Function.update s.scheduler.pcbs process
        { s.scheduler.pcbs process with
          remainingTime := (s.workers (s.scheduler.pcbs process).pid).sharedRemainingTime } := by
      unfold read updateProcessRemainingTime
      exact (if_pos hshm).symm ▸ rfl
    rw [hval, Function.update_self]

/-- A reading of the current process outside the switch or before its `SIGSTOP`. -/
theorem crediting_read (h : Crediting s) (hs : Sound s.scheduler) (ha : Attached s.scheduler)
    (hc : s.scheduler.currentProcess = some process)
    (hcpu : s.onCpu = s.scheduler.current.map PCB.pid)
    (hw : s.waitingPids = s.scheduler.ready.map PCB.pid)
    (hstage : stage = .outside ∨ (stage = .preemptRead process ∨ stage = .stop process) ∧
      (s.workers (s.scheduler.pcbs process).pid).phase ≠ .exited) :
    Crediting (s.perform (s.read process) stage) := by
  obtain ⟨hsound, hatt, hread, hcp, -, -⟩ := read_spec hs ha hc
  have hworkers := perform_workers_eq stage hread.trace
  obtain ⟨hended, hreceived⟩ := pids_eq hread.trace
  have hcpu' : (s.perform (s.read process) stage).onCpu = s.onCpu := by
    rw [hcpu, ← hread.pid]
    rcases hstage with rfl | ⟨rfl | rfl, -⟩ <;> rfl
  have hw' : (s.perform (s.read process) stage).waitingPids = s.waitingPids := by
    rw [hw, ← hread.ready]
    rcases hstage with rfl | ⟨rfl | rfl, -⟩ <;> rfl
  have hended : (s.perform (s.read process) stage).scheduler.endedPids = s.scheduler.endedPids :=
    hended
  refine ⟨?_, ?_, ?_, ?_⟩
  · rcases hstage with rfl | ⟨rfl | rfl, -⟩
    · exact ⟨hsound, hatt⟩
    · exact ⟨hsound, hatt, hcp⟩
    · exact ⟨hsound, hatt, hcp⟩
  · rw [hcpu', hw', hended, hworkers]
    exact h.credit
  · rw [hcpu', hw', hended]
    intro pid hpid
    show pid ∈ (s.read process).receivedPids
    rw [hreceived]
    exact h.known pid hpid
  · have hcur : s.onCpu = some (s.scheduler.pcbs process).pid := by
      rw [hcpu, current, hc]
      rfl
    unfold Unexited
    rw [hcpu', hworkers, hcur]
    rcases hstage with rfl | ⟨rfl | rfl, hphase⟩
    · trivial
    · rintro pid ⟨⟩
      exact hphase
    · rintro pid ⟨⟩
      exact hphase

theorem crediting_guard (h : Crediting s) (hp : s.stage = .guard) {s' : Interleaving}
    (hstep : s.advance = some s') : Crediting s' := by
  have hshape := h.shape
  simp only [Shape, hp] at hshape
  obtain ⟨hs, ha⟩ := hshape
  have hcpu : s.onCpu = s.scheduler.current.map PCB.pid := by simp only [onCpu, hp]
  have hw : s.waitingPids = s.scheduler.ready.map PCB.pid := by simp only [waitingPids, hp]
  simp only [advance, hp] at hstep
  cases hc : s.scheduler.currentProcess with
  | none =>
    simp only [hc] at hstep
    cases hstep
    have hcredit := h.credit
    have hknown := h.known
    rw [hcpu, hw] at hcredit hknown
    exact ⟨⟨hs, ha⟩, hcredit, hknown, trivial⟩
  | some process =>
    obtain ⟨-, -, -, -, hstate, hrem⟩ := read_spec hs ha hc
    simp only [hc, hrem, hstate] at hstep
    split at hstep
    · cases hstep
      exact crediting_read h hs ha hc hcpu hw (Or.inl rfl)
    · rename_i hne
      simp only [ne_eq, reduceCtorEq, not_false_eq_true, if_true] at hstep
      cases hstep
      refine crediting_read h hs ha hc hcpu hw (Or.inr ⟨Or.inl rfl, fun hexit => ?_⟩)
      exact hne (h.credit.zero _ (Or.inl hexit))

theorem crediting_stop (h : Crediting s) (hp : s.stage = .stop process) :
    Crediting (s.perform (s.scheduler.stopProcess process) .requeue) := by
  have hshape := h.shape
  simp only [Shape, hp] at hshape
  obtain ⟨hs, ha, hc⟩ := hshape
  have hcur := current_some hc
  have hcpu : s.onCpu = some (s.scheduler.pcbs process).pid := by
    simp only [onCpu, hp, hcur, Option.map_some]
  have hw : s.waitingPids = s.scheduler.ready.map PCB.pid := by simp only [waitingPids, hp]
  obtain ⟨htouch, sent, ht⟩ := stopProcess_spec s.scheduler process
  have hcur' := htouch.current hc
  have hready := htouch.ready (hs.current_notMem _ hc)
  have hworkers := perform_workers .requeue ht
  rw [observe_stop] at hworkers
  obtain ⟨hended, hreceived⟩ := pids_ofSwitch ht fun e he => ofSwitch_stop he
  have hw' : (s.perform (s.scheduler.stopProcess process) .requeue).waitingPids =
      (s.scheduler.pcbs process).pid :: s.scheduler.ready.map PCB.pid := by
    show (s.scheduler.stopProcess process).held.map PCB.pid = _
    rw [held_some hcur', hready]
    rfl
  have hphase : (s.workers (s.scheduler.pcbs process).pid).phase ≠ .exited := by
    have hun := h.unexited
    simp only [Unexited, hp] at hun
    exact hun _ hcpu
  have hcredit := h.credit
  rw [hcpu, hw] at hcredit
  have hknown := h.known
  rw [hcpu, hw] at hknown
  have hsem := hs.current_semid _ hcur
  have hshm : (s.scheduler.pcbs process).shmId ≠ -1 := ha _ (by simp [held, hcur])
  refine crediting_of none _ ⟨htouch.allocated hs.toAllocated, ?_, ?_⟩ rfl hw' ?_ ?_ trivial
  · rw [perform_scheduler, held_some hcur', hready]
    intro p hmem
    rcases List.mem_cons.mp hmem with rfl | hmem
    · exact ⟨rfl, hsem, hshm⟩
    · exact settled_ready hs ha p hmem
  · rw [perform_scheduler, htouch.currentProcess, hc]
    simp
  · rw [hworkers, perform_scheduler, hended]
    exact hcredit.stop hphase
  · rw [perform_scheduler, hended, hreceived]
    simpa using hknown

/-- From the re-insertion on no process runs. -/
theorem crediting_requeue (h : Crediting s) (hp : s.stage = .requeue)
    (hc : s.scheduler.currentProcess = some process) :
    Crediting (s.perform (s.scheduler.requeue process) .pick) := by
  have hshape := h.shape
  simp only [Shape, hp] at hshape
  obtain ⟨hs, hsettled, -⟩ := hshape
  have hcur := current_some hc
  obtain ⟨-, hstored, ht, -, hsub, -⟩ :=
    requeue_spec hs.toStored (hs.current_lt _ hc) (hs.current_notMem _ hc)
  rw [← held_some hcur] at hsub
  obtain ⟨hended, hreceived⟩ := pids_eq ht
  have hcredit := h.credit
  have hknown := h.known
  simp only [onCpu, waitingPids, hp] at hcredit hknown
  have hpids : ((s.scheduler.requeue process).ready.map PCB.pid).Subperm
      (s.scheduler.held.map PCB.pid) := by
    obtain ⟨l, hl, hsl⟩ := hsub
    exact ⟨l.map PCB.pid, hl.map _, hsl.map _⟩
  refine crediting_of none _ ⟨hstored, fun p hmem => hsettled p (hsub.subset hmem)⟩ rfl rfl ?_ ?_
    trivial
  · rw [perform_workers_eq _ ht, perform_scheduler, hended]
    exact hcredit.subperm hpids
  · rw [perform_scheduler, hended, hreceived]
    intro pid hmem
    refine hknown pid ?_
    simp only [Option.toList_none, List.nil_append] at hmem ⊢
    exact (List.mem_append.mp hmem).elim (fun h => List.mem_append_left _ (hpids.subset h))
      (List.mem_append_right _)

theorem crediting_pick (h : Crediting s) (hp : s.stage = .pick) :
    Crediting (s.perform s.scheduler.pickProcess.1 (.dispatch s.scheduler.pickProcess.2)) := by
  have hshape := h.shape
  simp only [Shape, hp] at hshape
  obtain ⟨hs, hsettled⟩ := hshape
  obtain ⟨-, hstored, ht, hpick⟩ := pickProcess_spec hs fun p hp => (hsettled p hp).semid
  obtain ⟨hended, hreceived⟩ := pids_eq ht
  have hcredit := h.credit
  have hknown := h.known
  simp only [onCpu, waitingPids, hp] at hcredit hknown
  rcases hpick with ⟨hnil, hnil', hnone⟩ | ⟨process, hsome, hlt, hfresh, hperm⟩
  · refine crediting_of none (s.scheduler.ready.map PCB.pid) ⟨hstored, ?_, ?_⟩ rfl ?_ ?_ ?_ trivial
    · simp [hnil']
    · simp [hnone]
    · simp only [waitingPids, perform, hnone, hnil', hnil]
    · rw [perform_workers_eq _ ht, perform_scheduler, hended]
      exact hcredit
    · rw [perform_scheduler, hended, hreceived]
      exact hknown
  · have hpids := hperm.map PCB.pid
    refine crediting_of none ((s.scheduler.pickProcess.1.pcbs process ::
      s.scheduler.pickProcess.1.ready).map PCB.pid) ⟨hstored, ?_, ?_⟩ rfl ?_ ?_ ?_ trivial
    · exact fun p hmem => hsettled p (hperm.mem_iff.mpr (List.mem_cons_of_mem _ hmem))
    · rintro process' heq
      obtain rfl : process = process' := Option.some.inj (hsome.symm.trans heq)
      exact ⟨hlt, hfresh, hsettled _ (hperm.mem_iff.mpr List.mem_cons_self)⟩
    · simp only [waitingPids, perform, hsome]
    · rw [perform_workers_eq _ ht, perform_scheduler, hended]
      exact hcredit.subperm hpids.symm.subperm
    · rw [perform_scheduler, hended, hreceived]
      intro pid hmem
      refine hknown pid ?_
      simp only [Option.toList_none, List.nil_append] at hmem ⊢
      exact (List.mem_append.mp hmem).elim
        (fun h => List.mem_append_left _ (hpids.mem_iff.mpr h)) (List.mem_append_right _)

/-- Without a process to dispatch the CPU stays idle. -/
theorem crediting_idle (h : Crediting s) (hp : s.stage = .dispatch none) :
    Crediting (s.perform ({ s.scheduler with currentProcess := none }).dispatch .outside) := by
  have hshape := h.shape
  have hcredit := h.credit
  have hknown := h.known
  simp only [Shape, onCpu, waitingPids, hp] at hshape hcredit hknown
  obtain ⟨hs, hsettled, -⟩ := hshape
  have hready : ({ s.scheduler with currentProcess := none } : Scheduler).dispatch.ready =
      s.scheduler.ready := rfl
  have hcur : ({ s.scheduler with currentProcess := none } : Scheduler).dispatch.current = none :=
    rfl
  have hsound : Sound ({ s.scheduler with currentProcess := none } : Scheduler).dispatch := by
    refine ⟨⟨⟨hs.1, hs.2, hs.3, hs.4⟩, ?_, ?_⟩, ?_, ?_, ?_, ?_⟩
    · rintro p ⟨⟩
    · rintro p ⟨⟩
    · exact fun p hmem => (hsettled p hmem).state
    · simp [hcur]
    · exact fun p hmem => (hsettled p hmem).semid
    · simp [hcur]
  have hworkers := perform_workers_eq (s := s)
    (t := ({ s.scheduler with currentProcess := none } : Scheduler).dispatch) .outside rfl
  refine crediting_of none _ ⟨hsound, ?_⟩ rfl rfl ?_ ?_ trivial
  · intro p hmem
    rw [perform_scheduler, held_none hcur, hready] at hmem
    exact (hsettled p hmem).shm
  · rw [hworkers]
    exact hcredit
  · exact hknown

/-- The dispatch, with the process picked no longer in the ready structure. -/
theorem crediting_dispatch (h : Crediting s) (hp : s.stage = .dispatch (some process)) :
    Crediting
      (s.perform ({ s.scheduler with currentProcess := some process }).dispatch .outside) := by
  have hshape := h.shape
  have hcredit := h.credit
  have hknown := h.known
  simp only [Shape, onCpu, waitingPids, hp] at hshape hcredit hknown
  obtain ⟨hs, hsettled, hpicked⟩ := hshape
  obtain ⟨hlt, hfresh, hset⟩ := hpicked process rfl
  obtain ⟨htouch, sent, ht⟩ := dispatch_spec
    (s := { s.scheduler with currentProcess := some process }) rfl hset.semid
  have halloc : Allocated { s.scheduler with currentProcess := some process } := by
    refine ⟨⟨hs.1, hs.2, hs.3, hs.4⟩, ?_, ?_⟩
    · rintro p ⟨⟩
      exact hlt
    · rintro p ⟨⟩
      exact hfresh
  have hready := htouch.ready hfresh
  have hcur := htouch.current rfl
  generalize ({ s.scheduler with currentProcess := some process } : Scheduler).dispatch = t at *
  have hready : t.ready = s.scheduler.ready := hready
  have ht : t.trace = s.scheduler.trace ++ _ := ht
  have hworkers := perform_workers .outside ht
  rw [observe_cont, PCB.dispatched_pid] at hworkers
  obtain ⟨hended, hreceived⟩ := pids_ofSwitch ht fun e he => ofSwitch_cont he
  refine crediting_of (some (s.scheduler.pcbs process).pid) (s.scheduler.ready.map PCB.pid)
    ⟨⟨htouch.allocated halloc, ?_, ?_, ?_, ?_⟩, ?_⟩ ?_ ?_ ?_ ?_ trivial
  · exact fun p hmem => (hsettled p (hready ▸ hmem)).state
  · intro p heq
    obtain rfl : _ = p := Option.some.inj (hcur.symm.trans heq)
    exact PCB.dispatched_state _ _
  · exact fun p hmem => (hsettled p (hready ▸ hmem)).semid
  · intro p heq
    obtain rfl : _ = p := Option.some.inj (hcur.symm.trans heq)
    rw [PCB.dispatched_syncSemid]
    exact hset.semid
  · intro p hmem
    rw [perform_scheduler, held_some hcur, hready] at hmem
    rcases List.mem_cons.mp hmem with rfl | hmem
    · rw [PCB.dispatched_shmId]
      exact hset.shm
    · exact (hsettled p hmem).shm
  · show t.current.map PCB.pid = _
    rw [hcur, Option.map_some, PCB.dispatched_pid]
  · show t.ready.map PCB.pid = _
    rw [hready]
  · rw [hworkers, perform_scheduler, hended]
    exact hcredit.dispatch (.refl _)
  · rw [perform_scheduler, hended, hreceived]
    simpa using hknown

/-- Where the handler can be called in such a run: not between the guard and the next dispatch. -/
theorem crediting_settled (h : Crediting s) (hstage : s.stage = .outside ∨ s.stage = .guard) :
    Sound s.scheduler ∧ Attached s.scheduler ∧ s.onCpu = s.scheduler.current.map PCB.pid ∧
      s.waitingPids = s.scheduler.ready.map PCB.pid := by
  have hshape := h.shape
  rcases hstage with hp | hp <;> simp only [Shape, hp] at hshape <;>
    exact ⟨hshape.1, hshape.2, by simp only [onCpu, hp], by simp only [waitingPids, hp]⟩

/-- The current process is ended, on its own signal. -/
theorem crediting_retire {pid : ℤ} {signals : List ℤ} (h : Crediting s)
    (hstage : s.stage = .outside ∨ s.stage = .guard) (hsig : s.signals = pid :: signals)
    (hc : s.scheduler.currentProcess = some process) {u : Scheduler}
    (hu : u = { s.scheduler.feed (s.inputs process) with clockValue := s.clock }) :
    Crediting { s.perform (u.retire process) s.stage with signals } := by
  obtain ⟨hs, ha, hcpu, hw⟩ := crediting_settled h hstage
  have hsu : Sound u := by
    rw [hu]
    exact (hs.feed _).withClock _
  have hcu : u.currentProcess = some process := hu ▸ hc
  have hpu : u.pcbs process = s.scheduler.pcbs process := hu ▸ rfl
  have hru : u.ready = s.scheduler.ready := hu ▸ rfl
  have htu : u.trace = s.scheduler.trace := hu ▸ rfl
  obtain ⟨value, hsound, -, hnone, hready, ht⟩ := retire_spec hsu hcu
  rw [hpu, htu] at ht
  rw [hru] at hready
  have hcur' := current_eq_none.mpr hnone
  obtain ⟨hended, hreceived⟩ := pids_retire ht
  have hworkers := perform_workers s.stage ht
  rw [observe_retire] at hworkers
  have hcredit := h.credit
  have hknown := h.known
  have hcur : s.onCpu = some (s.scheduler.pcbs process).pid := by
    rw [hcpu, current, hc]
    rfl
  rw [hcur, hw] at hknown
  rw [hcur, hw, hsig] at hcredit
  refine crediting_of none (s.scheduler.ready.map PCB.pid) ?_ ?_ ?_ ?_ ?_ ?_
  · have hheld : ∀ p ∈ (u.retire process).held, p.shmId ≠ -1 := by
      rw [held_none hcur', hready]
      exact fun p hmem => ha p (List.mem_append_right _ hmem)
    rcases hstage with hp | hp <;> simp only [Shape, perform, hp] <;> exact ⟨hsound, hheld⟩
  · rcases hstage with hp | hp <;> simp [onCpu, perform, hp, hcur']
  · rcases hstage with hp | hp <;> simp only [waitingPids, perform, hp, hready]
  · rw [hworkers]
    exact hcredit.retire hended
  · intro q hmem
    show q ∈ (u.retire process).receivedPids
    rw [hreceived]
    refine hknown q ?_
    simp only [Option.toList_none, List.nil_append, Option.toList_some, List.mem_append,
      List.mem_cons, List.not_mem_nil, or_false] at hmem ⊢
    rcases hmem with hmem | hmem
    · exact Or.inl (Or.inr hmem)
    · rcases hended q hmem with hmem | hmem
      · exact Or.inr hmem
      · exact Or.inl (Or.inl hmem)
  · rcases hstage with hp | hp <;> simp only [Unexited, perform, hp]

/-- The handler then dispatches another process, if there is one. -/
theorem crediting_refill (h : Crediting s) (hstage : s.stage = .outside ∨ s.stage = .guard)
    (hnone : s.scheduler.current = none) :
    Crediting (s.perform s.scheduler.contextSwitching s.stage) := by
  obtain ⟨hs, ha, hcpu, hw⟩ := crediting_settled h hstage
  have hmove := contextSwitching_move hs
  obtain ⟨es, ht, hes⟩ := hmove.trace
  obtain ⟨hended, hreceived⟩ := pids_ofSwitch ht hes
  have hcredit := h.credit
  have hknown := h.known
  rw [hcpu, hnone, hw] at hcredit hknown
  obtain ⟨-, -, hswitched⟩ := contextSwitching_spec hs
  have hshape : ∀ held : List PCB, s.scheduler.contextSwitching.held = held →
      (∀ p ∈ held, p.shmId ≠ -1) → (s.perform s.scheduler.contextSwitching s.stage).Shape := by
    rintro held rfl hall
    rcases hstage with hp | hp <;> simp only [Shape, perform, hp] <;> exact ⟨hmove.sound, hall⟩
  have hready : ∀ p ∈ s.scheduler.ready, p.shmId ≠ -1 :=
    fun p hmem => ha p (List.mem_append_right _ hmem)
  have hun : (s.perform s.scheduler.contextSwitching s.stage).Unexited := by
    rcases hstage with hp | hp <;> simp only [Unexited, perform, hp]
  cases hswitched with
  | kept _ hc => simp [hnone] at hc
  | replaced _ _ _ _ _ hc => simp [hnone] at hc
  | idle _ hr hc' hr' ht =>
    refine crediting_of none (s.scheduler.ready.map PCB.pid) (hshape _ (held_none hc') ?_) ?_ ?_ ?_ ?_
      hun
    · simp [hr']
    · rcases hstage with hp | hp <;> simp [onCpu, perform, hp, hc']
    · rcases hstage with hp | hp <;> simp only [waitingPids, perform, hp, hr', hr]
    · rw [perform_workers_eq _ ht, perform_scheduler, hended]
      exact hcredit
    · rw [perform_scheduler, hended, hreceived]
      exact hknown
  | dispatched q sent _ hr hc' ht =>
    have hworkers := perform_workers s.stage ht
    rw [observe_cont, PCB.dispatched_pid] at hworkers
    have hpids := hr.map PCB.pid
    refine crediting_of (some q.pid) (s.scheduler.contextSwitching.ready.map PCB.pid)
      (hshape _ (held_some hc') ?_) ?_ ?_ ?_ ?_ hun
    · intro p hmem
      rcases List.mem_cons.mp hmem with rfl | hmem
      · rw [PCB.dispatched_shmId]
        exact hready q (hr.mem_iff.mpr List.mem_cons_self)
      · exact hready p (hr.mem_iff.mpr (List.mem_cons_of_mem _ hmem))
    · rcases hstage with hp | hp <;> simp [onCpu, perform, hp, hc']
    · rcases hstage with hp | hp <;> simp only [waitingPids, perform, hp]
    · rw [hworkers, perform_scheduler, hended]
      exact hcredit.dispatch hpids
    · rw [perform_scheduler, hended, hreceived]
      intro pid hmem
      refine hknown pid ?_
      simp only [Option.map_none, Option.toList_none, List.nil_append] at hmem ⊢
      rcases List.mem_append.mp hmem with hmem | hmem
      · exact List.mem_append_left _ (hpids.mem_iff.mpr hmem)
      · exact List.mem_append_right _ hmem

theorem crediting_sigusr2 {pid : ℤ} {signals : List ℤ} (h : Crediting s)
    (hsig : s.signals = pid :: signals) (hcrash : s.stage ≠ .crashed) :
    Crediting { s.perform s.complete s.stage with signals } := by
  obtain ⟨hcpu, hexit⟩ := h.credit.sender pid (hsig ▸ List.mem_cons_self)
  have hstage : s.stage = .outside ∨ s.stage = .guard := by
    have hun := h.unexited
    cases hp : s.stage <;> simp only [Unexited, onCpu, hp, reduceCtorEq] at hun hcpu
    case outside => exact Or.inl rfl
    case guard => exact Or.inr rfl
    case preemptRead | stop => exact absurd hexit (hun pid hcpu)
    case crashed => exact absurd hp hcrash
  obtain ⟨hs, -, hcpu', -⟩ := crediting_settled h hstage
  obtain ⟨p, hcur, -⟩ := Option.map_eq_some_iff.mp (hcpu'.symm.trans hcpu)
  obtain ⟨process, hc, -⟩ := Option.map_eq_some_iff.mp hcur
  have hret := crediting_retire h hstage hsig hc rfl
  have hsu : Sound { s.scheduler.feed (s.inputs process) with clockValue := s.clock } :=
    (hs.feed _).withClock _
  obtain ⟨value, hsound, -, hnone, -, ht⟩ := retire_spec hsu hc
  have hcomplete : s.complete = completeCurrent
      { s.scheduler.feed (s.inputs process) with clockValue := s.clock } := by
    unfold complete
    rw [hc]
    rfl
  have hcu : ({ s.scheduler.feed (s.inputs process) with clockValue := s.clock } :
      Scheduler).currentProcess = some process := hc
  rw [hcomplete, completeCurrent, hcu]
  dsimp only
  split
  · have hfill := crediting_refill hret hstage (current_eq_none.mpr hnone)
    obtain ⟨es, hes, -⟩ := (contextSwitching_move hsound).trace
    rw [← perform_perform signals ht hes]
    exact hfill
  · exact hret

/-- A message is stored, and its process has been stopped. -/
theorem crediting_receive {p : PCB} (h : Crediting s) (hp : s.stage = .outside)
    (hok : NewProcesses s (.receive p)) :
    Crediting { s with
      scheduler := s.scheduler.handleProcessArrival p
      workers := Function.update s.workers p.pid (.create p.executionTime) } := by
  obtain ⟨hsem, hshm, hnew⟩ := hok
  obtain ⟨hs, ha, hcpu, hw⟩ := crediting_settled h (Or.inl hp)
  obtain ⟨hsound, -, hc, hsub, -, ht⟩ := handleProcessArrival_spec hs hsem
  have hended : (s.scheduler.handleProcessArrival p).endedPids = s.scheduler.endedPids := by
    simp [endedPids, ht, Effect.endedPid]
  have hreceived : (s.scheduler.handleProcessArrival p).receivedPids =
      s.scheduler.receivedPids ++ [p.pid] := by
    simp [receivedPids, ht, Effect.receivedPid]
  have hcredit := h.credit
  have hknown := h.known
  have hfresh : ∀ {l : List ℤ}, (∀ q ∈ l, q ∈ s.onCpu.toList ++ s.waitingPids ++
      s.scheduler.endedPids) → p.pid ∉ l :=
    fun hall hmem => hnew (hknown _ (hall _ hmem))
  have harrive := hcredit.arrive p.executionTime
    (fun heq => hfresh (l := s.onCpu.toList) (fun q hq => by simp [hq]) (by simp [heq]))
    (hfresh fun q hq => by simp [hq]) (hfresh fun q hq => by simp [hq])
  rw [hcpu, hw] at harrive hknown
  have hpids : ((s.scheduler.handleProcessArrival p).ready.map PCB.pid).Subperm
      (p.pid :: s.scheduler.ready.map PCB.pid) := by
    obtain ⟨l, hl, hsl⟩ := hsub
    exact ⟨l.map PCB.pid, hl.map _, hsl.map PCB.pid⟩
  refine crediting_of (s.scheduler.current.map PCB.pid)
    ((s.scheduler.handleProcessArrival p).ready.map PCB.pid) ?_ ?_ ?_ ?_ ?_ ?_
  · simp only [Shape, hp]
    refine ⟨hsound, fun q hmem => ?_⟩
    rw [held, hc] at hmem
    rcases List.mem_append.mp hmem with hmem | hmem
    · exact ha q (List.mem_append_left _ hmem)
    · rcases List.mem_cons.mp (hsub.subset hmem) with rfl | hmem
      · exact hshm
      · exact ha q (List.mem_append_right _ hmem)
  · simp only [onCpu, hp, hc]
  · simp only [waitingPids, hp]
  · show Credit _ _ (s.scheduler.handleProcessArrival p).endedPids _ _
    rw [hended]
    exact harrive.subperm hpids
  · show ∀ pid ∈ _ ++ (s.scheduler.handleProcessArrival p).endedPids,
      pid ∈ (s.scheduler.handleProcessArrival p).receivedPids
    rw [hended, hreceived]
    intro pid hmem
    simp only [List.mem_append] at hmem ⊢
    rcases hmem with (hmem | hmem) | hmem
    · exact Or.inl (hknown pid (by simp [hmem]))
    · rcases List.mem_cons.mp (hpids.subset hmem) with rfl | hmem
      · exact Or.inr (by simp)
      · exact Or.inl (hknown pid (List.mem_append_left _ (List.mem_append_right _ hmem)))
    · exact Or.inl (hknown pid (by simp [hmem]))
  · simp only [Unexited, hp]

theorem crediting_grant (h : Crediting s) (hp : s.stage = .outside) :
    Crediting (s.perform s.scheduler.grantTick .outside) := by
  obtain ⟨hs, ha, hcpu, hw⟩ := crediting_settled h (Or.inl hp)
  have hsound := hs.grantTick
  have hcredit := h.credit
  have hknown := h.known
  rw [hcpu, hw] at hcredit hknown
  cases hc : s.scheduler.currentProcess with
  | none =>
    rw [grantTick_none hc]
    refine crediting_of _ _ ⟨hs, ha⟩ rfl rfl ?_ hknown trivial
    rw [perform_workers_eq _ rfl]
    exact hcredit
  | some process =>
    rw [grantTick_some hc] at hsound ⊢
    have ht : (s.scheduler.emit (.grant (s.scheduler.pcbs process))).trace =
      s.scheduler.trace ++ [.grant (s.scheduler.pcbs process)] := rfl
    obtain ⟨hended, hreceived⟩ := pids_grant s.scheduler (s.scheduler.pcbs process)
    refine crediting_of (s.scheduler.current.map PCB.pid) (s.scheduler.ready.map PCB.pid)
      ⟨hsound, ha⟩ rfl rfl ?_ ?_ trivial
    · rw [perform_workers _ ht, perform_scheduler, hended]
      refine hcredit.congr fun pid => ?_
      by_cases heq : pid = (s.scheduler.pcbs process).pid
      · subst heq
        simp [observe]
      · simp [observe, Function.update_of_ne heq]
    · rw [perform_scheduler, hended, hreceived]
      exact hknown

/-- A call of `context_switching`: without a current process nothing is stopped. -/
theorem crediting_switch (h : Crediting s) (hp : s.stage = .outside) :
    Crediting { s with stage := if s.scheduler.currentProcess = none then .pick else .guard } := by
  obtain ⟨hs, ha, hcpu, hw⟩ := crediting_settled h (Or.inl hp)
  have hcredit := h.credit
  have hknown := h.known
  rw [hcpu, hw] at hcredit hknown
  split
  · rename_i hc
    rw [current_eq_none.mpr hc] at hcredit hknown
    exact ⟨⟨hs.toStored, settled_ready hs ha⟩, hcredit, hknown, trivial⟩
  · exact ⟨⟨hs, ha⟩, hcredit, hknown, trivial⟩

theorem crediting_worker {pid : ℤ} {act : WorkerAct} {w : Worker} (h : Crediting s)
    (hok : NoneBetween s (.worker pid act)) (hw : (s.workers pid).next s.clock act = some w) :
    Crediting { s with
      workers := Function.update s.workers pid w
      signals := if act = .kill then s.signals ++ [pid] else s.signals } := by
  obtain ⟨hrun, hstep⟩ := workerStep_of_next hw
  refine ⟨h.shape, h.credit.step hrun hstep, h.known, ?_⟩
  have hun := h.unexited
  cases hp : s.stage <;> simp only [Unexited, onCpu, hp] at hun ⊢
  case preemptRead process | stop process =>
    intro q hq
    by_cases heq : q = pid
    · subst heq
      rw [Function.update_self]
      cases hstep with
      | kill => exact absurd (hok process) (by simp [hp])
      | down | clear => simp
      | decrement => dsimp only; split <;> simp
    · rw [Function.update_of_ne heq]
      exact hun q hq

theorem crediting_sigusr1 (h : Crediting s) :
    Crediting { s with scheduler := s.scheduler.handleGeneratorCompletion } := by
  refine ⟨?_, h.credit, h.known, h.unexited⟩
  have hshape := h.shape
  cases hp : s.stage <;> simp only [Shape, hp] at hshape ⊢
  case outside | guard | crashed =>
    exact ⟨sound_preserved.generator _ hshape.1, hshape.2⟩
  case preemptRead process | stop process =>
    exact ⟨sound_preserved.generator _ hshape.1, hshape.2.1, hshape.2.2⟩
  case requeue =>
    obtain ⟨ha, hsettled, hc⟩ := hshape
    exact ⟨⟨ha.toStored.congr rfl rfl rfl, ha.current_lt, ha.current_notMem⟩, hsettled, hc⟩
  case pick => exact ⟨hshape.1.congr rfl rfl rfl, hshape.2⟩
  case dispatch newProcess => exact ⟨hshape.1.congr rfl rfl rfl, hshape.2⟩

theorem crediting_advance (h : Crediting s) (hstep : s.advance = some s') : Crediting s' := by
  have hshape := h.shape
  cases hp : s.stage with
  | guard => exact crediting_guard h hp hstep
  | preemptRead process =>
    simp only [Shape, advance, hp] at hshape hstep
    cases hstep
    obtain ⟨hs, ha, hc⟩ := hshape
    have hcpu : s.onCpu = s.scheduler.current.map PCB.pid := by simp only [onCpu, hp]
    have hw : s.waitingPids = s.scheduler.ready.map PCB.pid := by simp only [waitingPids, hp]
    refine crediting_read h hs ha hc hcpu hw (Or.inr ⟨Or.inr rfl, ?_⟩)
    have hun := h.unexited
    simp only [Unexited, hp] at hun
    exact hun _ (by rw [hcpu, current, hc]; rfl)
  | stop process =>
    simp only [advance, hp] at hstep
    cases hstep
    exact crediting_stop h hp
  | requeue =>
    simp only [Shape, hp] at hshape
    obtain ⟨process, hc⟩ := Option.ne_none_iff_exists'.mp hshape.2.2
    simp only [advance, hp, hc] at hstep
    cases hstep
    exact crediting_requeue h hp hc
  | pick =>
    simp only [advance, hp] at hstep
    cases hstep
    exact crediting_pick h hp
  | dispatch newProcess =>
    simp only [advance, hp] at hstep
    cases hstep
    cases newProcess with
    | none => exact crediting_idle h hp
    | some process => exact crediting_dispatch h hp
  | outside | crashed =>
    simp only [advance, hp] at hstep
    cases hstep

/-- One step of the scheduler, of a process or of a signal. -/
theorem crediting_next {a : InterleavingAct} (h : Crediting s) (hnew : NewProcesses s a)
    (hok : NoneBetween s a) (hstep : s.next a = some s') : Crediting s' := by
  cases a with
  | tick =>
    cases hstep
    exact ⟨h.shape, h.credit, h.known, h.unexited⟩
  | worker pid act =>
    simp only [next, Option.map_eq_some_iff] at hstep
    obtain ⟨w, hw, rfl⟩ := hstep
    exact crediting_worker h hok hw
  | sigusr1 =>
    cases hstep
    exact crediting_sigusr1 h
  | sigusr2 =>
    simp only [next] at hstep
    split at hstep
    · cases hstep
    · rename_i pid signals hsig
      simp only [Option.ite_none_left_eq_some, not_or, Option.some.injEq] at hstep
      obtain ⟨⟨hcrash, -⟩, rfl⟩ := hstep
      exact crediting_sigusr2 h hsig hcrash
  | receive p =>
    simp only [next, Option.ite_none_right_eq_some, Option.some.injEq] at hstep
    obtain ⟨hp, rfl⟩ := hstep
    exact crediting_receive h hp hnew
  | setClock clk =>
    simp only [next, Option.ite_none_right_eq_some, Option.some.injEq] at hstep
    obtain ⟨hp, rfl⟩ := hstep
    have hshape := h.shape
    simp only [Shape, hp] at hshape
    refine ⟨?_, h.credit, h.known, h.unexited⟩
    simp only [Shape, hp]
    exact ⟨hshape.1.withClock clk, hshape.2⟩
  | reread =>
    simp only [next] at hstep
    split at hstep
    · rename_i process hp hc
      cases hstep
      obtain ⟨hs, ha, hcpu, hw⟩ := crediting_settled h (Or.inl hp)
      exact crediting_read h hs ha hc hcpu hw (Or.inl rfl)
    · cases hstep
  | grant =>
    simp only [next, Option.ite_none_right_eq_some, Option.some.injEq] at hstep
    obtain ⟨hp, rfl⟩ := hstep
    exact crediting_grant h hp
  | switch =>
    simp only [next, Option.ite_none_right_eq_some, Option.some.injEq] at hstep
    obtain ⟨hp, rfl⟩ := hstep
    exact crediting_switch h hp.1
  | advance => exact crediting_advance h hstep

/-! Without steps in between, the stages make up `contextSwitching`. -/

theorem advance_pick (hp : s.stage = .pick) :
    ∃ t, Trace (fun s a t => next s a = some t) s [.advance, .advance] t ∧ t.stage = .outside ∧
      t.scheduler = s.scheduler.switchToNext := by
  have hpick : s.next .advance = some
      (s.perform s.scheduler.pickProcess.1 (.dispatch s.scheduler.pickProcess.2)) := by
    simp only [next, advance, hp]
  exact ⟨_, (Trace.refl.snoc hpick).snoc rfl, rfl, rfl⟩

theorem advance_stop (hp : s.stage = .stop process)
    (hc : s.scheduler.currentProcess = some process) :
    ∃ t, Trace (fun s a t => next s a = some t) s [.advance, .advance, .advance, .advance] t ∧
      t.stage = .outside ∧
      t.scheduler = ((s.scheduler.stopProcess process).requeue process).switchToNext := by
  have hstop : s.next .advance =
      some (s.perform (s.scheduler.stopProcess process) .requeue) := by
    simp only [next, advance, hp]
  have hc' : (s.scheduler.stopProcess process).currentProcess = some process :=
    (stopProcess_spec s.scheduler process).1.currentProcess.trans hc
  generalize hstopped : s.perform (s.scheduler.stopProcess process) .requeue = u at hstop
  have hu : u.scheduler = s.scheduler.stopProcess process := by rw [← hstopped]; rfl
  have hrequeue : u.next .advance = some (u.perform (u.scheduler.requeue process) .pick) := by
    have hstage : u.stage = .requeue := by rw [← hstopped]; rfl
    simp only [next, advance, hstage, hu, hc']
  obtain ⟨t, hrun, hout, hsched⟩ :=
    advance_pick (s := u.perform (u.scheduler.requeue process) .pick) rfl
  refine ⟨t, ((Trace.refl.snoc hstop).snoc hrequeue).trans hrun, hout, ?_⟩
  rw [hsched, perform_scheduler, hu]

/-- What the two readings of `context_switching` see when no process runs in between; the second
is made only when the first is not 0. -/
def switchInputs (s : Interleaving) (process : ℕ) : Inputs :=
  let value := (s.workers (s.scheduler.pcbs process).pid).sharedRemainingTime
  ⟨if value = 0 then [some value] else [some value, some value], []⟩

/-- A reading of shared memory that is the next one to come. -/
theorem updateProcessRemainingTime_attached {u : Scheduler} {value : ℤ} {rest : List (Option ℤ)}
    (hshm : (u.pcbs process).shmId ≠ -1) (hr : u.readings = some value :: rest) :
    u.updateProcessRemainingTime process = { u with
      readings := rest
      pcbs := Function.update u.pcbs process
        { u.pcbs process with remainingTime := value } } := by
  rw [updateProcessRemainingTime, if_pos hshm, hr]
  rfl

/-- Two readings one at a time see what two readings from one list see. -/
theorem read_read (hshm : (s.scheduler.pcbs process).shmId ≠ -1)
    (hv : (s.workers (s.scheduler.pcbs process).pid).sharedRemainingTime ≠ 0) :
    (s.perform (s.read process) stage).read process =
      ((s.scheduler.feed (s.switchInputs process)).updateProcessRemainingTime
        process).updateProcessRemainingTime process := by
  obtain ⟨value, hinput, hinputs⟩ : ∃ value, s.inputs process = ⟨[some value], []⟩ ∧
      s.switchInputs process = ⟨[some value, some value], []⟩ :=
    ⟨_, rfl, by simp only [switchInputs, hv, if_false]⟩
  have hread := updateProcessRemainingTime_attached (u := s.scheduler.feed ⟨[some value], []⟩)
    hshm rfl
  have htrace : (s.read process).trace = s.scheduler.trace := by
    rw [read, hinput, hread]
    rfl
  have hpid : ((s.read process).pcbs process).pid = (s.scheduler.pcbs process).pid := by
    obtain ⟨v, htouch, -⟩ :=
      updateProcessRemainingTime_spec (s.scheduler.feed (s.inputs process)) process
    rw [read, htouch.pcb]
    rfl
  have hagain : (s.perform (s.read process) stage).inputs process = s.inputs process := by
    rw [inputs, perform_workers_eq stage htrace, perform_scheduler, hpid]
    rfl
  rw [hinputs, updateProcessRemainingTime_attached
    (u := s.scheduler.feed ⟨[some value, some value], []⟩) hshm rfl, read, hagain,
    perform_scheduler, read, hinput, hread]
  rfl

theorem advance_contextSwitching (hs : Sound s.scheduler) (ha : Attached s.scheduler)
    (hp : s.stage = .guard) (hc : s.scheduler.currentProcess = some process) :
    ∃ as t, Trace (fun s a t => next s a = some t) s as t ∧ (∀ a ∈ as, a = .advance) ∧
      t.stage = .outside ∧
      t.scheduler = (s.scheduler.feed (s.switchInputs process)).contextSwitching := by
  obtain ⟨-, -, -, hcp, hstate, hrem⟩ := read_spec hs ha hc
  have hshm : (s.scheduler.pcbs process).shmId ≠ -1 := ha _ (by simp [held, current, hc])
  have hguard : ((s.scheduler.feed (s.switchInputs process)).updateProcessRemainingTime
      process).pcbs process = (s.read process).pcbs process := by
    have hone : ∃ rest, s.switchInputs process =
        ⟨some (s.workers (s.scheduler.pcbs process).pid).sharedRemainingTime :: rest, []⟩ := by
      unfold switchInputs
      dsimp only
      split <;> exact ⟨_, rfl⟩
    obtain ⟨rest, hone⟩ := hone
    rw [hone, updateProcessRemainingTime_attached (u := s.scheduler.feed ⟨some _ :: rest, []⟩)
      hshm rfl, read, updateProcessRemainingTime_attached
        (u := s.scheduler.feed (s.inputs process)) hshm rfl]
    rfl
  rw [contextSwitching_some (hs.feed _) hc, hguard, hrem]
  split
  · rename_i hv
    have hstep : s.next .advance = some (s.perform (s.read process) .outside) := by
      simp only [next, advance, hp, hc, hrem, hv, if_true]
    refine ⟨[.advance], _, Trace.refl.snoc hstep, by simp, rfl, ?_⟩
    rw [perform_scheduler, read, inputs, switchInputs]
    simp only [hv, if_true]
  · rename_i hv
    have hstep : s.next .advance = some (s.perform (s.read process) (.preemptRead process)) := by
      simp only [next, advance, hp, hc, hrem, hv, hstate, if_false]
      simp
    have htwice : (s.perform (s.read process) (.preemptRead process)).read process = _ :=
      read_read hshm hv
    have hstage : (s.perform (s.read process) (.preemptRead process)).stage =
      .preemptRead process := rfl
    generalize hu : s.perform (s.read process) (.preemptRead process) = u at hstep htwice hstage
    have hcu : u.scheduler.currentProcess = some process := by rw [← hu]; exact hcp
    have hread : u.next .advance = some (u.perform (u.read process) (.stop process)) := by
      simp only [next, advance, hstage]
    have hcr : (u.read process).currentProcess = some process := by
      obtain ⟨v, htouch, -⟩ :=
        updateProcessRemainingTime_spec (u.scheduler.feed (u.inputs process)) process
      exact htouch.currentProcess.trans hcu
    obtain ⟨t, hrun, hout, hsched⟩ :=
      advance_stop (s := u.perform (u.read process) (.stop process)) rfl hcr
    refine ⟨_, t, ((Trace.refl.snoc hstep).snoc hread).trans hrun, by simp, hout, ?_⟩
    rw [hsched, perform_scheduler, htwice, preemptProcess]

theorem Crediting.credited (h : Crediting s) : Credited s := by
  refine ⟨fun pid hmem => ?_, fun pid hmem => ?_, fun p hmem => ?_⟩
  · obtain ⟨hcpu, -⟩ := h.credit.sender pid hmem
    have hcur : s.scheduler.current.map PCB.pid = some pid := by
      unfold onCpu at hcpu
      split at hcpu <;> first | exact hcpu | cases hcpu
    exact Option.map_eq_some_iff.mp hcur
  · have hexit := h.credit.exited pid hmem
    exact ⟨hexit, h.credit.zero pid (Or.inl hexit)⟩
  · refine h.credit.unfinished p.pid ?_
    have hpid : p.pid ∈ s.scheduler.ready.map PCB.pid := List.mem_map_of_mem hmem
    unfold waitingPids
    split
    · rw [held, List.map_append]
      exact List.mem_append_right _ hpid
    · exact List.mem_cons_of_mem _ hpid
    · exact hpid

theorem crediting_initial (algorithm : SchedulingAlgorithm) (quantum clk : ℤ) :
    Crediting (initial algorithm quantum clk) := by
  have hheld := initial_held algorithm quantum clk
  have hready : (Scheduler.initial algorithm quantum clk).ready = [] := by
    rw [← hheld, held_none (current_eq_none.mpr rfl)]
  refine crediting_of none [] ⟨sound_initial algorithm quantum clk, ?_⟩ rfl ?_ ?_ ?_ trivial
  · show Attached (Scheduler.initial algorithm quantum clk)
    simp [Attached, hheld]
  · show (Scheduler.initial algorithm quantum clk).ready.map PCB.pid = []
    rw [hready, List.map_nil]
  · constructor <;>
      simp [initial, Worker.create, endedPids, Scheduler.initial]
  · simp [initial, endedPids, Scheduler.initial]

end Interleaving

open Interleaving

/-- Every completion is credited to its sender, in every interleaving in which no process sends its
signal between the reading that finds it unfinished and its `SIGSTOP`. -/
theorem credited_always (algorithm : SchedulingAlgorithm) (quantum clk : ℤ)
    (as : List InterleavingAct) :
    Always (Guarded (fun s a => NewProcesses s a ∧ NoneBetween s a) Interleaving.next)
      (Interleaving.initial algorithm quantum clk) as Credited := by
  intro pre s _ ht
  refine Crediting.credited (ht.invariant (P := Crediting) ?_ (crediting_initial _ _ _))
  rintro s a s' h ⟨⟨hnew, hok⟩, hstep⟩
  exact crediting_next h hnew hok hstep

/-- Under RR the first process ends between the reading that finds it with one tick left and its
`SIGSTOP`; its signal is handled when the second process has been dispatched. -/
def lateSignalRun : List InterleavingAct :=
  [.receive (Process.newPcb ⟨1, 0, 1, 0, 64⟩ 101 11 21),
    .receive (Process.newPcb ⟨2, 0, 5, 0, 64⟩ 102 12 22),
    .setClock 0, .switch, .advance, .advance, .grant, .worker 101 .down,
    .tick, .setClock 1, .reread, .switch, .advance,
    .worker 101 .decrement, .worker 101 .clear, .worker 101 .kill,
    .advance, .advance, .advance, .advance, .advance, .sigusr2]

/-- The second process is ended with its 5 ticks to go. -/
theorem lateSignal_miscredited :
    ¬ Always (Guarded NewProcesses Interleaving.next) (Interleaving.initial .RR 1 0) lateSignalRun
      Credited := by
  intro h
  obtain ⟨s, hrun, htest⟩ := exists_trace_of_execute
    (R := fun s a t => Interleaving.next s a = some t) (fun _ _ _ h => h)
    (show (execute NewProcesses Interleaving.next (Interleaving.initial .RR 1 0) lateSignalRun).any
      (fun s => 102 ∈ s.scheduler.endedPids ∧ (s.workers 102).sharedRemainingTime = 5) = true by
        decide +kernel)
  obtain ⟨hended, hleft⟩ := of_decide_eq_true htest
  have hzero := ((h _ s (List.prefix_refl _) hrun).ended 102 hended).2
  rw [hleft] at hzero
  cases hzero

end KernelSim
