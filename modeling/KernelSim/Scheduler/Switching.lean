import KernelSim.Scheduler.Scheduler
import Mathlib.Data.List.Perm.Subperm

/-! What a context switch does to the processes a scheduler holds. -/
namespace KernelSim
open RingBuffer

/-- The PCB after `start_process` at time `clk`. -/
def PCB.start (clk : ℤ) (p : PCB) : PCB :=
  { p with state := .running, startTime := clk, waitingTime := clk - p.arrivalTime }

/-- The PCB after `resume_process` at time `clk`. -/
def PCB.resume (clk : ℤ) (p : PCB) : PCB :=
  { p with
    state := .running
    waitingTime := if p.lastPremptTime ≠ -1 then p.waitingTime + (clk - p.lastPremptTime)
      else p.waitingTime }

def PCB.dispatched (clk : ℤ) (p : PCB) : PCB :=
  if p.startTime = -1 then p.start clk else p.resume clk

/-- The PCB after `preempt_process` at time `clk`, having read the remaining time `value`. -/
def PCB.preempted (clk value : ℤ) (p : PCB) : PCB :=
  { p with remainingTime := value, state := .ready, lastPremptTime := clk }

namespace Scheduler

/-- The processes in the ready structure. -/
def ready (s : Scheduler) : List PCB :=
  match s.algorithm with
  | .RR => s.rrQueue.toList
  | _ => s.readyHeap.toList.map s.pcbs

def current (s : Scheduler) : Option PCB := s.currentProcess.map s.pcbs

/-- The ready structures are in order: their pointers lead to different allocated PCBs. -/
structure Stored (s : Scheduler) : Prop where
  queue : s.rrQueue.Valid
  capacity : s.readyHeap.capacity = 1024
  nodup : s.readyHeap.toList.Nodup
  heap_lt : ∀ p ∈ s.readyHeap.toList, p < s.nextPcb

/-- And so does `current_process`. -/
structure Allocated (s : Scheduler) : Prop extends Stored s where
  current_lt : ∀ p, s.currentProcess = some p → p < s.nextPcb
  current_notMem : ∀ p, s.currentProcess = some p → p ∉ s.readyHeap.toList

/-- The invariant of every run: pointers in order, and states and semaphores as they should be. -/
structure Sound (s : Scheduler) : Prop extends Allocated s where
  ready_state : ∀ p ∈ s.ready, p.state = .ready
  current_state : ∀ p, s.current = some p → p.state = .running
  ready_semid : ∀ p ∈ s.ready, 0 < p.syncSemid
  current_semid : ∀ p, s.current = some p → 0 < p.syncSemid

/-- What a context switch leaves alone. -/
structure SameBooks (s s' : Scheduler) : Prop where
  algorithm : s'.algorithm = s.algorithm
  quantum : s'.quantum = s.quantum
  processCount : s'.processCount = s.processCount
  finishedProcesses : s'.finishedProcesses = s.finishedProcesses
  generatorFinished : s'.generatorFinished = s.generatorFinished
  turnaroundTimes : s'.turnaroundTimes = s.turnaroundTimes
  waitTimes : s'.waitTimes = s.waitTimes
  clockValue : s'.clockValue = s.clockValue

theorem SameBooks.refl (s : Scheduler) : SameBooks s s := ⟨rfl, rfl, rfl, rfl, rfl, rfl, rfl, rfl⟩

theorem SameBooks.trans {s t w : Scheduler} (h : SameBooks s t) (h' : SameBooks t w) :
    SameBooks s w :=
  ⟨h'.1.trans h.1, h'.2.trans h.2, h'.3.trans h.3, h'.4.trans h.4, h'.5.trans h.5,
    h'.6.trans h.6, h'.7.trans h.7, h'.8.trans h.8⟩

/-- Only the PCB at `process` changes, to `p`. -/
structure Touches (s s' : Scheduler) (process : ℕ) (p : PCB) : Prop extends SameBooks s s' where
  pcbs : s'.pcbs = Function.update s.pcbs process p
  nextPcb : s'.nextPcb = s.nextPcb
  currentProcess : s'.currentProcess = s.currentProcess
  readyHeap : s'.readyHeap = s.readyHeap
  rrQueue : s'.rrQueue = s.rrQueue

variable {s s' t : Scheduler} {process a : ℕ} {p q : PCB} {x : ℤ}

/-- `s` with the accounting, the inputs and the outputs of `t`, and its PCBs. -/
def withAccounts (s t : Scheduler) : Scheduler :=
  { s with
    pcbs := t.pcbs
    startTime := t.startTime
    activeCpuTime := t.activeCpuTime
    timeSliceStart := t.timeSliceStart
    readings := t.readings
    kills := t.kills
    trace := t.trace }

theorem touches_of (hp : s'.pcbs = Function.update s.pcbs process p)
    (h : s'.withAccounts s = s) : Touches s s' process p := by
  have field : ∀ {β : Type} (f : Scheduler → β), f (s'.withAccounts s) = f s :=
    fun f => congrArg f h
  exact ⟨⟨field algorithm, field quantum, field processCount, field finishedProcesses,
      field generatorFinished, field turnaroundTimes, field waitTimes, field clockValue⟩,
    hp, field nextPcb, field currentProcess, field readyHeap, field rrQueue⟩

theorem Touches.trans {p' : PCB} (h : Touches s t process p) (h' : Touches t s' process p') :
    Touches s s' process p' :=
  ⟨h.toSameBooks.trans h'.toSameBooks, by rw [h'.pcbs, h.pcbs, Function.update_idem],
    h'.nextPcb.trans h.nextPcb, h'.currentProcess.trans h.currentProcess,
    h'.readyHeap.trans h.readyHeap, h'.rrQueue.trans h.rrQueue⟩

theorem Touches.pcb (h : Touches s s' process p) : s'.pcbs process = p := by
  rw [h.pcbs, Function.update_self]

theorem Touches.ready (h : Touches s s' process p) (hp : process ∉ s.readyHeap.toList) :
    s'.ready = s.ready := by
  have hmap : s'.readyHeap.toList.map s'.pcbs = s.readyHeap.toList.map s.pcbs := by
    rw [h.readyHeap, h.pcbs]
    apply List.map_congr_left
    intro a ha
    rw [Function.update_of_ne]
    rintro rfl
    exact hp ha
  simp only [Scheduler.ready, h.algorithm, h.rrQueue, hmap]

theorem current_some (hc : s.currentProcess = some process) : s.current = some (s.pcbs process) := by
  rw [Scheduler.current, hc, Option.map_some]

theorem Touches.current (h : Touches s s' process p) (hc : s.currentProcess = some process) :
    s'.current = some p := by
  rw [Scheduler.current, h.currentProcess, hc, Option.map_some, h.pcb]

theorem Touches.allocated (h : Touches s s' process p) (ha : Allocated s) : Allocated s' where
  queue := h.rrQueue ▸ ha.queue
  capacity := h.readyHeap ▸ ha.capacity
  nodup := h.readyHeap ▸ ha.nodup
  heap_lt := by
    rw [h.readyHeap, h.nextPcb]
    exact ha.heap_lt
  current_lt := by
    rw [h.currentProcess, h.nextPcb]
    exact ha.current_lt
  current_notMem := by
    rw [h.currentProcess, h.readyHeap]
    exact ha.current_notMem

/-- A process that was current can be put back into the ready structure. -/
theorem Touches.insertable (h : Touches s t process p) (ha : Allocated s)
    (hc : s.currentProcess = some process) :
    Stored t ∧ process < t.nextPcb ∧ process ∉ t.readyHeap.toList := by
  refine ⟨(h.allocated ha).toStored, ?_, ?_⟩
  · rw [h.nextPcb]
    exact ha.current_lt _ hc
  · rw [h.readyHeap]
    exact ha.current_notMem _ hc

/-- What `update_process_remaining_time` can make of a remaining time and the readings to come. -/
def Reads (x : ℤ) (readings : List (Option ℤ)) (value : ℤ) (rest : List (Option ℤ)) : Prop :=
  value = x ∧ (rest = readings ∨ rest = readings.tail) ∨ readings = some value :: rest

theorem updateProcessRemainingTime_spec (s : Scheduler) (process : ℕ) :
    ∃ value, Touches s (s.updateProcessRemainingTime process) process
        { s.pcbs process with remainingTime := value } ∧
      (s.updateProcessRemainingTime process).trace = s.trace ∧
      Reads (s.pcbs process).remainingTime s.readings value
        (s.updateProcessRemainingTime process).readings := by
  have hsame : s.pcbs = Function.update s.pcbs process (s.pcbs process) :=
    (Function.update_eq_self process s.pcbs).symm
  unfold updateProcessRemainingTime
  split
  · cases hr : s.readings with
    | nil => exact ⟨_, touches_of hsame rfl, rfl, Or.inl ⟨rfl, Or.inr rfl⟩⟩
    | cons r rest =>
      cases r with
      | none => exact ⟨_, touches_of hsame rfl, rfl, Or.inl ⟨rfl, Or.inr rfl⟩⟩
      | some value => exact ⟨value, touches_of rfl rfl, rfl, Or.inr rfl⟩
  · exact ⟨_, touches_of hsame rfl, rfl, Or.inl ⟨rfl, Or.inl rfl⟩⟩

/-- What stopping `p` at time `clk` shows outside; nothing is logged when `kill` fails. -/
def stopEffects (clk : ℤ) (sent : Bool) (p : PCB) : List Effect :=
  .signal .stop p :: if sent then
    [.logged .stopped clk p (-1),
      .progressBar (p.executionTime - p.remainingTime) p.executionTime] else []

/-- What continuing `p` at time `clk` shows outside. -/
def contEffects (event : ProcessEvent) (clk : ℤ) (sent : Bool) (p : PCB) : List Effect :=
  .signal .cont p :: if sent then [.logged event clk p (-1)] else []

theorem mem_stopEffects {e : Effect} {clk : ℤ} {sent : Bool} (h : e ∈ stopEffects clk sent p) :
    e = .signal .stop p ∨ e = .logged .stopped clk p (-1) ∨
      e = .progressBar (p.executionTime - p.remainingTime) p.executionTime := by
  cases sent with
  | false => exact Or.inl (List.mem_singleton.mp h)
  | true => simpa [stopEffects] using h

theorem mem_contEffects {e : Effect} {event : ProcessEvent} {clk : ℤ} {sent : Bool}
    (h : e ∈ contEffects event clk sent p) :
    e = .signal .cont p ∨ e = .logged event clk p (-1) := by
  cases sent with
  | false => exact Or.inl (List.mem_singleton.mp h)
  | true => simpa [contEffects] using h

/-- One signal to `process`, whose PCB becomes `p`; `es` are its effects, by whether it was sent. -/
structure Signals (s s' : Scheduler) (process : ℕ) (p : PCB) (es : Bool → List Effect) : Prop
    extends Touches s s' process p where
  trace : s'.trace = s.trace ++ es (s.kills.headD true)
  kills : s'.kills = s.kills.tail

/-- The accounting is as before. -/
structure SameTimes (s s' : Scheduler) : Prop where
  startTime : s'.startTime = s.startTime
  activeCpuTime : s'.activeCpuTime = s.activeCpuTime
  timeSliceStart : s'.timeSliceStart = s.timeSliceStart

/-- A dispatch of `q` begins a slice, and its first one charges all of its execution time. -/
structure Charges (s s' : Scheduler) (q : PCB) : Prop where
  startTime : s'.startTime =
    if s.startTime = -1 ∧ q.startTime = -1 then s.clockValue else s.startTime
  activeCpuTime : s'.activeCpuTime =
    s.activeCpuTime + if q.startTime = -1 then q.executionTime else 0
  timeSliceStart : s'.timeSliceStart = s.clockValue

theorem SameTimes.refl (s : Scheduler) : SameTimes s s := ⟨rfl, rfl, rfl⟩

theorem SameTimes.trans {s t w : Scheduler} (h : SameTimes s t) (h' : SameTimes t w) :
    SameTimes s w :=
  ⟨h'.1.trans h.1, h'.2.trans h.2, h'.3.trans h.3⟩

theorem SameTimes.charges (h : SameTimes s t) (hclk : t.clockValue = s.clockValue)
    (h' : Charges t s' q) : Charges s s' q := by
  refine ⟨?_, ?_, h'.timeSliceStart.trans hclk⟩
  · rw [h'.startTime, h.startTime, hclk]
  · rw [h'.activeCpuTime, h.activeCpuTime]

theorem updateProcessRemainingTime_times (s : Scheduler) (process : ℕ) :
    SameTimes s (s.updateProcessRemainingTime process) ∧
      (s.updateProcessRemainingTime process).kills = s.kills := by
  unfold updateProcessRemainingTime
  split
  · dsimp only
    split <;> exact ⟨⟨rfl, rfl, rfl⟩, rfl⟩
  · exact ⟨.refl s, rfl⟩

theorem stopProcess_signals (s : Scheduler) (process : ℕ) :
    Signals s (s.stopProcess process) process
      ((s.pcbs process).preempted s.clockValue (s.pcbs process).remainingTime)
      fun sent => stopEffects s.clockValue sent
        ((s.pcbs process).preempted s.clockValue (s.pcbs process).remainingTime) := by
  refine ⟨touches_of rfl rfl, ?_, rfl⟩
  simp [stopProcess, signalProcess, logProcessEvent, writePcb, stopEffects, PCB.preempted]

theorem stopProcess_spec (s : Scheduler) (process : ℕ) :
    Touches s (s.stopProcess process) process
        ((s.pcbs process).preempted s.clockValue (s.pcbs process).remainingTime) ∧
      ∃ sent, (s.stopProcess process).trace = s.trace ++ stopEffects s.clockValue sent
        ((s.pcbs process).preempted s.clockValue (s.pcbs process).remainingTime) :=
  have h := stopProcess_signals s process
  ⟨h.toTouches, _, h.trace⟩

theorem startProcess_signals (hsem : 0 < (s.pcbs process).syncSemid) :
    Signals s (s.startProcess process) process ((s.pcbs process).start s.clockValue) fun sent =>
      contEffects .started s.clockValue sent ((s.pcbs process).start s.clockValue) := by
  rw [startProcess, if_neg (by omega)]
  refine ⟨touches_of ?_ rfl, ?_, rfl⟩
  · simp [signalProcess, writePcb, PCB.start]
  · simp [signalProcess, logProcessEvent, writePcb, contEffects, PCB.start]

theorem startProcess_spec (hsem : 0 < (s.pcbs process).syncSemid) :
    Touches s (s.startProcess process) process ((s.pcbs process).start s.clockValue) ∧
      ∃ sent, (s.startProcess process).trace = s.trace ++
        contEffects .started s.clockValue sent ((s.pcbs process).start s.clockValue) :=
  have h := startProcess_signals hsem
  ⟨h.toTouches, _, h.trace⟩

theorem startProcess_charges (hsem : 0 < (s.pcbs process).syncSemid)
    (hnew : (s.pcbs process).startTime = -1) :
    Charges s (s.startProcess process) (s.pcbs process) := by
  rw [startProcess, if_neg (by omega)]
  constructor <;> simp [signalProcess, writePcb, hnew]

theorem resumeProcess_signals (s : Scheduler) (process : ℕ) :
    Signals s (s.resumeProcess process) process ((s.pcbs process).resume s.clockValue) fun sent =>
      contEffects .resumed s.clockValue sent ((s.pcbs process).resume s.clockValue) := by
  refine ⟨touches_of rfl rfl, ?_, rfl⟩
  simp [resumeProcess, signalProcess, logProcessEvent, writePcb, contEffects, PCB.resume]

theorem resumeProcess_spec (s : Scheduler) (process : ℕ) :
    Touches s (s.resumeProcess process) process ((s.pcbs process).resume s.clockValue) ∧
      ∃ sent, (s.resumeProcess process).trace = s.trace ++
        contEffects .resumed s.clockValue sent ((s.pcbs process).resume s.clockValue) :=
  have h := resumeProcess_signals s process
  ⟨h.toTouches, _, h.trace⟩

theorem resumeProcess_charges (hold : (s.pcbs process).startTime ≠ -1) :
    Charges s (s.resumeProcess process) (s.pcbs process) := by
  constructor <;> simp [resumeProcess, signalProcess, writePcb, hold]

/-- The line that a dispatch of `p` writes. -/
def dispatchEvent (p : PCB) : ProcessEvent := if p.startTime = -1 then .started else .resumed

theorem dispatchEvent_cases (p : PCB) : dispatchEvent p = .started ∨ dispatchEvent p = .resumed :=
  ite_eq_or_eq _ _ _

theorem dispatch_signals (hc : s.currentProcess = some process)
    (hsem : 0 < (s.pcbs process).syncSemid) :
    Signals s s.dispatch process ((s.pcbs process).dispatched s.clockValue) (fun sent =>
        contEffects (dispatchEvent (s.pcbs process)) s.clockValue sent
          ((s.pcbs process).dispatched s.clockValue)) ∧
      Charges s s.dispatch (s.pcbs process) := by
  have hsem' : ¬ (s.pcbs process).syncSemid ≤ 0 := by omega
  simp only [dispatch, hc, hsem', if_false, PCB.dispatched, dispatchEvent]
  split
  · rename_i hnew
    exact ⟨startProcess_signals hsem, startProcess_charges hsem hnew⟩
  · rename_i hold
    exact ⟨resumeProcess_signals s process, resumeProcess_charges hold⟩

theorem dispatch_spec (hc : s.currentProcess = some process)
    (hsem : 0 < (s.pcbs process).syncSemid) :
    Touches s s.dispatch process ((s.pcbs process).dispatched s.clockValue) ∧
      ∃ sent, s.dispatch.trace = s.trace ++
        contEffects (dispatchEvent (s.pcbs process)) s.clockValue sent
          ((s.pcbs process).dispatched s.clockValue) :=
  have h := (dispatch_signals hc hsem).1
  ⟨h.toTouches, _, h.trace⟩

theorem ready_RR (h : s.algorithm = .RR) : s.ready = s.rrQueue.toList := by
  simp only [ready, h]

theorem ready_heap (h : s.algorithm ≠ .RR) : s.ready = s.readyHeap.toList.map s.pcbs := by
  unfold ready
  split
  · contradiction
  · rfl

theorem ready_mono {s s' : Scheduler} (ha : s'.algorithm = s.algorithm) (hq : s'.rrQueue = s.rrQueue)
    (hh : s'.readyHeap = s.readyHeap) (hp : ∀ p ∈ s.readyHeap.toList, s'.pcbs p = s.pcbs p) :
    s'.ready = s.ready := by
  simp only [ready, ha, hq, hh, List.map_congr_left hp]

/-- With valid semaphores the front of the queue needs no recovery. -/
theorem recoverFront_eq {q : PCBQueue} (hv : q.Valid) (h : ∀ p ∈ q.toList, 0 < p.syncSemid)
    (hne : 0 < q.size) : recoverFront q = q := by
  have hfront := (queueDequeue_spec hv hne).2
  have : 0 < (queueFront q).syncSemid := h _ (by rw [hfront]; exact List.mem_cons_self)
  rw [recoverFront, if_neg (by omega)]

theorem pickProcess_RR (hs : Stored s) (hsem : ∀ p ∈ s.ready, 0 < p.syncSemid)
    (ha : s.algorithm = .RR) (hne : 0 < s.rrQueue.size) :
    s.pickProcess = ({ s with
      rrQueue := queueDequeue s.rrQueue
      pcbs := Function.update s.pcbs s.nextPcb (queueFront s.rrQueue)
      nextPcb := s.nextPcb + 1 }, some s.nextPcb) := by
  have hq := recoverFront_eq hs.queue (ready_RR ha ▸ hsem) hne
  simp only [pickProcess, ha, hne, if_true, mallocPcb, hq]

theorem pickProcess_heap (ha : s.algorithm ≠ .RR) :
    s.pickProcess = ({ s with readyHeap := (MinHeap.extractMin s.cmp s.readyHeap).2 },
      (MinHeap.extractMin s.cmp s.readyHeap).1) := by
  unfold pickProcess
  split
  · contradiction
  · rfl

/-- The next process is taken out of the ready structure. -/
theorem pickProcess_spec (hs : Stored s) (hsem : ∀ p ∈ s.ready, 0 < p.syncSemid) :
    SameBooks s s.pickProcess.1 ∧ Stored s.pickProcess.1 ∧ s.pickProcess.1.trace = s.trace ∧
    ((s.ready = [] ∧ s.pickProcess.1.ready = [] ∧ s.pickProcess.2 = none) ∨
      ∃ process, s.pickProcess.2 = some process ∧ process < s.pickProcess.1.nextPcb ∧
        process ∉ s.pickProcess.1.readyHeap.toList ∧
        s.ready.Perm (s.pickProcess.1.pcbs process :: s.pickProcess.1.ready)) := by
  by_cases ha : s.algorithm = .RR
  · by_cases hne : 0 < s.rrQueue.size
    · have hpick := pickProcess_RR hs hsem ha hne
      obtain ⟨hv, hq⟩ := queueDequeue_spec hs.queue hne
      have hfresh : s.nextPcb ∉ s.readyHeap.toList := fun h =>
        Nat.lt_irrefl _ (hs.heap_lt _ h)
      rw [hpick]
      refine ⟨⟨rfl, rfl, rfl, rfl, rfl, rfl, rfl, rfl⟩,
        ⟨hv, hs.capacity, hs.nodup, fun p hp => Nat.lt_succ_of_lt (hs.heap_lt p hp)⟩, rfl, Or.inr ⟨s.nextPcb,
        rfl, Nat.lt_succ_self _, hfresh, ?_⟩⟩
      rw [ready_RR ha, hq, ready_RR]
      · show (_ :: _).Perm (Function.update s.pcbs s.nextPcb (queueFront s.rrQueue) s.nextPcb :: _)
        rw [Function.update_self]
      · exact ha
    · have hsize : s.rrQueue.size = 0 := by omega
      have hnil : s.ready = [] := by rw [ready_RR ha, Ring.toList_eq_nil, hsize]
      have hpick : s.pickProcess = (s, none) := by
        simp only [pickProcess, ha, hsize, Nat.lt_irrefl, if_false]
      rw [hpick]
      exact ⟨.refl s, hs, rfl, Or.inl ⟨hnil, hnil, rfl⟩⟩
  · have hpick := pickProcess_heap ha
    have hready := ready_heap ha
    by_cases hne : 0 < s.readyHeap.size
    · obtain ⟨hroot, hperm⟩ := MinHeap.extractMin_perm s.cmp hne
      have hnodup := hperm.nodup_iff.mp hs.nodup
      have hlt : ∀ p, p = s.readyHeap.processes 0 ∨
          p ∈ (MinHeap.extractMin s.cmp s.readyHeap).2.toList → p < s.nextPcb := by
        intro p hp
        exact hs.heap_lt p (hperm.mem_iff.mpr (List.mem_cons.mpr hp))
      rw [hpick]
      refine ⟨⟨rfl, rfl, rfl, rfl, rfl, rfl, rfl, rfl⟩,
        ⟨hs.queue, MinHeap.extractMin_capacity.trans hs.capacity, (List.nodup_cons.mp hnodup).2,
          fun p hp => hlt p (Or.inr hp)⟩, rfl,
        Or.inr ⟨_, hroot, hlt _ (Or.inl rfl), (List.nodup_cons.mp hnodup).1, ?_⟩⟩
      rw [hready, ready_heap]
      · exact hperm.map s.pcbs
      · exact ha
    · have hsize : s.readyHeap.size = 0 := by omega
      have hnil : s.ready = [] := by
        rw [hready, List.map_eq_nil_iff, ← List.length_eq_zero_iff, MinHeap.length_toList, hsize]
      rw [hpick, MinHeap.extractMin_nil hsize]
      exact ⟨.refl s, hs, rfl, Or.inl ⟨hnil, hnil, rfl⟩⟩

/-- In round robin the process taken is the one at the front. -/
theorem pickProcess_front (hs : Stored s) (hsem : ∀ p ∈ s.ready, 0 < p.syncSemid)
    (ha : s.algorithm = .RR) (hp : s.pickProcess.2 = some process) :
    s.ready = s.pickProcess.1.pcbs process :: s.pickProcess.1.ready := by
  by_cases hne : 0 < s.rrQueue.size
  · have hpick := pickProcess_RR hs hsem ha hne
    rw [hpick] at hp ⊢
    cases hp
    rw [ready_RR ha, (queueDequeue_spec hs.queue hne).2, ready_RR]
    · show _ = Function.update s.pcbs s.nextPcb (queueFront s.rrQueue) s.nextPcb :: _
      rw [Function.update_self]
    · exact ha
  · have hpick : s.pickProcess = (s, none) := by
      simp only [pickProcess, ha, hne, if_false]
    rw [hpick] at hp
    cases hp

theorem pickProcess_times (s : Scheduler) :
    SameTimes s s.pickProcess.1 ∧ s.pickProcess.1.kills = s.kills := by
  unfold pickProcess
  split
  · split <;> exact ⟨⟨rfl, rfl, rfl⟩, rfl⟩
  · exact ⟨⟨rfl, rfl, rfl⟩, rfl⟩

/-- `q` is the next process out of `ready`. -/
structure Takes (s : Scheduler) (ready : List PCB) (q : PCB) (rest : List PCB) : Prop where
  perm : ready.Perm (q :: rest)
  front : s.algorithm = .RR → ready = q :: rest

/-- The process picked is made current and dispatched. -/
theorem switchToNext_turn (hs : Stored s) (hsem : ∀ p ∈ s.ready, 0 < p.syncSemid) :
    SameBooks s s.switchToNext ∧ Allocated s.switchToNext ∧
    ((s.ready = [] ∧ s.switchToNext.ready = [] ∧ s.switchToNext.current = none ∧
        s.switchToNext.trace = s.trace ∧ s.switchToNext.kills = s.kills ∧
        SameTimes s s.switchToNext) ∨
      ∃ q, Takes s s.ready q s.switchToNext.ready ∧
        s.switchToNext.current = some (q.dispatched s.clockValue) ∧
        s.switchToNext.trace = s.trace ++
          contEffects (dispatchEvent q) s.clockValue (s.kills.headD true)
            (q.dispatched s.clockValue) ∧
        s.switchToNext.kills = s.kills.tail ∧ Charges s s.switchToNext q) := by
  obtain ⟨hbooks, hstored, htrace, hpick⟩ := pickProcess_spec hs hsem
  obtain ⟨htimes, hkills⟩ := pickProcess_times s
  have hfront := fun a => @pickProcess_front s a hs hsem
  have hswitch : s.switchToNext =
      ({ s.pickProcess.1 with currentProcess := s.pickProcess.2 }).dispatch := rfl
  rw [hswitch]
  generalize s.pickProcess = picked at *
  obtain ⟨u, newProcess⟩ := picked
  dsimp only at *
  rcases hpick with ⟨hnil, hnil', rfl⟩ | ⟨process, rfl, hlt, hfresh, hperm⟩
  · refine ⟨⟨hbooks.1, hbooks.2, hbooks.3, hbooks.4, hbooks.5, hbooks.6, hbooks.7, hbooks.8⟩,
      ⟨⟨hstored.1, hstored.2, hstored.3, hstored.4⟩, nofun, nofun⟩,
      Or.inl ⟨hnil, hnil', rfl, htrace, hkills, ⟨htimes.1, htimes.2, htimes.3⟩⟩⟩
  · have hmem : u.pcbs process ∈ s.ready := hperm.mem_iff.mpr List.mem_cons_self
    obtain ⟨hsignals, hcharges⟩ := dispatch_signals
      (s := { u with currentProcess := some process }) rfl (hsem _ hmem)
    have htouch := hsignals.toTouches
    have halloc : Allocated { u with currentProcess := some process } := by
      refine ⟨⟨hstored.1, hstored.2, hstored.3, hstored.4⟩, ?_, ?_⟩
      · rintro p ⟨⟩
        exact hlt
      · rintro p ⟨⟩
        exact hfresh
    have hclk : u.clockValue = s.clockValue := hbooks.clockValue
    have htimes' : SameTimes s { u with currentProcess := some process } :=
      ⟨htimes.1, htimes.2, htimes.3⟩
    refine ⟨?_, htouch.allocated halloc, Or.inr ⟨u.pcbs process, ⟨?_, ?_⟩, ?_, ?_, ?_,
      htimes'.charges hclk hcharges⟩⟩
    · have hb : SameBooks s { u with currentProcess := some process } := ⟨hbooks.1, hbooks.2,
        hbooks.3, hbooks.4, hbooks.5, hbooks.6, hbooks.7, hbooks.8⟩
      exact hb.trans htouch.toSameBooks
    · rw [htouch.ready hfresh]
      exact hperm
    · intro ha
      rw [htouch.ready hfresh]
      exact hfront process ha rfl
    · rw [htouch.current rfl]
      exact congrArg (fun clk => some ((u.pcbs process).dispatched clk)) hclk
    · rw [hsignals.trace, ← hclk, ← htrace, ← hkills]
    · rw [hsignals.kills, ← hkills]

theorem switchToNext_spec (hs : Stored s) (hsem : ∀ p ∈ s.ready, 0 < p.syncSemid) :
    SameBooks s s.switchToNext ∧ Allocated s.switchToNext ∧
    ((s.ready = [] ∧ s.switchToNext.ready = [] ∧ s.switchToNext.current = none ∧
        s.switchToNext.trace = s.trace) ∨
      ∃ q sent, s.ready.Perm (q :: s.switchToNext.ready) ∧
        s.switchToNext.current = some (q.dispatched s.clockValue) ∧
        s.switchToNext.trace = s.trace ++
          contEffects (dispatchEvent q) s.clockValue sent (q.dispatched s.clockValue)) := by
  obtain ⟨hb, ha, ⟨hnil, hnil', hc, ht, -⟩ | ⟨q, hq, hc, ht, -⟩⟩ := switchToNext_turn hs hsem
  · exact ⟨hb, ha, Or.inl ⟨hnil, hnil', hc, ht⟩⟩
  · exact ⟨hb, ha, Or.inr ⟨q, _, hq.perm, hc, ht⟩⟩

/-- One more process fits into the ready structure. -/
def HasRoom (s : Scheduler) : Prop := s.algorithm = .RR ∨ s.ready.length < 1024

/-- In round robin the process goes to the end. -/
theorem requeue_back {process : ℕ} (hs : Stored s) (ha : s.algorithm = .RR) :
    (s.requeue process).ready = s.ready ++ [s.pcbs process] := by
  have heq : s.requeue process =
      { s with rrQueue := queueEnqueue s.rrQueue (s.pcbs process) } := by
    simp only [requeue, ha]
  rw [heq, ready_RR ha, ready_RR]
  · exact (queueEnqueue_spec hs.queue _).2
  · exact ha

/-- A full heap forgets the process. -/
theorem requeue_full (hs : Stored s) (hfull : ¬ HasRoom s) : s.requeue process = s := by
  obtain ⟨ha, hlen⟩ := not_or.mp hfull
  have hcap := hs.capacity
  rw [ready_heap ha, List.length_map, MinHeap.length_toList] at hlen
  have hsame : MinHeap.insertProcessMinHeap s.cmp s.readyHeap process = s.readyHeap :=
    if_pos (by omega)
  unfold requeue
  split
  · contradiction
  · rw [hsame]

theorem requeue_spec (hs : Stored s) (hlt : process < s.nextPcb)
    (hp : process ∉ s.readyHeap.toList) :
    SameBooks s (s.requeue process) ∧ Stored (s.requeue process) ∧
      (s.requeue process).trace = s.trace ∧ (s.requeue process).ready ≠ [] ∧
      (s.requeue process).ready.Subperm (s.pcbs process :: s.ready) ∧
      (HasRoom s → (s.requeue process).ready.Perm (s.pcbs process :: s.ready)) := by
  by_cases ha : s.algorithm = .RR
  · obtain ⟨hv, hq⟩ := queueEnqueue_spec hs.queue (s.pcbs process)
    have heq : s.requeue process =
        { s with rrQueue := queueEnqueue s.rrQueue (s.pcbs process) } := by
      simp only [requeue, ha]
    have hready : (s.requeue process).ready = s.ready ++ [s.pcbs process] := requeue_back hs ha
    have hperm : (s.requeue process).ready.Perm (s.pcbs process :: s.ready) := by
      rw [hready]
      exact List.perm_append_singleton _ _
    rw [heq] at hready hperm ⊢
    exact ⟨⟨rfl, rfl, rfl, rfl, rfl, rfl, rfl, rfl⟩, ⟨hv, hs.capacity, hs.nodup, hs.heap_lt⟩, rfl,
      by simp [hready], hperm.subperm, fun _ => hperm⟩
  · have heq : s.requeue process = { s with
        readyHeap := MinHeap.insertProcessMinHeap s.cmp s.readyHeap process } := by
      unfold requeue
      split
      · contradiction
      · rfl
    have hready : (s.requeue process).ready =
        (MinHeap.insertProcessMinHeap s.cmp s.readyHeap process).toList.map s.pcbs := by
      rw [heq, ready_heap]
      exact ha
    have hlen : s.ready.length = s.readyHeap.size := by
      rw [ready_heap ha, List.length_map, MinHeap.length_toList]
    have hcap := hs.capacity
    by_cases hroom : s.readyHeap.size < s.readyHeap.capacity
    · have hinsert := MinHeap.insert_perm s.cmp process hroom
      have hcons := hinsert.trans (List.perm_append_singleton _ _)
      have hperm : (s.requeue process).ready.Perm (s.pcbs process :: s.ready) := by
        rw [hready, ready_heap ha]
        exact hcons.map s.pcbs
      refine ⟨heq ▸ ⟨rfl, rfl, rfl, rfl, rfl, rfl, rfl, rfl⟩, heq ▸ ⟨hs.queue, ?_, ?_, ?_⟩,
        heq ▸ rfl, ?_, hperm.subperm, fun _ => hperm⟩
      · exact MinHeap.insert_capacity.trans hs.capacity
      · exact hcons.nodup_iff.mpr (List.nodup_cons.mpr ⟨hp, hs.nodup⟩)
      · intro a ha
        rcases List.mem_cons.mp (hcons.mem_iff.mp ha) with rfl | ha
        · exact hlt
        · exact hs.heap_lt a ha
      · intro hnil
        have := hperm.length_eq
        simp [hnil] at this
    · have hfull : ¬ HasRoom s := by
        rw [HasRoom, hlen, not_or]
        exact ⟨ha, by omega⟩
      rw [requeue_full hs hfull]
      refine ⟨.refl s, hs, rfl, ?_, (List.sublist_cons_self _ _).subperm, ?_⟩
      · intro hnil
        rw [hnil] at hlen
        simp only [List.length_nil] at hlen
        omega
      · rintro (h | h)
        · exact absurd h ha
        · omega

theorem requeue_frame (s : Scheduler) (process : ℕ) :
    (s.requeue process).pcbs = s.pcbs ∧ (s.requeue process).nextPcb = s.nextPcb ∧
      (s.requeue process).currentProcess = s.currentProcess := by
  unfold requeue
  split <;> exact ⟨rfl, rfl, rfl⟩

theorem requeue_times (s : Scheduler) (process : ℕ) :
    SameTimes s (s.requeue process) ∧ (s.requeue process).kills = s.kills := by
  unfold requeue
  split <;> exact ⟨⟨rfl, rfl, rfl⟩, rfl⟩

theorem requeue_mem (h : a ∈ (s.requeue process).readyHeap.toList) :
    a = process ∨ a ∈ s.readyHeap.toList := by
  unfold requeue at h
  split at h
  · exact Or.inr h
  · by_cases hroom : s.readyHeap.size < s.readyHeap.capacity
    · have := (MinHeap.insert_perm s.cmp process hroom).mem_iff.mp h
      simpa [or_comm] using this
    · rw [MinHeap.insertProcessMinHeap, if_pos (by omega)] at h
      exact Or.inr h

/-- `p` joins the ready processes, which are then `queued`; a full heap forgets it. -/
structure Joins (s : Scheduler) (p : PCB) (queued : List PCB) : Prop where
  subperm : queued.Subperm (p :: s.ready)
  perm : HasRoom s → queued.Perm (p :: s.ready)
  full : ¬ HasRoom s → queued = s.ready
  back : s.algorithm = .RR → queued = s.ready ++ [p]

/-- All that `context_switching` does. -/
inductive Turn (s s' : Scheduler) : Prop
  /-- the current process turns out to have no time left -/
  | kept (p : PCB) (hc : s.current = some p)
      (hc' : s'.current = some { p with remainingTime := 0 }) (hr : s'.ready = s.ready)
      (ht : s'.trace = s.trace) (hk : s'.kills = s.kills) (htimes : SameTimes s s')
  | idle (hc : s.current = none) (hr : s.ready = []) (hc' : s'.current = none)
      (hr' : s'.ready = []) (ht : s'.trace = s.trace) (hk : s'.kills = s.kills)
      (htimes : SameTimes s s')
  | dispatched (q : PCB) (hc : s.current = none) (hq : Takes s s.ready q s'.ready)
      (hc' : s'.current = some (q.dispatched s.clockValue))
      (ht : s'.trace = s.trace ++ contEffects (dispatchEvent q) s.clockValue
        (s.kills.headD true) (q.dispatched s.clockValue))
      (hk : s'.kills = s.kills.tail) (hcharges : Charges s s' q)
  | replaced (p q : PCB) (value : ℤ) (queued : List PCB) (hc : s.current = some p)
      (hp : Joins s (p.preempted s.clockValue value) queued) (hq : Takes s queued q s'.ready)
      (hc' : s'.current = some (q.dispatched s.clockValue))
      (ht : s'.trace = s.trace ++
        stopEffects s.clockValue (s.kills.headD true) (p.preempted s.clockValue value) ++
        contEffects (dispatchEvent q) s.clockValue (s.kills.tail.headD true)
          (q.dispatched s.clockValue))
      (hk : s'.kills = s.kills.tail.tail) (hcharges : Charges s s' q)

/-- The outcome of `context_switching`, in terms of the processes held and what is done outside. -/
inductive Switched (s s' : Scheduler) : Prop
  /-- the current process turns out to have no time left -/
  | kept (p : PCB) (hc : s.current = some p)
      (hc' : s'.current = some { p with remainingTime := 0 }) (hr : s'.ready = s.ready)
      (ht : s'.trace = s.trace)
  | idle (hc : s.current = none) (hr : s.ready = []) (hc' : s'.current = none)
      (hr' : s'.ready = []) (ht : s'.trace = s.trace)
  | dispatched (q : PCB) (sent : Bool) (hc : s.current = none) (hr : s.ready.Perm (q :: s'.ready))
      (hc' : s'.current = some (q.dispatched s.clockValue))
      (ht : s'.trace = s.trace ++
        contEffects (dispatchEvent q) s.clockValue sent (q.dispatched s.clockValue))
  /-- a full heap forgets the process preempted -/
  | replaced (p q : PCB) (value : ℤ) (stopped sent : Bool) (hc : s.current = some p)
      (hr : (q :: s'.ready).Subperm (p.preempted s.clockValue value :: s.ready))
      (hroom : HasRoom s → (q :: s'.ready).Perm (p.preempted s.clockValue value :: s.ready))
      (hc' : s'.current = some (q.dispatched s.clockValue))
      (ht : s'.trace = s.trace ++
        stopEffects s.clockValue stopped (p.preempted s.clockValue value) ++
        contEffects (dispatchEvent q) s.clockValue sent (q.dispatched s.clockValue))

theorem HasRoom.congr (ha : s'.algorithm = s.algorithm) (hr : s'.ready = s.ready)
    (h : HasRoom s) : HasRoom s' := by
  unfold HasRoom at *
  rwa [ha, hr]

/-- The guard's reading of the current process, and what `preempt_process` then makes of it. -/
theorem preempt_turn (s : Scheduler) (process : ℕ) :
    ∃ value value', Touches s (s.updateProcessRemainingTime process) process
        { s.pcbs process with remainingTime := value } ∧
      (s.updateProcessRemainingTime process).trace = s.trace ∧
      Touches s ((s.updateProcessRemainingTime process).preemptProcess process) process
        ((s.pcbs process).preempted s.clockValue value') ∧
      ((s.updateProcessRemainingTime process).preemptProcess process).trace = s.trace ++
        stopEffects s.clockValue (s.kills.headD true)
          ((s.pcbs process).preempted s.clockValue value') ∧
      Reads (s.pcbs process).remainingTime s.readings value
        (s.updateProcessRemainingTime process).readings ∧
      ∃ rest, Reads value (s.updateProcessRemainingTime process).readings value' rest := by
  obtain ⟨v, hread, hrt, hv⟩ := updateProcessRemainingTime_spec s process
  obtain ⟨-, hrk⟩ := updateProcessRemainingTime_times s process
  have hrp := hread.pcb
  generalize s.updateProcessRemainingTime process = t at *
  obtain ⟨v', hread', hrt', hv'⟩ := updateProcessRemainingTime_spec t process
  obtain ⟨-, hrk'⟩ := updateProcessRemainingTime_times t process
  have hstop := stopProcess_signals (t.updateProcessRemainingTime process) process
  have hclk : (t.updateProcessRemainingTime process).clockValue = s.clockValue :=
    hread'.clockValue.trans hread.clockValue
  have hpre : ((t.updateProcessRemainingTime process).pcbs process).preempted
      (t.updateProcessRemainingTime process).clockValue
      ((t.updateProcessRemainingTime process).pcbs process).remainingTime =
        (s.pcbs process).preempted s.clockValue v' := by
    rw [hclk, hread'.pcb, hrp]
    rfl
  rw [hpre] at hstop
  rw [hrp] at hv'
  refine ⟨v, v', hread, hrt, (hread.trans hread').trans hstop.toTouches, ?_, hv, _, hv'⟩
  rw [preemptProcess, hstop.trace, hrt', hrt, hclk, hrk', hrk]

theorem preempt_spec (s : Scheduler) (process : ℕ) :
    ∃ value value' stopped, Touches s (s.updateProcessRemainingTime process) process
        { s.pcbs process with remainingTime := value } ∧
      (s.updateProcessRemainingTime process).trace = s.trace ∧
      Touches s ((s.updateProcessRemainingTime process).preemptProcess process) process
        ((s.pcbs process).preempted s.clockValue value') ∧
      ((s.updateProcessRemainingTime process).preemptProcess process).trace = s.trace ++
        stopEffects s.clockValue stopped ((s.pcbs process).preempted s.clockValue value') ∧
      Reads (s.pcbs process).remainingTime s.readings value
        (s.updateProcessRemainingTime process).readings ∧
      ∃ rest, Reads value (s.updateProcessRemainingTime process).readings value' rest := by
  obtain ⟨v, v', h⟩ := preempt_turn s process
  exact ⟨v, v', _, h⟩

/-- With a process current, a context switch is its re-insertion and the next dispatch, unless it
has no time left. -/
theorem contextSwitching_some (hs : Sound s) (hcp : s.currentProcess = some process) :
    s.contextSwitching =
      if ((s.updateProcessRemainingTime process).pcbs process).remainingTime = 0 then
        s.updateProcessRemainingTime process
      else (((s.updateProcessRemainingTime process).preemptProcess process).requeue
        process).switchToNext := by
  obtain ⟨v, hread, -⟩ := updateProcessRemainingTime_spec s process
  have hstate : ((s.updateProcessRemainingTime process).pcbs process).state ≠ .terminated := by
    have hrun := hs.current_state (s.pcbs process) (current_some hcp)
    rw [hread.pcb]
    simp [hrun]
  simp only [contextSwitching, hcp, if_pos hstate]

theorem contextSwitching_none (hcp : s.currentProcess = none) :
    s.contextSwitching = s.switchToNext := by
  simp only [contextSwitching, hcp]

theorem preempt_times (s : Scheduler) (process : ℕ) :
    SameTimes s ((s.updateProcessRemainingTime process).preemptProcess process) ∧
      ((s.updateProcessRemainingTime process).preemptProcess process).kills = s.kills.tail := by
  obtain ⟨htimes, hkills⟩ := updateProcessRemainingTime_times s process
  generalize s.updateProcessRemainingTime process = t at *
  obtain ⟨htimes', hkills'⟩ := updateProcessRemainingTime_times t process
  have hstop : SameTimes (t.updateProcessRemainingTime process) (t.preemptProcess process) :=
    ⟨rfl, rfl, rfl⟩
  refine ⟨(htimes.trans htimes').trans hstop, ?_⟩
  rw [preemptProcess, (stopProcess_signals _ process).kills, hkills', hkills]

theorem contextSwitching_turn (hs : Sound s) :
    SameBooks s s.contextSwitching ∧ Allocated s.contextSwitching ∧
      Turn s s.contextSwitching := by
  cases hcp : s.currentProcess with
  | none =>
    have hc : s.current = none := by rw [current, hcp, Option.map_none]
    rw [contextSwitching_none hcp]
    obtain ⟨hb, ha, ⟨hr, hr', hc', ht, hk, htimes⟩ | ⟨q, hq, hc', ht, hk, hcharges⟩⟩ :=
      switchToNext_turn hs.toStored hs.ready_semid
    · exact ⟨hb, ha, .idle hc hr hc' hr' ht hk htimes⟩
    · exact ⟨hb, ha, .dispatched q hc hq hc' ht hk hcharges⟩
  | some process =>
    have hc := current_some hcp
    have hsem := hs.current_semid _ hc
    have hfresh := hs.current_notMem _ hcp
    rw [contextSwitching_some hs hcp]
    obtain ⟨v, v', hread, hrt, htouch, htr, -⟩ := preempt_turn s process
    obtain ⟨hrtimes, hrkills⟩ := updateProcessRemainingTime_times s process
    obtain ⟨hptimes, hpkills⟩ := preempt_times s process
    generalize s.updateProcessRemainingTime process = t at *
    split
    · rename_i hzero
      rw [hread.pcb] at hzero
      refine ⟨hread.toSameBooks, hread.allocated hs.toAllocated, .kept _ hc ?_ (hread.ready hfresh)
        hrt hrkills hrtimes⟩
      rw [hread.current hcp, ← hzero]
    have hready := htouch.ready hfresh
    obtain ⟨hstored, hlt, hfresh'⟩ := htouch.insertable hs.toAllocated hcp
    obtain ⟨hqb, hqs, hqt, hqne, hqsub, hqperm⟩ := requeue_spec hstored hlt hfresh'
    obtain ⟨hqtimes, hqkills⟩ := requeue_times (t.preemptProcess process) process
    have hqback := @requeue_back _ process hstored
    have hqfull : ¬ HasRoom (t.preemptProcess process) →
        (t.preemptProcess process).requeue process = t.preemptProcess process :=
      requeue_full hstored
    rw [htouch.pcb, hready] at hqsub hqperm hqback
    have hqsem : ∀ p ∈ ((t.preemptProcess process).requeue process).ready, 0 < p.syncSemid := by
      intro p hp
      rcases List.mem_cons.mp (hqsub.subset hp) with rfl | hp
      · exact hsem
      · exact hs.ready_semid p hp
    obtain ⟨hb, ha, ⟨hnil, -⟩ | ⟨q, hq, hc', ht, hk, hcharges⟩⟩ := switchToNext_turn hqs hqsem
    · exact absurd hnil hqne
    · have hbooks := htouch.toSameBooks.trans hqb
      have hjoins : Joins s ((s.pcbs process).preempted s.clockValue v')
          ((t.preemptProcess process).requeue process).ready :=
        ⟨hqsub, fun hroom => hqperm (hroom.congr htouch.algorithm hready),
          fun hfull => by rw [hqfull fun h => hfull (h.congr htouch.algorithm.symm hready.symm), hready],
          fun h => hqback (htouch.algorithm.trans h)⟩
      refine ⟨hbooks.trans hb, ha, .replaced _ q v' _ hc hjoins
        ⟨hq.perm, fun h => hq.front (hbooks.algorithm.trans h)⟩ ?_ ?_ ?_
        ((hptimes.trans hqtimes).charges hbooks.clockValue hcharges)⟩
      · rw [hc', hbooks.clockValue]
      · rw [ht, hbooks.clockValue, hqt, hqkills, hpkills, htr]
      · rw [hk, hqkills, hpkills]

theorem Turn.switched (h : Turn s s') : Switched s s' := by
  cases h with
  | kept p hc hc' hr ht _ _ => exact .kept p hc hc' hr ht
  | idle hc hr hc' hr' ht _ _ => exact .idle hc hr hc' hr' ht
  | dispatched q hc hq hc' ht _ _ => exact .dispatched q _ hc hq.perm hc' ht
  | replaced p q value queued hc hp hq hc' ht _ _ =>
    exact .replaced p q value _ _ hc (hq.perm.symm.subperm.trans hp.subperm)
      (fun hroom => hq.perm.symm.trans (hp.perm hroom)) hc' ht

theorem contextSwitching_spec (hs : Sound s) :
    SameBooks s s.contextSwitching ∧ Allocated s.contextSwitching ∧
      Switched s s.contextSwitching := by
  obtain ⟨hb, ha, hturn⟩ := contextSwitching_turn hs
  exact ⟨hb, ha, hturn.switched⟩

end Scheduler

end KernelSim
