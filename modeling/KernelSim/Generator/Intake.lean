import KernelSim.Generator.PriorityQueue
import KernelSim.Library.Runs
import KernelSim.Scheduler.ReadyStructures

/-! The loop of the generator's `main`: every process read goes through `pq`, and through
`waiting_queue` where there is no memory for it, into a message to the scheduler. -/
namespace KernelSim
open Runs RingBuffer

/-- The statement of the loop that comes next. -/
inductive IntakePoint
  /-- `int current_time = get_clk();` -/
  | top
  /-- the first loop of `serve_waiting_queue` -/
  | serve
  /-- the second loop of `serve_waiting_queue` -/
  | restore
  /-- the loop over `pq` -/
  | admitArrived
  /-- `if (pq_empty(&pq) && queue_empty(&waiting_queue) && once)` -/
  | check
  deriving DecidableEq

/-- The generator in its loop, the clock, the messages sent and the number of `SIGUSR1`s sent.
Inside the `if` of a tick `current_time` is `last_tick`. -/
structure Intake where
  pq : PriorityQueue
  waitingQueue : PCBQueue
  tempQueue : PCBQueue
  lastTick : ℤ
  once : Bool
  point : IntakePoint
  clock : ℤ
  sent : List PCB
  signals : ℕ

/-- The steps of the loop, and of the clock; `granted` is what `allocate_memory` returns, the ids
are those the system hands out. -/
inductive IntakeAct
  | tick
  | readClock
  | serve (granted : Bool) (pid shmId : ℤ)
  | served
  | restore
  | restored
  | admitArrived (granted : Bool) (pid shmId syncSemid : ℤ)
  /-- `semctl(semid, 0, SETVAL, 1)` -/
  | post
  | check
  deriving DecidableEq

/-- `read_processes`, given the lines that hold a process. -/
def readProcesses (pq : PriorityQueue) (lines : List Process) : PriorityQueue := lines.foldl pqPush pq

/-- What `malloc` left in the array of `pq`. -/
def unusedProcess : Process :=
  { id := 0, arrivalTime := 0, executionTime := 0, priority := 0, memorySize := 0 }

namespace Intake

def initial (clk : ℤ) (lines : List Process) : Intake :=
  { pq := readProcesses (pqInit 20 .sortByArrivalTime unusedProcess) lines
    waitingQueue := queueInit 100 emptyFront
    tempQueue := queueInit 100 emptyFront
    lastTick := -1
    once := true
    point := .top
    clock := clk
    sent := []
    signals := 0 }

/-- One step; `none` where it is not the next one, or the generator exits for want of a
semaphore. -/
def next (g : Intake) : IntakeAct → Option Intake
  | .tick => some { g with clock := g.clock + 1 }
  | .readClock =>
    if g.point = .top then
      if g.clock ≠ g.lastTick then
        some { g with lastTick := g.clock, tempQueue := queueInit 100 emptyFront, point := .serve }
      else some { g with point := .check }
    else none
  | .serve granted pid shmId =>
    if g.point = .serve ∧ queueEmpty g.waitingQueue = false then
      let waitingPcb := queueFront g.waitingQueue
      let rest := queueDequeue g.waitingQueue
      if granted then
        some { g with waitingQueue := rest, sent := g.sent ++ [{ waitingPcb with pid, shmId }] }
      else
        some { g with waitingQueue := rest, tempQueue := queueEnqueue g.tempQueue waitingPcb }
    else none
  | .served =>
    if g.point = .serve ∧ queueEmpty g.waitingQueue = true then some { g with point := .restore }
    else none
  | .restore =>
    if g.point = .restore ∧ queueEmpty g.tempQueue = false then
      some { g with
        waitingQueue := queueEnqueue g.waitingQueue (queueFront g.tempQueue)
        tempQueue := queueDequeue g.tempQueue }
    else none
  | .restored =>
    if g.point = .restore ∧ queueEmpty g.tempQueue = true then some { g with point := .admitArrived }
    else none
  | .admitArrived granted pid shmId syncSemid =>
    if g.point = .admitArrived ∧ pqEmpty g.pq = false ∧ (pqTop g.pq).arrivalTime ≤ g.lastTick ∧
        0 < syncSemid then
      let newPcb := (pqTop g.pq).newPcb pid shmId syncSemid
      if granted then some { g with pq := pqPop g.pq, sent := g.sent ++ [newPcb] }
      else
        some { g with pq := pqPop g.pq, waitingQueue := queueEnqueue g.waitingQueue newPcb }
    else none
  | .post =>
    if g.point = .admitArrived ∧
        (pqEmpty g.pq = true ∨ g.lastTick < (pqTop g.pq).arrivalTime) then
      some { g with point := .check }
    else none
  | .check =>
    if g.point = .check then
      if pqEmpty g.pq = true ∧ queueEmpty g.waitingQueue = true ∧ g.once = true then
        some { g with once := false, point := .top, signals := g.signals + 1 }
      else some { g with point := .top }
    else none

end Intake

/-- What one step can do. -/
inductive IntakeStep (g : Intake) : IntakeAct → Intake → Prop
  | tick : IntakeStep g .tick { g with clock := g.clock + 1 }
  | newTick (hp : g.point = .top) (hne : g.clock ≠ g.lastTick) : IntakeStep g .readClock
      { g with lastTick := g.clock, tempQueue := queueInit 100 emptyFront, point := .serve }
  | sameTick (hp : g.point = .top) (heq : g.clock = g.lastTick) :
      IntakeStep g .readClock { g with point := .check }
  | serveGranted {pid shmId : ℤ} (hp : g.point = .serve)
      (hq : queueEmpty g.waitingQueue = false) : IntakeStep g (.serve true pid shmId)
      { g with
        waitingQueue := queueDequeue g.waitingQueue
        sent := g.sent ++ [{ queueFront g.waitingQueue with pid, shmId }] }
  | serveRefused {pid shmId : ℤ} (hp : g.point = .serve)
      (hq : queueEmpty g.waitingQueue = false) : IntakeStep g (.serve false pid shmId)
      { g with
        waitingQueue := queueDequeue g.waitingQueue
        tempQueue := queueEnqueue g.tempQueue (queueFront g.waitingQueue) }
  | served (hp : g.point = .serve) (hq : queueEmpty g.waitingQueue = true) :
      IntakeStep g .served { g with point := .restore }
  | restore (hp : g.point = .restore) (hq : queueEmpty g.tempQueue = false) :
      IntakeStep g .restore
      { g with
        waitingQueue := queueEnqueue g.waitingQueue (queueFront g.tempQueue)
        tempQueue := queueDequeue g.tempQueue }
  | restored (hp : g.point = .restore) (hq : queueEmpty g.tempQueue = true) :
      IntakeStep g .restored { g with point := .admitArrived }
  | admitGranted {pid shmId syncSemid : ℤ} (hp : g.point = .admitArrived)
      (hq : pqEmpty g.pq = false) (harr : (pqTop g.pq).arrivalTime ≤ g.lastTick)
      (hsem : 0 < syncSemid) : IntakeStep g (.admitArrived true pid shmId syncSemid)
      { g with
        pq := pqPop g.pq
        sent := g.sent ++ [(pqTop g.pq).newPcb pid shmId syncSemid] }
  | admitRefused {pid shmId syncSemid : ℤ} (hp : g.point = .admitArrived)
      (hq : pqEmpty g.pq = false) (harr : (pqTop g.pq).arrivalTime ≤ g.lastTick)
      (hsem : 0 < syncSemid) : IntakeStep g (.admitArrived false pid shmId syncSemid)
      { g with
        pq := pqPop g.pq
        waitingQueue := queueEnqueue g.waitingQueue ((pqTop g.pq).newPcb pid shmId syncSemid) }
  | post (hp : g.point = .admitArrived)
      (hnone : pqEmpty g.pq = true ∨ g.lastTick < (pqTop g.pq).arrivalTime) :
      IntakeStep g .post { g with point := .check }
  | announce (hp : g.point = .check) (hpq : pqEmpty g.pq = true)
      (hq : queueEmpty g.waitingQueue = true) (honce : g.once = true) : IntakeStep g .check
      { g with once := false, point := .top, signals := g.signals + 1 }
  | again (hp : g.point = .check)
      (hno : ¬ (pqEmpty g.pq = true ∧ queueEmpty g.waitingQueue = true ∧ g.once = true)) :
      IntakeStep g .check { g with point := .top }

variable {g g' : Intake} {a : IntakeAct} {lines : List Process}

/-- The executable step takes only such steps. -/
theorem intakeStep_of_next (h : g.next a = some g') : IntakeStep g a g' := by
  cases a with
  | tick =>
    cases h
    exact .tick
  | readClock =>
    simp only [Intake.next, Option.ite_none_right_eq_some] at h
    obtain ⟨hp, h⟩ := h
    split at h <;> cases h
    · exact .newTick hp ‹_›
    · exact .sameTick hp (not_not.mp ‹_›)
  | serve granted pid shmId =>
    simp only [Intake.next, Option.ite_none_right_eq_some] at h
    obtain ⟨⟨hp, hq⟩, h⟩ := h
    cases granted <;> cases h
    · exact .serveRefused hp hq
    · exact .serveGranted hp hq
  | served =>
    simp only [Intake.next, Option.ite_none_right_eq_some, Option.some.injEq] at h
    obtain ⟨⟨hp, hq⟩, rfl⟩ := h
    exact .served hp hq
  | restore =>
    simp only [Intake.next, Option.ite_none_right_eq_some, Option.some.injEq] at h
    obtain ⟨⟨hp, hq⟩, rfl⟩ := h
    exact .restore hp hq
  | restored =>
    simp only [Intake.next, Option.ite_none_right_eq_some, Option.some.injEq] at h
    obtain ⟨⟨hp, hq⟩, rfl⟩ := h
    exact .restored hp hq
  | admitArrived granted pid shmId syncSemid =>
    simp only [Intake.next, Option.ite_none_right_eq_some] at h
    obtain ⟨⟨hp, hq, harr, hsem⟩, h⟩ := h
    cases granted <;> cases h
    · exact .admitRefused hp hq harr hsem
    · exact .admitGranted hp hq harr hsem
  | post =>
    simp only [Intake.next, Option.ite_none_right_eq_some, Option.some.injEq] at h
    obtain ⟨⟨hp, hnone⟩, rfl⟩ := h
    exact .post hp hnone
  | check =>
    simp only [Intake.next, Option.ite_none_right_eq_some] at h
    obtain ⟨hp, h⟩ := h
    split at h <;> cases h
    · rename_i hempty
      exact .announce hp hempty.1 hempty.2.1 hempty.2.2
    · rename_i hno
      exact .again hp hno

/-- The line that a PCB was filled from. -/
def PCB.process (p : PCB) : Process :=
  { id := p.idFromFile
    arrivalTime := p.arrivalTime
    executionTime := p.executionTime
    priority := p.priority
    memorySize := p.memorySize }

@[simp] theorem newPcb_process (p : Process) (pid shmId syncSemid : ℤ) :
    (p.newPcb pid shmId syncSemid).process = p := rfl

@[simp] theorem created_process (p : PCB) (pid shmId : ℤ) :
    PCB.process { p with pid, shmId } = p.process := rfl

namespace Intake

/-- The generator has ended one tick and not begun the next. -/
def BetweenTicks (g : Intake) : Prop := g.point = .top ∨ g.point = .check

/-- The processes that have left `pq`. -/
def arrived (g : Intake) : List Process :=
  (g.waitingQueue.toList ++ g.tempQueue.toList ++ g.sent).map PCB.process

end Intake

/-- Every process read is in one place, each message carries what was read, none is early or
late, and the end is announced once. -/
structure IntakeConserves (lines : List Process) (g : Intake) : Prop where
  split : g.BetweenTicks → (g.pq.toList ++ g.waitingQueue.toList.map PCB.process ++
    g.sent.map PCB.process).Perm lines
  exactlyOnce : g.BetweenTicks → (g.pq.toList.map Process.id ++
    g.waitingQueue.toList.map PCB.idFromFile ++ g.sent.map PCB.idFromFile).Nodup
  notEarly : ∀ p ∈ g.arrived, p.arrivalTime ≤ g.clock
  notLate : g.BetweenTicks → ∀ p ∈ g.pq.toList, g.lastTick < p.arrivalTime
  signals : g.signals ≤ 1
  announced : 0 < g.signals → (g.sent.map PCB.process).Perm lines

/-- `temp_queue` is used by `serve_waiting_queue` only. -/
structure Intake.QueuesSound (g : Intake) : Prop where
  waiting : g.waitingQueue.Valid
  temp : g.tempQueue.Valid
  tempNil : g.point ≠ .serve → g.point ≠ .restore → g.tempQueue.toList = []

structure Intake.Sound (g : Intake) : Prop extends g.QueuesSound where
  pq : g.pq.InOrder
  mode : g.pq.sortMode = .sortByArrivalTime

structure IntakeInv (lines : List Process) (g : Intake) : Prop extends g.Sound where
  split : (g.pq.toList ++ g.arrived).Perm lines
  notEarly : ∀ p ∈ g.arrived, p.arrivalTime ≤ g.clock
  lastTick_le : ¬ g.BetweenTicks → g.lastTick ≤ g.clock
  notLate : g.BetweenTicks → ∀ p ∈ g.pq.toList, g.lastTick < p.arrivalTime
  signals : g.signals = if g.once then 0 else 1
  announced : g.once = false →
    g.pq.toList = [] ∧ g.waitingQueue.toList = [] ∧ g.tempQueue.toList = []

theorem queueEmpty_iff {q : PCBQueue} : queueEmpty q = true ↔ q.toList = [] := by
  rw [Ring.toList_eq_nil, queueEmpty, beq_iff_eq]

theorem queueSize_pos {q : PCBQueue} (h : queueEmpty q = false) : 0 < q.size := by
  have : q.size ≠ 0 := beq_eq_false_iff_ne.mp h
  omega

/-- Where the processes are after a step. -/
inductive Intake.Moves (g g' : Intake) : Prop
  | kept (hpq : g'.pq = g.pq) (harr : g'.arrived.Perm g.arrived)
  | left (hp : g.point = .admitArrived) (hp' : g'.point = .admitArrived)
      (hq : pqEmpty g.pq = false) (htop : (pqTop g.pq).arrivalTime ≤ g.lastTick)
      (hpq : g'.pq = pqPop g.pq) (harr : g'.arrived.Perm (pqTop g.pq :: g.arrived))

theorem queues_step (hs : g.QueuesSound) (h : IntakeStep g a g') :
    g'.QueuesSound ∧ g.Moves g' := by
  have hempty : (queueInit 100 emptyFront).toList = [] := rfl
  have hinit : (queueInit 100 emptyFront).Valid := queueInit_valid emptyFront (by decide)
  cases h with
  | tick => exact ⟨⟨hs.waiting, hs.temp, hs.tempNil⟩, .kept rfl (.refl _)⟩
  | newTick hp hne =>
    have htemp := hs.tempNil (by simp [hp]) (by simp [hp])
    refine ⟨⟨hs.waiting, hinit, fun _ _ => hempty⟩, .kept rfl (.of_eq ?_)⟩
    simp only [Intake.arrived, hempty, htemp]
  | sameTick hp heq =>
    have htemp := hs.tempNil (by simp [hp]) (by simp [hp])
    exact ⟨⟨hs.waiting, hs.temp, fun _ _ => htemp⟩, .kept rfl (.refl _)⟩
  | serveGranted hp hq =>
    obtain ⟨hvalid, hlist⟩ := queueDequeue_spec hs.waiting (queueSize_pos hq)
    refine ⟨⟨hvalid, hs.temp, fun hne => absurd hp hne⟩, .kept rfl ?_⟩
    simp only [Intake.arrived, hlist, List.map_append, List.map_cons, List.map_nil,
      created_process]
    rw [← List.append_assoc]
    exact List.perm_append_singleton _ _
  | serveRefused hp hq =>
    obtain ⟨hvalid, hlist⟩ := queueDequeue_spec hs.waiting (queueSize_pos hq)
    obtain ⟨hvalid', hlist'⟩ := queueEnqueue_spec hs.temp (queueFront g.waitingQueue)
    refine ⟨⟨hvalid, hvalid', fun hne => absurd hp hne⟩, .kept rfl ?_⟩
    simp only [Intake.arrived, hlist, hlist']
    refine (List.Perm.append_right _ ?_).map _
    rw [← List.append_assoc]
    exact List.perm_append_singleton _ _
  | served hp hq =>
    exact ⟨⟨hs.waiting, hs.temp, fun _ hne => absurd rfl hne⟩, .kept rfl (.refl _)⟩
  | restore hp hq =>
    obtain ⟨hvalid, hlist⟩ := queueDequeue_spec hs.temp (queueSize_pos hq)
    obtain ⟨hvalid', hlist'⟩ := queueEnqueue_spec hs.waiting (queueFront g.tempQueue)
    refine ⟨⟨hvalid', hvalid, fun _ hne => absurd hp hne⟩, .kept rfl (.of_eq ?_)⟩
    simp only [Intake.arrived, hlist, hlist', List.append_assoc, List.cons_append,
      List.nil_append]
  | restored hp hq =>
    have htemp := queueEmpty_iff.mp hq
    exact ⟨⟨hs.waiting, hs.temp, fun _ _ => htemp⟩, .kept rfl (.refl _)⟩
  | admitGranted hp hq harr hsem =>
    have htemp := hs.tempNil (by simp [hp]) (by simp [hp])
    refine ⟨⟨hs.waiting, hs.temp, fun _ _ => htemp⟩, .left hp hp hq harr rfl ?_⟩
    simp only [Intake.arrived, List.map_append, List.map_cons, List.map_nil, newPcb_process]
    rw [← List.append_assoc]
    exact List.perm_append_singleton _ _
  | admitRefused hp hq harr hsem =>
    have htemp := hs.tempNil (by simp [hp]) (by simp [hp])
    obtain ⟨hvalid, hlist⟩ := queueEnqueue_spec hs.waiting ((pqTop g.pq).newPcb _ _ _)
    refine ⟨⟨hvalid, hs.temp, fun _ _ => htemp⟩, .left hp hp hq harr rfl ?_⟩
    simp only [Intake.arrived, hlist, htemp, List.append_nil, List.map_append, List.map_cons,
      List.map_nil, newPcb_process]
    exact ((List.perm_append_singleton _ _).append_right _)
  | post hp hnone | announce hp hpq hq honce | again hp hno =>
    have htemp := hs.tempNil (by simp [hp]) (by simp [hp])
    exact ⟨⟨hs.waiting, hs.temp, fun _ _ => htemp⟩, .kept rfl (.refl _)⟩

theorem intake_sound (hs : g.Sound) (h : IntakeStep g a g') : g'.Sound ∧ g.Moves g' := by
  obtain ⟨hqueues, hmoves⟩ := queues_step hs.toQueuesSound h
  refine ⟨⟨hqueues, ?_, ?_⟩, hmoves⟩
  · cases hmoves with
    | kept hpq => exact hpq ▸ hs.pq
    | left _ _ hq _ hpq =>
      rw [hpq]
      exact PriorityQueue.pqPop_inOrder hs.pq (PriorityQueue.size_pos hq)
  · cases hmoves with
    | kept hpq => exact hpq ▸ hs.mode
    | left _ _ _ _ hpq =>
      rw [hpq]
      exact hs.mode

theorem clock_le (h : IntakeStep g a g') : g.clock ≤ g'.clock := by
  cases h with
  | tick => exact Int.le_add_one (Int.le_refl _)
  | _ => exact Int.le_refl _

theorem queueEmpty_ne {q : PCBQueue} (h : queueEmpty q = false) : q.toList ≠ [] := by
  intro hnil
  rw [queueEmpty_iff.mpr hnil] at h
  cases h

/-- The time of a tick, and what is left in `pq` after it. -/
theorem lastTick_step (hi : IntakeInv lines g) (h : IntakeStep g a g') :
    (¬ g'.BetweenTicks → g'.lastTick ≤ g'.clock) ∧
      (g'.BetweenTicks → ∀ p ∈ g'.pq.toList, g'.lastTick < p.arrivalTime) := by
  have hle := hi.lastTick_le
  have hlate := hi.notLate
  cases h with
  | tick =>
    refine ⟨fun hb => ?_, hlate⟩
    have := hle hb
    show g.lastTick ≤ g.clock + 1
    omega
  | newTick hp hne => exact ⟨fun _ => Int.le_refl _, fun hb => by simp [Intake.BetweenTicks] at hb⟩
  | sameTick hp heq => exact ⟨fun hb => absurd (Or.inr rfl) hb, fun _ => hlate (Or.inl hp)⟩
  | serveGranted hp | serveRefused hp | served hp | restore hp | restored hp | admitGranted hp
  | admitRefused hp =>
    exact ⟨fun _ => hle (by simp [Intake.BetweenTicks, hp]),
      fun hb => by simp [Intake.BetweenTicks, hp] at hb⟩
  | post hp hnone =>
    refine ⟨fun hb => absurd (Or.inr rfl) hb, fun _ p hmem => ?_⟩
    rcases hnone with hnil | hlt
    · rw [PriorityQueue.toList_eq_nil.mpr hnil] at hmem
      cases hmem
    · exact Int.lt_of_lt_of_le hlt (PriorityQueue.pqTop_le hi.pq hmem)
  | announce hp => exact ⟨fun hb => absurd (Or.inl rfl) hb, fun _ => hlate (Or.inr hp)⟩
  | again hp => exact ⟨fun hb => absurd (Or.inl rfl) hb, fun _ => hlate (Or.inr hp)⟩

/-- `SIGUSR1` is sent when the queues are empty, and they stay so. -/
theorem signals_step (hi : IntakeInv lines g) (h : IntakeStep g a g') :
    (g'.signals = if g'.once then 0 else 1) ∧ (g'.once = false →
      g'.pq.toList = [] ∧ g'.waitingQueue.toList = [] ∧ g'.tempQueue.toList = []) := by
  have hann := hi.announced
  cases h with
  | tick | sameTick | served | restored | post | again => exact ⟨hi.signals, hann⟩
  | newTick hp hne =>
    refine ⟨hi.signals, fun honce => ?_⟩
    obtain ⟨hpq, hwait, -⟩ := hann honce
    exact ⟨hpq, hwait, rfl⟩
  | serveGranted hp hq | serveRefused hp hq =>
    exact ⟨hi.signals, fun honce => absurd (hann honce).2.1 (queueEmpty_ne hq)⟩
  | restore hp hq => exact ⟨hi.signals, fun honce => absurd (hann honce).2.2 (queueEmpty_ne hq)⟩
  | admitGranted hp hq | admitRefused hp hq =>
    refine ⟨hi.signals, fun honce => ?_⟩
    rw [PriorityQueue.toList_eq_nil.mp (hann honce).1] at hq
    cases hq
  | announce hp hpq hq honce =>
    have htemp := hi.tempNil (by simp [hp]) (by simp [hp])
    refine ⟨?_, fun _ => ⟨PriorityQueue.toList_eq_nil.mpr hpq, queueEmpty_iff.mp hq, htemp⟩⟩
    show g.signals + 1 = 1
    rw [hi.signals, honce]
    rfl

theorem intakeInv_step (hi : IntakeInv lines g) (h : IntakeStep g a g') : IntakeInv lines g' := by
  obtain ⟨hsound, hmoves⟩ := intake_sound hi.toSound h
  have hclock := clock_le h
  have hsplit : (g'.pq.toList ++ g'.arrived).Perm lines := by
    cases hmoves with
    | kept hpq harr =>
      rw [hpq]
      exact (harr.append_left _).trans hi.split
    | left hp hp' hq htop hpq harr =>
      have hpop := PriorityQueue.pqPop_perm (PriorityQueue.size_pos hq)
      rw [hpq]
      exact ((harr.append_left _).trans List.perm_middle).trans
        ((hpop.append_right g.arrived).symm.trans hi.split)
  have hearly : ∀ p ∈ g'.arrived, p.arrivalTime ≤ g'.clock := by
    intro p hp'
    cases hmoves with
    | kept hpq harr => exact Int.le_trans (hi.notEarly p (harr.subset hp')) hclock
    | left hp _ hq htop hpq harr =>
      have hle := hi.lastTick_le (by simp [Intake.BetweenTicks, hp])
      rcases List.mem_cons.mp (harr.subset hp') with rfl | hold
      · exact Int.le_trans (Int.le_trans htop hle) hclock
      · exact Int.le_trans (hi.notEarly p hold) hclock
  exact ⟨hsound, hsplit, hearly, (lastTick_step hi h).1, (lastTick_step hi h).2,
    (signals_step hi h).1, (signals_step hi h).2⟩

/-- `read_processes` puts every line into `pq`. -/
theorem readProcesses_spec {pq : PriorityQueue} (h : pq.InOrder)
    (hv : ∀ p ∈ lines, PriorityQueue.Comparable pq.sortMode p) :
    (readProcesses pq lines).InOrder ∧ (readProcesses pq lines).sortMode = pq.sortMode ∧
      (readProcesses pq lines).toList.Perm (pq.toList ++ lines) := by
  induction lines generalizing pq with
  | nil => exact ⟨h, rfl, .of_eq (List.append_nil _).symm⟩
  | cons p lines ih =>
    obtain ⟨hpush, hperm⟩ := PriorityQueue.pqPush_spec h (hv p List.mem_cons_self)
    have hmode : (pqPush pq p).sortMode = pq.sortMode := PriorityQueue.pqPush_sortMode
    obtain ⟨hread, hread', hall⟩ := ih hpush fun q hq => by
      rw [hmode]
      exact hv q (List.mem_cons_of_mem _ hq)
    refine ⟨hread, hread'.trans hmode, hall.trans ?_⟩
    have := hperm.append_right lines
    rwa [List.append_assoc] at this

theorem intakeInv_initial (clk : ℤ)
    (hv : ∀ p ∈ lines, 0 ≤ p.arrivalTime ∧ p.arrivalTime < 2 ^ 31) :
    IntakeInv lines (Intake.initial clk lines) := by
  have hempty : (queueInit 100 emptyFront).toList = [] := rfl
  have hinit : (queueInit 100 emptyFront).Valid := queueInit_valid emptyFront (by decide)
  have hcomparable : ∀ p ∈ lines, PriorityQueue.Comparable
      (pqInit 20 .sortByArrivalTime unusedProcess).sortMode p :=
    fun p hp => ⟨hv p hp, by simp [pqInit]⟩
  obtain ⟨hpq, hmode, hall⟩ := readProcesses_spec
    (PriorityQueue.pqInit_inOrder _ _ (by decide)) hcomparable
  have harr : (Intake.initial clk lines).arrived = [] := rfl
  have hlist : (Intake.initial clk lines).pq.toList.Perm lines := hall
  refine ⟨⟨⟨hinit, hinit, fun _ _ => hempty⟩, hpq, hmode⟩, ?_, ?_, ?_, ?_, rfl, nofun⟩
  · rw [harr, List.append_nil]
    exact hlist
  · simp [harr]
  · exact fun hb => absurd (Or.inl rfl) hb
  · intro _ p hp
    have := (hv p (hlist.subset hp)).1
    show -1 < p.arrivalTime
    omega

theorem intakeConserves_of_inv (hids : (lines.map Process.id).Nodup) (hi : IntakeInv lines g) :
    IntakeConserves lines g := by
  have hplaces : g.BetweenTicks → g.tempQueue.toList = [] := by
    rintro (hp | hp)
    · exact hi.tempNil (by simp [hp]) (by simp [hp])
    · exact hi.tempNil (by simp [hp]) (by simp [hp])
  have hsplit : g.BetweenTicks → (g.pq.toList ++ g.waitingQueue.toList.map PCB.process ++
      g.sent.map PCB.process).Perm lines := by
    intro hb
    have := hi.split
    rwa [Intake.arrived, hplaces hb, List.append_nil, List.map_append, ← List.append_assoc] at this
  refine ⟨hsplit, ?_, hi.notEarly, hi.notLate, ?_, ?_⟩
  · intro hb
    have hperm := (hsplit hb).map Process.id
    rw [List.map_append, List.map_append, List.map_map, List.map_map] at hperm
    exact hperm.nodup_iff.mpr hids
  · rw [hi.signals]
    split <;> decide
  · intro hpos
    have honce : g.once = false := by
      by_contra h
      have hzero := hi.signals
      rw [Bool.not_eq_false] at h
      rw [if_pos h] at hzero
      omega
    obtain ⟨hpq, hwait, htemp⟩ := hi.announced honce
    have := hi.split
    rwa [Intake.arrived, hpq, hwait, htemp] at this

/-- Every process read is in `pq`, waiting or sent, and the end is announced when all are sent. -/
theorem intakeConserves_always (clk : ℤ) (lines : List Process) (hids : (lines.map Process.id).Nodup)
    (hv : ∀ p ∈ lines, 0 ≤ p.arrivalTime ∧ p.arrivalTime < 2 ^ 31) (as : List IntakeAct) :
    Always (fun g a g' => Intake.next g a = some g') (Intake.initial clk lines) as
      (IntakeConserves lines) := by
  intro pre g _ ht
  refine intakeConserves_of_inv hids (ht.invariant ?_ (intakeInv_initial clk hv))
  exact fun _ _ _ hi hstep => intakeInv_step hi (intakeStep_of_next hstep)

/-- Two processes arrive together, and the second is refused at first. -/
def refusedOnceRun : List IntakeAct :=
  [.readClock, .served, .restored, .admitArrived true 101 11 21, .admitArrived false 0 0 22,
    .post, .check, .tick, .readClock, .serve true 102 12, .served, .restored, .post, .check]

theorem intakeConserves_twoArrivals :
    ∃ g, (g.sent.map PCB.pid = [101, 102] ∧ g.signals = 1) ∧
      Trace (fun g a g' => Intake.next g a = some g')
        (Intake.initial 0 [⟨1, 0, 3, 2, 64⟩, ⟨2, 0, 4, 1, 1024⟩]) refusedOnceRun g ∧
      IntakeConserves [⟨1, 0, 3, 2, 64⟩, ⟨2, 0, 4, 1, 1024⟩] g := by
  obtain ⟨g, hrun, htest⟩ := exists_trace_of_execute
    (R := fun g a g' => Intake.next g a = some g') (fun _ _ _ h => h)
    (show (execute (fun _ _ => True) Intake.next
      (Intake.initial 0 [⟨1, 0, 3, 2, 64⟩, ⟨2, 0, 4, 1, 1024⟩]) refusedOnceRun).any
      (fun g => g.sent.map PCB.pid = [101, 102] ∧ g.signals = 1) = true by decide +kernel)
  have hrun := hrun.mono fun _ _ _ h => h.2
  exact ⟨g, of_decide_eq_true htest, hrun,
    intakeConserves_always 0 _ (by decide) (by decide) _ _ g (List.prefix_refl _) hrun⟩

end KernelSim
