import KernelSim.Scheduler.Moves

/-! What the operations of the scheduler leave alone whatever state they find, and the bookkeeping
of a completion. -/
namespace KernelSim
open Relation

namespace Scheduler

variable {s s' : Scheduler} {process : ℕ}

theorem updateProcessRemainingTime_books (s : Scheduler) (process : ℕ) :
    SameBooks s (s.updateProcessRemainingTime process) := by
  obtain ⟨value, htouch, -⟩ := updateProcessRemainingTime_spec s process
  exact htouch.toSameBooks

theorem dispatch_books (s : Scheduler) : SameBooks s s.dispatch := by
  unfold dispatch
  split
  · exact .refl s
  · split
    · exact ⟨rfl, rfl, rfl, rfl, rfl, rfl, rfl, rfl⟩
    · rename_i process _ hsem
      split
      · exact (startProcess_signals (not_le.mp hsem)).toSameBooks
      · exact (resumeProcess_signals s process).toSameBooks

theorem pickProcess_books (s : Scheduler) : SameBooks s s.pickProcess.1 := by
  unfold pickProcess
  split
  · split <;> exact ⟨rfl, rfl, rfl, rfl, rfl, rfl, rfl, rfl⟩
  · exact ⟨rfl, rfl, rfl, rfl, rfl, rfl, rfl, rfl⟩

theorem switchToNext_books (s : Scheduler) : SameBooks s s.switchToNext := by
  have hpick := pickProcess_books s
  have hcur : SameBooks s.pickProcess.1
      { s.pickProcess.1 with currentProcess := s.pickProcess.2 } :=
    ⟨rfl, rfl, rfl, rfl, rfl, rfl, rfl, rfl⟩
  exact (hpick.trans hcur).trans (dispatch_books _)

theorem contextSwitching_books (s : Scheduler) : SameBooks s s.contextSwitching := by
  unfold contextSwitching
  split
  · exact switchToNext_books s
  · rename_i process _
    have hread := updateProcessRemainingTime_books s process
    dsimp only
    split
    · exact hread
    · split
      · have hagain := updateProcessRemainingTime_books (s.updateProcessRemainingTime process) process
        have hstop := (stopProcess_signals ((s.updateProcessRemainingTime
          process).updateProcessRemainingTime process) process).toSameBooks
        have hqueue : ∀ t : Scheduler, SameBooks t (t.requeue process) := by
          intro t
          unfold requeue
          split <;> exact ⟨rfl, rfl, rfl, rfl, rfl, rfl, rfl, rfl⟩
        exact (((hread.trans hagain).trans hstop).trans (hqueue _)).trans (switchToNext_books _)
      · exact hread.trans (switchToNext_books _)

theorem primitives_books (h : ReflTransGen Primitive s s') : SameBooks s s' := by
  induction h with
  | refl => exact .refl s
  | tail _ hp ih =>
    cases hp with
    | read => exact ih.trans (updateProcessRemainingTime_books _ _)
    | switch => exact ih.trans (contextSwitching_books _)

/-- `s` after the bookkeeping for the process `p`. -/
def booked (s : Scheduler) (p : PCB) : Scheduler :=
  { s with
    finishedProcesses := s.finishedProcesses + 1
    turnaroundTimes := s.turnaroundTimes.set s.finishedProcesses (s.clockValue - p.arrivalTime)
    waitTimes := s.waitTimes.set s.finishedProcesses
      (s.clockValue - p.arrivalTime - p.executionTime) }

theorem SameBooks.booked (h : SameBooks s s') (p : PCB) : SameBooks (s.booked p) (s'.booked p) := by
  refine ⟨h.algorithm, h.quantum, h.processCount, ?_, h.generatorFinished, ?_, ?_, h.clockValue⟩
  · exact congrArg (· + 1) h.finishedProcesses
  · simp only [Scheduler.booked, h.turnaroundTimes, h.finishedProcesses, h.clockValue]
  · simp only [Scheduler.booked, h.waitTimes, h.finishedProcesses, h.clockValue]

theorem retire_books (s : Scheduler) (process : ℕ) :
    SameBooks (s.booked (s.pcbs process)) (s.retire process) := by
  obtain ⟨value, hread, -⟩ := updateProcessRemainingTime_spec s process
  obtain ⟨hremove, -⟩ := removeSharedMemory_spec (s.updateProcessRemainingTime process) process
  have htouch := hread.trans hremove
  have hrecord : ∀ t : Scheduler, SameBooks (t.booked (t.pcbs process)) (t.recordCompletion process) := by
    intro t
    constructor <;> simp [recordCompletion, writePcb, emit, booked]
  refine .trans ?_ (hrecord _)
  rw [htouch.pcb, hread.pcb]
  exact htouch.toSameBooks.booked (s.pcbs process)

theorem completeCurrent_none (hc : s.currentProcess = none) : s.completeCurrent = s := by
  simp only [completeCurrent, hc]

theorem completeCurrent_some (hc : s.currentProcess = some process) :
    s.completeCurrent = s.retire process ∨
      s.completeCurrent = (s.retire process).contextSwitching := by
  simp only [completeCurrent, hc]
  split
  · exact Or.inr rfl
  · exact Or.inl rfl

/-- The handler retires the current process, and may switch; without one it reads the clock only. -/
theorem completion_cases (s : Scheduler) (clk : ℤ) :
    s.currentProcess = none ∧ s.handleProcessCompletion clk = { s with clockValue := clk } ∨
      ∃ process, s.currentProcess = some process ∧
        (s.handleProcessCompletion clk = retire { s with clockValue := clk } process ∨
          s.handleProcessCompletion clk =
            (retire { s with clockValue := clk } process).contextSwitching) := by
  rcases Option.eq_none_or_eq_some s.currentProcess with hc | ⟨process, hc⟩
  · exact Or.inl ⟨hc, completeCurrent_none (s := { s with clockValue := clk }) hc⟩
  · exact Or.inr ⟨process, hc, completeCurrent_some (s := { s with clockValue := clk }) hc⟩

theorem completeCurrent_books (hc : s.currentProcess = some process) :
    SameBooks (s.booked (s.pcbs process)) s.completeCurrent := by
  have hretire := retire_books s process
  rcases completeCurrent_some hc with heq | heq
  · rw [heq]
    exact hretire
  · rw [heq]
    exact hretire.trans (contextSwitching_books _)

/-- The handler leaves the time it read in `clockValue`. -/
theorem completion_books (s : Scheduler) (clk : ℤ) :
    (s.handleProcessCompletion clk).clockValue = clk ∧
      (s.handleProcessCompletion clk).processCount = s.processCount ∧
      (s.handleProcessCompletion clk).generatorFinished = s.generatorFinished := by
  cases hc : s.currentProcess with
  | none =>
    have hnone := completeCurrent_none (s := { s with clockValue := clk }) hc
    rw [handleProcessCompletion, hnone]
    exact ⟨rfl, rfl, rfl⟩
  | some process =>
    have hb := completeCurrent_books (s := { s with clockValue := clk }) hc
    exact ⟨hb.clockValue, hb.processCount, hb.generatorFinished⟩

theorem preemptOnArrival_books (s : Scheduler) : SameBooks s s.preemptOnArrival := by
  unfold preemptOnArrival
  split
  · exact primitives_books (runSRTN_primitives s)
  · exact .refl s

/-- Only SRTN compares a new process with the current one. -/
theorem receiveMessage_of_ne_SRTN (ha : s.algorithm ≠ .SRTN) (p : PCB) :
    s.receiveMessage p = (s.handleProcessArrival p).forgetTick := by
  have hsame : (s.handleProcessArrival p).algorithm = s.algorithm :=
    (handleProcessArrival_books s p).algorithm
  rw [receiveMessage, preemptOnArrival, hsame, if_neg fun h => ha h.1]

/-- Only SRTN switches from a finished process at once. -/
theorem completeCurrent_of_ne_SRTN (ha : s.algorithm ≠ .SRTN)
    (hc : s.currentProcess = some process) : s.completeCurrent = s.retire process := by
  have hsame : (s.retire process).algorithm = s.algorithm := (retire_books s process).algorithm
  simp only [completeCurrent, hc, hsame, ha, and_false, if_false]

/-- Reception counts the process, and may forget the tick. -/
theorem receiveMessage_books (s : Scheduler) (p : PCB) :
    ∃ clk, SameBooks { s with processCount := s.processCount + 1, clockValue := clk }
      (s.receiveMessage p) := by
  have hb := (handleProcessArrival_books s p).trans (preemptOnArrival_books _)
  obtain ⟨clk, heq⟩ := receiveMessage_eq s p
  rw [heq]
  exact ⟨clk, hb.1, hb.2, hb.3, hb.4, hb.5, hb.6, hb.7, rfl⟩

theorem grantTick_none (hc : s.currentProcess = none) : s.grantTick = s := by
  simp only [grantTick, hc]

theorem grantTick_some (hc : s.currentProcess = some process) :
    s.grantTick = s.emit (.grant (s.pcbs process)) := by
  simp only [grantTick, hc]

/-- The grant is seen outside only. -/
theorem grantTick_eq (s : Scheduler) :
    s.grantTick = { s with trace := s.trace ++ s.current.toList.map Effect.grant } := by
  rcases Option.eq_none_or_eq_some s.currentProcess with hc | ⟨process, hc⟩
  · rw [grantTick_none hc, current_eq_none.mpr hc, Option.toList_none, List.map_nil,
      List.append_nil]
  · rw [grantTick_some hc, current_some hc]
    rfl

theorem grantTick_books (s : Scheduler) : SameBooks s s.grantTick := by
  rw [grantTick_eq]
  exact ⟨rfl, rfl, rfl, rfl, rfl, rfl, rfl, rfl⟩

@[simp] theorem grantTick_current (s : Scheduler) : s.grantTick.current = s.current := by
  rw [grantTick_eq]
  rfl

@[simp] theorem grantTick_ready (s : Scheduler) : s.grantTick.ready = s.ready := by
  rw [grantTick_eq]
  rfl

end Scheduler

end KernelSim
