import KernelSim.Scheduler.Charging
import KernelSim.Scheduler.HeapOrder
import KernelSim.Scheduler.Waiting
import KernelSim.Scheduler.Statistics

/-! Workloads: which runs of the loop beside the processes they are, and how many processes a run
must have seen once the heap has been full. -/
namespace KernelSim
open Runs Relation Scheduler

/-- Messages are those of new processes with something to run, and a `SIGUSR2` is handled while its
sender is current. -/
def Workload (s : Simulation) : SimulationAct → Prop
  | .loop (.receive p _) => 0 < p.syncSemid ∧ 1 ≤ p.executionTime ∧
      p.pid ∉ s.loop.scheduler.receivedPids
  | .loop (.sigusr2 _) => ∀ pid ∈ s.signals.head?,
      s.loop.scheduler.current.map PCB.pid = some pid
  | _ => True

instance : ∀ s a, Decidable (Workload s a)
  | s, .loop (.receive p _) => inferInstanceAs (Decidable (0 < p.syncSemid ∧ 1 ≤ p.executionTime ∧
      p.pid ∉ s.loop.scheduler.receivedPids))
  | s, .loop (.sigusr2 _) => inferInstanceAs (Decidable (∀ pid ∈ s.signals.head?,
      s.loop.scheduler.current.map PCB.pid = some pid))
  | _, .loop .tick => isTrue trivial
  | _, .loop .sigusr1 => isTrue trivial
  | _, .loop (.downNb _) => isTrue trivial
  | _, .loop .noMessage => isTrue trivial
  | _, .loop (.advance _) => isTrue trivial
  | _, .worker _ _ => isTrue trivial

/-- A process that is stopped for a shorter one finds room in the heap. -/
def RoomToPreempt (s : Simulation) : SimulationAct → Prop
  | .loop (.receive p i) => s.loop.scheduler.algorithm = .SRTN →
      ((s.loop.scheduler.feed i).handleProcessArrival p).Overtaken →
        HasRoom ((s.loop.scheduler.feed i).handleProcessArrival p)
  | .loop (.advance i) => s.loop.point = .runAlgorithm →
      (s.loop.scheduler.feed i).Preempts → HasRoom (s.loop.scheduler.feed i)
  | _ => True

namespace Scheduler

/-- So many processes are unfinished or have ended that the loop cannot be left before the arrays
of statistics are full. -/
def Crowded (s : Scheduler) : Prop := 1024 ≤ s.held.length + s.finishedProcesses

variable {s s' : Scheduler} {p : PCB} {process : ℕ}

theorem root_mem (ha : s.algorithm ≠ .RR) (hne : 0 < s.readyHeap.size) :
    s.pcbs (s.readyHeap.processes 0) ∈ s.ready :=
  (mem_ready_heap ha).mpr ⟨_, BinaryHeap.mem_toList.mpr ⟨0, hne, rfl⟩, rfl⟩

/-- The root of the heap is no shorter than a current process with no more left than any other. -/
theorem root_not_shorter (ha : s.algorithm ≠ .RR) (hc : s.current = some p)
    (hmin : ∀ q ∈ s.ready, p.remainingTime ≤ q.remainingTime) :
    ¬ (0 < s.readyHeap.size ∧ ∀ process, s.currentProcess = some process →
      (s.pcbs process).remainingTime > (s.pcbs (s.readyHeap.processes 0)).remainingTime) := by
  obtain ⟨process, hcp, rfl⟩ := Option.map_eq_some_iff.mp hc
  rintro ⟨hsize, hlt⟩
  have hle := hmin _ (root_mem ha hsize)
  have hgt := hlt process hcp
  omega

/-- A full heap is a crowd. -/
theorem crowded_of_full (h : ¬ HasRoom s) : Crowded s := by
  have hlen := (not_or.mp h).2
  rw [Crowded, held, List.length_append]
  omega

theorem Crowded.of_held (h : Crowded s) (hheld : s.held.length ≤ s'.held.length)
    (hb : SameBooks s s') : Crowded s' := by
  rw [Crowded, hb.finishedProcesses]
  exact h.trans (Nat.add_le_add_right hheld _)

theorem contextSwitching_crowded (hs : Sound s) (h : Crowded s) : Crowded s.contextSwitching := by
  obtain ⟨hb, -, hturn⟩ := contextSwitching_turn hs
  cases hturn with
  | kept p hc hc' hr =>
    refine h.of_held ?_ hb
    rw [held_some hc, held_some hc', hr]
    exact Nat.le_refl _
  | idle hc hr hc' hr' =>
    refine h.of_held ?_ hb
    rw [held_none hc, held_none hc', hr, hr']
  | dispatched q hc hq hc' =>
    refine h.of_held ?_ hb
    rw [held_none hc, held_some hc', hq.perm.length_eq]
    exact Nat.le_refl _
  | replaced p q value queued hc hp hq hc' =>
    have hlen := hq.perm.length_eq
    rw [List.length_cons] at hlen
    by_cases hroom : HasRoom s
    · refine h.of_held ?_ hb
      have hqueued := (hp.perm hroom).length_eq
      rw [List.length_cons] at hqueued
      rw [held_some hc, held_some hc', List.length_cons, List.length_cons]
      omega
    · -- the process stopped is forgotten, and the heap still holds the others
      have hready := (not_or.mp hroom).2
      rw [hp.full hroom] at hlen
      rw [Crowded, held_some hc', List.length_cons]
      omega

theorem primitives_crowded (hs : Sound s) (hp : ReflTransGen Primitive s s') (h : Crowded s) :
    Sound s' ∧ Crowded s' := by
  induction hp with
  | refl => exact ⟨hs, h⟩
  | tail _ hp ih =>
    obtain ⟨hs, h⟩ := ih
    have hmove := primitive_move hs hp
    refine ⟨hmove.sound, ?_⟩
    cases hp with
    | switch => exact contextSwitching_crowded hs h
    | read hc =>
      have hread := updateProcessRemainingTime_reread hs hc
      refine h.of_held ?_ hmove.books
      rw [held, held, hread.ready]
      rcases hread.current with heq | ⟨p, value, hc, hc'⟩
      · rw [heq]
      · rw [hc, hc']
        exact Nat.le_refl _

theorem arrival_crowded (hs : Sound s) (hsem : 0 < p.syncSemid) (h : Crowded s) :
    Crowded (s.handleProcessArrival p) := by
  obtain ⟨-, hb, -⟩ := handleProcessArrival_spec hs hsem
  have hlen : s.held.length ≤ (s.handleProcessArrival p).held.length := by
    rcases arrival_held hs hsem with hperm | heq
    · rw [hperm.length_eq]
      exact Nat.le_succ _
    · rw [heq]
  rw [Crowded, hb.finishedProcesses]
  exact h.trans (Nat.add_le_add_right hlen _)

/-- What reception does after an arrival. -/
theorem receiveMessage_crowded (hs : Sound s) (hsem : 0 < p.syncSemid)
    (h : Crowded (s.handleProcessArrival p)) : Crowded (s.receiveMessage p) := by
  have hsound := (handleProcessArrival_spec hs hsem).1
  have hrun : Crowded (s.handleProcessArrival p).preemptOnArrival := by
    unfold preemptOnArrival
    split
    · exact (primitives_crowded hsound (runSRTN_primitives _) h).2
    · exact h
  obtain ⟨clk, heq⟩ := receiveMessage_eq s p
  rw [heq]
  exact hrun

theorem retire_crowded (hs : Sound s) (hcp : s.currentProcess = some process) (h : Crowded s) :
    Crowded (s.retire process) := by
  obtain ⟨value, -, hb, hnone, hready, -⟩ := retire_spec hs hcp
  rw [Crowded, held_some (current_some hcp), List.length_cons] at h
  rw [Crowded, held_none (current_eq_none.mpr hnone), hready, hb.finishedProcesses]
  show 1024 ≤ _ + (s.finishedProcesses + 1)
  omega

theorem completion_crowded (hs : Sound s) (clk : ℤ) (h : Crowded s) :
    Crowded (s.handleProcessCompletion clk) := by
  obtain ⟨-, heq⟩ | ⟨process, hcp, heq⟩ := completion_cases s clk
  · rw [heq]
    exact h
  · have hsound := (retire_spec (hs.withClock clk) hcp).choose_spec.1
    have hretired := retire_crowded (hs.withClock clk) hcp h
    rcases heq with heq | heq
    · rw [heq]
      exact hretired
    · rw [heq]
      exact contextSwitching_crowded hsound hretired

theorem grantTick_crowded (h : Crowded s) : Crowded s.grantTick := by
  rw [grantTick_eq]
  exact h

end Scheduler

variable {s s' : Simulation} {a : SimulationAct} {l l' : Loop} {act : LoopAct}

theorem simulationStep_loop (h : SimulationStep s (.loop act) s') :
    LoopStep s.loop act s'.loop := by
  cases h with
  | sigusr2 _ hl | receive hl | loop _ hl => exact hl

/-- A step of a process leaves the loop alone. -/
theorem simulationStep_worker {pid : ℤ} {act : WorkerAct}
    (h : SimulationStep s (.worker pid act) s') : s'.loop = s.loop := by
  cases h
  rfl

/-- In a workload every message has a valid semaphore. -/
theorem Workload.semids (h : Workload s (.loop act)) : SemidsValid s.loop act := by
  cases act with
  | receive p i => exact h.1
  | _ => trivial

/-- A crowd stays one. -/
theorem loopStep_crowded (hs : Sound l.scheduler) (hok : SemidsValid l act)
    (h : Crowded l.scheduler) (hstep : LoopStep l act l') : Crowded l'.scheduler := by
  cases hstep with
  | @sigusr2 i hp => exact completion_crowded (hs.feed i) l.clock h
  | @receive p i hp =>
    exact receiveMessage_crowded (hs.feed i) hok (arrival_crowded (hs.feed i) hok h)
  | @runAlgorithm i hp =>
    exact (primitives_crowded (hs.feed i) (runAlgorithm_primitives _) h).2
  | grant hp => exact grantTick_crowded h
  | @refresh i hp => exact (primitives_crowded (hs.feed i) (updateCurrent_primitives _) h).2
  | _ => exact h

/-- A preemption that finds no room is one in a crowd. -/
theorem loopStep_fills (hs : Sound s.loop.scheduler) (hload : Workload s (.loop act))
    (hroom : ¬ RoomToPreempt s (.loop act)) (hstep : LoopStep s.loop act l) :
    Crowded l.scheduler := by
  cases hstep with
  | @receive p i hp =>
    obtain ⟨-, hroom⟩ := Classical.not_imp.mp hroom
    obtain ⟨-, hfull⟩ := Classical.not_imp.mp hroom
    exact receiveMessage_crowded (hs.feed i) hload.1 (crowded_of_full hfull)
  | @runAlgorithm i hp =>
    obtain ⟨-, hroom⟩ := Classical.not_imp.mp hroom
    obtain ⟨-, hfull⟩ := Classical.not_imp.mp hroom
    exact (primitives_crowded (hs.feed i) (runAlgorithm_primitives _) (crowded_of_full hfull)).2
  | tick | sigusr1 | sigusr2 | refused | taken | noMessage => exact absurd trivial hroom
  | _ hp => exact absurd (fun hrun => by simp [hp] at hrun) hroom

end KernelSim
