import KernelSim.Scheduler.PcbMemory

/-! Nothing that the scheduler does depends on the memory that has been freed. -/
namespace KernelSim
open Runs Relation

namespace Scheduler

/-- The PCBs at the addresses `freed` hold anything. -/
def overwrite (s : Scheduler) (freed : List ℕ) (junk : ℕ → PCB) : Scheduler :=
  { s with pcbs := fun p => if p ∈ freed then junk p else s.pcbs p }

/-- No address freed is given out again or known to the scheduler. -/
structure Clear (s : Scheduler) (freed : List ℕ) : Prop where
  fresh : s.nextPcb ∉ freed
  current : ∀ p, s.currentProcess = some p → p ∉ freed
  heap : ∀ p ∈ s.readyHeap.toList, p ∉ freed

variable {s s' t : Scheduler} {freed : List ℕ} {junk : ℕ → PCB} {p : PCB} {process : ℕ}

theorem overwrite_pcbs (hp : process ∉ freed) :
    (s.overwrite freed junk).pcbs process = s.pcbs process := if_neg hp

theorem update_unfreed (hp : process ∉ freed) (pcbs : ℕ → PCB) (p : PCB) :
    Function.update (fun q => if q ∈ freed then junk q else pcbs q) process p =
      fun q => if q ∈ freed then junk q else Function.update pcbs process p q := by
  funext q
  by_cases hq : q = process
  · subst hq
    rw [if_neg hp, Function.update_self, Function.update_self]
  · simp only [Function.update_of_ne hq]

theorem update_overwrite (hp : process ∉ freed) (p : PCB) :
    Function.update (s.overwrite freed junk).pcbs process p =
      fun q => if q ∈ freed then junk q else Function.update s.pcbs process p q :=
  update_unfreed hp s.pcbs p

theorem updateProcessRemainingTime_overwrite (hp : process ∉ freed) :
    (s.overwrite freed junk).updateProcessRemainingTime process =
      (s.updateProcessRemainingTime process).overwrite freed junk := by
  have hpcbs : (s.overwrite freed junk).pcbs process = s.pcbs process := overwrite_pcbs hp
  have hr : (s.overwrite freed junk).readings = s.readings := rfl
  simp only [updateProcessRemainingTime, hpcbs, hr]
  split
  · cases s.readings.headD none with
    | none => rfl
    | some value =>
      simp only [writePcb, hpcbs, update_overwrite hp]
      rfl
  · rfl

theorem startProcess_overwrite (hp : process ∉ freed) :
    (s.overwrite freed junk).startProcess process = (s.startProcess process).overwrite freed junk := by
  have hpcbs : (s.overwrite freed junk).pcbs process = s.pcbs process := overwrite_pcbs hp
  simp only [startProcess, hpcbs]
  split
  · rfl
  · simp only [writePcb, signalProcess, logProcessEvent, hpcbs, update_overwrite hp,
      update_unfreed hp, Function.update_self, if_neg hp]
    rfl

theorem resumeProcess_overwrite (hp : process ∉ freed) :
    (s.overwrite freed junk).resumeProcess process =
      (s.resumeProcess process).overwrite freed junk := by
  have hpcbs : (s.overwrite freed junk).pcbs process = s.pcbs process := overwrite_pcbs hp
  simp only [resumeProcess, writePcb, signalProcess, logProcessEvent, hpcbs, update_overwrite hp,
    Function.update_self, if_neg hp]
  rfl

theorem stopProcess_overwrite (hp : process ∉ freed) :
    (s.overwrite freed junk).stopProcess process = (s.stopProcess process).overwrite freed junk := by
  have hpcbs : (s.overwrite freed junk).pcbs process = s.pcbs process := overwrite_pcbs hp
  simp only [stopProcess, writePcb, signalProcess, logProcessEvent, hpcbs, update_overwrite hp,
    Function.update_self, if_neg hp]
  rfl

theorem mallocPcb_overwrite (hp : s.nextPcb ∉ freed) (pcb : PCB) :
    (s.overwrite freed junk).mallocPcb pcb =
      ((s.mallocPcb pcb).1.overwrite freed junk, (s.mallocPcb pcb).2) := by
  have hnext : (s.overwrite freed junk).nextPcb = s.nextPcb := rfl
  simp only [mallocPcb, hnext, update_overwrite hp]
  rfl

theorem preemptProcess_overwrite (hp : process ∉ freed) :
    (s.overwrite freed junk).preemptProcess process =
      (s.preemptProcess process).overwrite freed junk := by
  rw [preemptProcess, updateProcessRemainingTime_overwrite hp, stopProcess_overwrite hp,
    preemptProcess]

theorem cmp_overwrite {a b : ℕ} (ha : a ∉ freed) (hb : b ∉ freed) :
    (s.overwrite freed junk).cmp a b = s.cmp a b := by
  simp only [cmp, overwrite_pcbs ha, overwrite_pcbs hb]
  rfl

theorem requeue_overwrite (hp : process ∉ freed) (hheap : ∀ p ∈ s.readyHeap.toList, p ∉ freed) :
    (s.overwrite freed junk).requeue process = (s.requeue process).overwrite freed junk := by
  have hpcbs : (s.overwrite freed junk).pcbs process = s.pcbs process := overwrite_pcbs hp
  have hinsert : MinHeap.insertProcessMinHeap (s.overwrite freed junk).cmp s.readyHeap process =
      MinHeap.insertProcessMinHeap s.cmp s.readyHeap process :=
    MinHeap.insert_congr (fun _ _ => cmp_overwrite) hheap hp
  have halg : (s.overwrite freed junk).algorithm = s.algorithm := rfl
  have hready : (s.overwrite freed junk).readyHeap = s.readyHeap := rfl
  simp only [requeue, halg, hready, hpcbs, hinsert]
  split <;> rfl

theorem pickProcess_overwrite (hfresh : s.nextPcb ∉ freed)
    (hheap : ∀ p ∈ s.readyHeap.toList, p ∉ freed) :
    (s.overwrite freed junk).pickProcess =
      (s.pickProcess.1.overwrite freed junk, s.pickProcess.2) := by
  have hextract : MinHeap.extractMin (s.overwrite freed junk).cmp s.readyHeap =
      MinHeap.extractMin s.cmp s.readyHeap :=
    MinHeap.extractMin_congr (fun _ _ => cmp_overwrite) hheap
  have halg : (s.overwrite freed junk).algorithm = s.algorithm := rfl
  have hready : (s.overwrite freed junk).readyHeap = s.readyHeap := rfl
  have hqueue : (s.overwrite freed junk).rrQueue = s.rrQueue := rfl
  have hmalloc : ∀ q : PCBQueue,
      (({ s with rrQueue := queueDequeue q }).overwrite freed junk).mallocPcb (queueFront q) =
        ((({ s with rrQueue := queueDequeue q }).mallocPcb (queueFront q)).1.overwrite freed junk,
          s.nextPcb) := fun q =>
      mallocPcb_overwrite (s := { s with rrQueue := queueDequeue q }) hfresh _
  simp only [pickProcess, halg, hready, hqueue, hextract]
  split
  · split
    · exact congrArg (fun picked => (picked.1, some picked.2)) (hmalloc (recoverFront s.rrQueue))
    · rfl
  · rfl

/-- The process picked is a new PCB or comes out of the heap. -/
theorem pickProcess_mem (hp : s.pickProcess.2 = some process) :
    process = s.nextPcb ∨ process ∈ s.readyHeap.toList := by
  by_cases ha : s.algorithm = .RR
  · left
    simp only [pickProcess, ha] at hp
    split at hp <;> cases hp
    rfl
  · right
    rw [pickProcess_heap ha] at hp
    by_cases hne : 0 < s.readyHeap.size
    · obtain ⟨hroot, hperm⟩ := MinHeap.extractMin_perm s.cmp hne
      rw [hroot] at hp
      cases hp
      exact hperm.mem_iff.mpr List.mem_cons_self
    · rw [MinHeap.extractMin_nil (by omega)] at hp
      cases hp

theorem dispatch_overwrite (hc : ∀ p, s.currentProcess = some p → p ∉ freed) :
    (s.overwrite freed junk).dispatch = s.dispatch.overwrite freed junk := by
  have hcur : (s.overwrite freed junk).currentProcess = s.currentProcess := rfl
  cases hcp : s.currentProcess with
  | none =>
    simp only [dispatch, hcur, hcp]
  | some process =>
    have hp := hc process hcp
    simp only [dispatch, hcur, hcp, overwrite_pcbs hp]
    split
    · rfl
    · split
      · exact startProcess_overwrite hp
      · exact resumeProcess_overwrite hp

theorem switchToNext_overwrite (hfresh : s.nextPcb ∉ freed)
    (hheap : ∀ p ∈ s.readyHeap.toList, p ∉ freed) :
    (s.overwrite freed junk).switchToNext = s.switchToNext.overwrite freed junk := by
  have hpick : (s.overwrite freed junk).pickProcess =
      (s.pickProcess.1.overwrite freed junk, s.pickProcess.2) := pickProcess_overwrite hfresh hheap
  have hdispatch : (({ s.pickProcess.1 with currentProcess := s.pickProcess.2 }).overwrite freed
      junk).dispatch = s.switchToNext.overwrite freed junk := by
    refine dispatch_overwrite fun p hp => ?_
    rcases pickProcess_mem hp with rfl | hp
    · exact hfresh
    · exact hheap p hp
  rw [← hdispatch, switchToNext, hpick]
  rfl

theorem contextSwitching_overwrite (h : Clear s freed) :
    (s.overwrite freed junk).contextSwitching = s.contextSwitching.overwrite freed junk := by
  have hcur : (s.overwrite freed junk).currentProcess = s.currentProcess := rfl
  cases hcp : s.currentProcess with
  | none =>
    simp only [contextSwitching, hcur, hcp]
    exact switchToNext_overwrite h.fresh h.heap
  | some process =>
    have hp := h.current process hcp
    obtain ⟨v, v', stopped, hread, -, htouch, -⟩ := preempt_spec s process
    simp only [contextSwitching, hcur, hcp, updateProcessRemainingTime_overwrite hp,
      overwrite_pcbs hp]
    split
    · rfl
    · split
      · have hheap : ∀ q ∈ ((s.updateProcessRemainingTime process).preemptProcess
            process).readyHeap.toList, q ∉ freed := by
          rw [htouch.readyHeap]
          exact h.heap
        have hnext := (requeue_frame ((s.updateProcessRemainingTime process).preemptProcess process)
          process).2.1.trans htouch.nextPcb
        rw [preemptProcess_overwrite hp, requeue_overwrite hp hheap]
        refine switchToNext_overwrite (hnext ▸ h.fresh) fun q hq => ?_
        rcases requeue_mem hq with rfl | hq
        · exact hp
        · exact hheap q hq
      · refine switchToNext_overwrite (hread.nextPcb ▸ h.fresh) ?_
        rw [hread.readyHeap]
        exact h.heap

theorem PcbLedger.clear (hs : PcbLedger s freed) : Clear s freed := by
  have hdisj : ∀ p ∈ s.owned, p ∉ freed := fun p hp hf =>
    (List.nodup_append.mp hs.once).2.2 p hf p hp rfl
  refine ⟨fun h => ?_, fun p hp => hdisj p ?_, fun p hp => hdisj p (List.mem_append_right _ hp)⟩
  · exact Nat.lt_irrefl _ (hs.given _ (List.mem_append_left _ h))
  · rw [owned, hp]
    exact List.mem_cons_self

theorem Clear.left {more : List ℕ} (h : Clear s (freed ++ more)) : Clear s freed where
  fresh hf := h.fresh (List.mem_append_left _ hf)
  current p hp hf := h.current p hp (List.mem_append_left _ hf)
  heap p hp hf := h.heap p hp (List.mem_append_left _ hf)

theorem ready_overwrite (h : Clear s freed) : (s.overwrite freed junk).ready = s.ready :=
  ready_mono rfl rfl rfl fun p hp => overwrite_pcbs (h.heap p hp)

theorem current_overwrite (h : Clear s freed) : (s.overwrite freed junk).current = s.current := by
  have hcur : (s.overwrite freed junk).currentProcess = s.currentProcess := rfl
  rw [current, hcur, current]
  exact Option.map_congr fun p hp => overwrite_pcbs (h.current p hp)

theorem held_overwrite (h : Clear s freed) : (s.overwrite freed junk).held = s.held := by
  rw [held, ready_overwrite h, current_overwrite h, held]

theorem sound_overwrite (h : Clear s freed) (hs : Sound s) : Sound (s.overwrite freed junk) := by
  have hr : (s.overwrite freed junk).ready = s.ready := ready_overwrite h
  have hc : (s.overwrite freed junk).current = s.current := current_overwrite h
  refine ⟨⟨⟨hs.queue, hs.capacity, hs.nodup, hs.heap_lt⟩, hs.current_lt, hs.current_notMem⟩,
    ?_, ?_, ?_, ?_⟩
  · exact hr ▸ hs.ready_state
  · exact hc ▸ hs.current_state
  · exact hr ▸ hs.ready_semid
  · exact hc ▸ hs.current_semid

theorem updateCurrent_overwrite (h : Clear s freed) :
    (s.overwrite freed junk).updateCurrent = s.updateCurrent.overwrite freed junk := by
  have hcur : (s.overwrite freed junk).currentProcess = s.currentProcess := rfl
  simp only [updateCurrent, hcur]
  split
  · rfl
  · rename_i process hcp
    exact updateProcessRemainingTime_overwrite (h.current process hcp)

theorem runHPF_overwrite (h : Clear s freed) :
    (s.overwrite freed junk).runHPFAlgorithm = s.runHPFAlgorithm.overwrite freed junk := by
  have hcur : (s.overwrite freed junk).currentProcess = s.currentProcess := rfl
  have hready : (s.overwrite freed junk).readyHeap = s.readyHeap := rfl
  simp only [runHPFAlgorithm, hcur, hready]
  split
  · exact contextSwitching_overwrite h
  · rfl

theorem runSRTN_overwrite (hs : PcbLedger s freed) :
    (s.overwrite freed junk).runSRTNAlgorithm = s.runSRTNAlgorithm.overwrite freed junk := by
  have h := (pcbLedger_primitives hs (updateCurrent_primitives s)).clear
  rw [runSRTNAlgorithm, updateCurrent_overwrite hs.clear, runSRTNAlgorithm]
  generalize s.updateCurrent = u at *
  have hcur : (u.overwrite freed junk).currentProcess = u.currentProcess := rfl
  have hready : (u.overwrite freed junk).readyHeap = u.readyHeap := rfl
  have hswitch : (u.overwrite freed junk).contextSwitching =
      u.contextSwitching.overwrite freed junk := contextSwitching_overwrite h
  simp only [hcur, hready]
  by_cases hne : 0 < u.readyHeap.size
  · have hroot := h.heap _ (BinaryHeap.mem_toList.mpr ⟨0, hne, rfl⟩)
    rw [if_pos hne, if_pos hne]
    cases hcp : u.currentProcess with
    | none => exact hswitch
    | some process =>
      simp only [overwrite_pcbs (h.current process hcp), overwrite_pcbs hroot, hswitch]
      split <;> rfl
  · rw [if_neg hne, if_neg hne]

theorem runRR_overwrite (hs : PcbLedger s freed) :
    (s.overwrite freed junk).runRRAlgorithm = s.runRRAlgorithm.overwrite freed junk := by
  have hfirst : (if s.currentProcess = none ∧ 0 < s.rrQueue.size then
      (s.overwrite freed junk).contextSwitching else s.overwrite freed junk) =
      (if s.currentProcess = none ∧ 0 < s.rrQueue.size then s.contextSwitching
        else s).overwrite freed junk := by
    split
    · exact contextSwitching_overwrite hs.clear
    · rfl
  have hledger : PcbLedger (if s.currentProcess = none ∧ 0 < s.rrQueue.size then
      s.contextSwitching else s) freed := by
    split
    · exact pcbLedger_primitive hs .switch
    · exact hs
  have hcur : (s.overwrite freed junk).currentProcess = s.currentProcess := rfl
  have hqueue : (s.overwrite freed junk).rrQueue = s.rrQueue := rfl
  rw [runRRAlgorithm, hcur, hqueue, hfirst, runRRAlgorithm]
  generalize (if s.currentProcess = none ∧ 0 < s.rrQueue.size then s.contextSwitching
    else s) = t at *
  have hcur : (t.overwrite freed junk).currentProcess = t.currentProcess := rfl
  simp only [hcur]
  cases hcp : t.currentProcess with
  | none => rfl
  | some process =>
    have hread := (pcbLedger_primitive hledger (.read hcp)).clear
    simp only [updateProcessRemainingTime_overwrite (hledger.clear.current process hcp)]
    generalize t.updateProcessRemainingTime process = u at *
    by_cases hexp : u.clockValue - u.timeSliceStart ≥ u.quantum ∧ 0 < u.rrQueue.size
    · rw [if_pos hexp]
      exact (if_pos hexp).trans (contextSwitching_overwrite hread)
    · rw [if_neg hexp]
      exact if_neg hexp

theorem runAlgorithm_overwrite (hs : PcbLedger s freed) :
    (s.overwrite freed junk).runAlgorithm = s.runAlgorithm.overwrite freed junk := by
  have halg : (s.overwrite freed junk).algorithm = s.algorithm := rfl
  simp only [runAlgorithm, halg]
  split
  · exact runHPF_overwrite hs.clear
  · exact runSRTN_overwrite hs
  · exact runRR_overwrite hs

theorem storeArrival_overwrite (h : s.nextPcb ∉ freed) :
    (s.overwrite freed junk).storeArrival p = (s.storeArrival p).overwrite freed junk := by
  have hnext : (s.overwrite freed junk).nextPcb = s.nextPcb := rfl
  simp only [storeArrival, hnext, update_overwrite h]
  rfl

theorem handleProcessArrival_overwrite (h : Clear s freed) :
    (s.overwrite freed junk).handleProcessArrival p =
      (s.handleProcessArrival p).overwrite freed junk := by
  have halg : (s.overwrite freed junk).algorithm = s.algorithm := rfl
  by_cases ha : s.algorithm = .RR
  · simp only [handleProcessArrival, emit, halg, ha]
    rfl
  · rw [handleProcessArrival_heap ha, handleProcessArrival_heap (halg ▸ ha),
      storeArrival_overwrite h.fresh]
    exact requeue_overwrite h.fresh h.heap

theorem receiveMessage_overwrite (hs : PcbLedger s freed) (hsem : 0 < p.syncSemid)
    (hroom : s.algorithm = .RR ∨ s.held.length < 1024) :
    (s.overwrite freed junk).receiveMessage p = (s.receiveMessage p).overwrite freed junk := by
  have harr := pcbLedger_arrival hs hsem hroom
  have hrun : ((s.handleProcessArrival p).overwrite freed junk).preemptOnArrival =
      (s.handleProcessArrival p).preemptOnArrival.overwrite freed junk := by
    generalize s.handleProcessArrival p = t at *
    have halg : (t.overwrite freed junk).algorithm = t.algorithm := rfl
    have hcur : (t.overwrite freed junk).currentProcess = t.currentProcess := rfl
    simp only [preemptOnArrival, halg, hcur]
    split
    · exact runSRTN_overwrite harr
    · rfl
  rw [receiveMessage, handleProcessArrival_overwrite hs.clear, hrun, receiveMessage]
  generalize (s.handleProcessArrival p).preemptOnArrival = t
  have hcur : (t.overwrite freed junk).currentProcess = t.currentProcess := rfl
  simp only [forgetTick, hcur]
  split <;> rfl

theorem removeSharedMemory_overwrite (hp : process ∉ freed) :
    (s.overwrite freed junk).removeSharedMemory process =
      (s.removeSharedMemory process).overwrite freed junk := by
  have hpcbs : (s.overwrite freed junk).pcbs process = s.pcbs process := overwrite_pcbs hp
  simp only [removeSharedMemory, emit, writePcb, hpcbs, update_overwrite hp]
  split <;> rfl

theorem recordCompletion_overwrite (hp : process ∉ freed) :
    (s.overwrite freed junk).recordCompletion process =
      (s.recordCompletion process).overwrite freed junk := by
  have hpcbs : (s.overwrite freed junk).pcbs process = s.pcbs process := overwrite_pcbs hp
  simp only [recordCompletion, emit, writePcb, logProcessEvent, hpcbs, update_overwrite hp,
    Function.update_self, if_neg hp]
  rfl

theorem completeCurrent_overwrite (hs : PcbLedger s freed) :
    (s.overwrite freed junk).completeCurrent = s.completeCurrent.overwrite freed junk := by
  have hcur : (s.overwrite freed junk).currentProcess = s.currentProcess := rfl
  cases hcp : s.currentProcess with
  | none => simp only [completeCurrent, hcur, hcp]
  | some process =>
    have hp := hs.clear.current process hcp
    have hretire : (s.overwrite freed junk).retire process =
        (s.retire process).overwrite freed junk := by
      rw [retire, updateProcessRemainingTime_overwrite hp, removeSharedMemory_overwrite hp,
        recordCompletion_overwrite hp, retire]
    have hclear := (pcbLedger_retire hs hcp).clear.left
    simp only [completeCurrent, hcur, hcp, hretire]
    generalize s.retire process = t at *
    by_cases hnext : t.generatorFinished ∧ t.algorithm = .SRTN
    · rw [if_pos hnext]
      exact (if_pos hnext).trans (contextSwitching_overwrite hclear)
    · rw [if_neg hnext]
      exact if_neg hnext

theorem grantTick_overwrite (h : Clear s freed) :
    (s.overwrite freed junk).grantTick = s.grantTick.overwrite freed junk := by
  rw [grantTick_eq, grantTick_eq, current_overwrite h]
  rfl

theorem hasWork_overwrite (h : Clear s freed) : (s.overwrite freed junk).hasWork = s.hasWork := by
  rw [hasWork, ready_overwrite h, current_overwrite h, hasWork]

end Scheduler

open Scheduler

def Loop.overwrite (l : Loop) (freed : List ℕ) (junk : ℕ → PCB) : Loop :=
  { l with scheduler := l.scheduler.overwrite freed junk }

/-- A step of the loop, after which the memory that has been freed may hold anything. -/
inductive ReusingStep (h : PcbHeap) (a : LoopAct) : PcbHeap → Prop
  | intro {l : Loop} (junk : ℕ → PCB) (hstep : LoopStep h.loop a l) :
      ReusingStep h a ⟨l.overwrite (h.freed ++ h.loop.frees a) junk, h.freed ++ h.loop.frees a⟩

variable {l l' : Loop} {a : LoopAct} {freed : List ℕ} {junk : ℕ → PCB}

theorem storable_overwrite (h : Clear l.scheduler freed) (hok : Storable (l.overwrite freed junk) a) :
    Storable l a := by
  cases a with
  | receive p i =>
    obtain ⟨hsem, hroom⟩ := hok
    have hheld : (l.overwrite freed junk).scheduler.held = l.scheduler.held := held_overwrite h
    rw [hheld] at hroom
    exact ⟨hsem, hroom⟩
  | _ => trivial

/-- The loop does with overwritten memory what it does without. -/
theorem loopStep_overwrite (hs : PcbLedger l.scheduler freed) (hok : Storable l a)
    (h : LoopStep (l.overwrite freed junk) a l') :
    ∃ m, LoopStep l a m ∧ l' = m.overwrite freed junk := by
  have hfeed : ∀ i, PcbLedger (l.scheduler.feed i) freed := fun i =>
    pcbLedger_same hs (conserved_preserved.feed _ i hs.toConserved) rfl rfl rfl rfl
  have hread : ∀ i, (l.overwrite freed junk).scheduler.feed i =
      (l.scheduler.feed i).overwrite freed junk := fun _ => rfl
  cases h with
  | tick => exact ⟨_, .tick, rfl⟩
  | sigusr1 hp => exact ⟨_, .sigusr1 hp, rfl⟩
  | @sigusr2 i hp hplace =>
    have hcons := conserved_preserved.clock _ l.clock (hfeed i).toConserved
    have hledger := pcbLedger_same (hfeed i) hcons rfl rfl rfl rfl
    have hcomplete : ((l.overwrite freed junk).scheduler.feed i).handleProcessCompletion l.clock =
        ((l.scheduler.feed i).handleProcessCompletion l.clock).overwrite freed junk :=
      completeCurrent_overwrite hledger
    refine ⟨_, .sigusr2 (i := i) hp hplace, ?_⟩
    unfold Loop.complete
    exact congrArg (fun s => Loop.mk s l.point l.currentTime l.clock l.begun
      (l.owed && l.scheduler.currentProcess.isNone)) hcomplete
  | exit hp hd => exact ⟨_, .exit hp hd, rfl⟩
  | test hp hd => exact ⟨_, .test hp hd, rfl⟩
  | refused hp => exact ⟨_, .refused hp, rfl⟩
  | taken hp => exact ⟨_, .taken hp, rfl⟩
  | @receive p i hp =>
    have hreceive : ((l.overwrite freed junk).scheduler.feed i).receiveMessage p =
        ((l.scheduler.feed i).receiveMessage p).overwrite freed junk := by
      rw [hread]
      exact receiveMessage_overwrite (hfeed i) hok.1 hok.2
    refine ⟨_, .receive hp, ?_⟩
    rw [hreceive]
    rfl
  | noMessage hp =>
    have hwork : (l.overwrite freed junk).scheduler.hasWork = l.scheduler.hasWork :=
      hasWork_overwrite hs.clear
    refine ⟨_, .noMessage hp, ?_⟩
    rw [hwork]
    rfl
  | getClk hp => exact ⟨_, .getClk hp, rfl⟩
  | differs hp hne => exact ⟨_, .differs hp hne, rfl⟩
  | equals hp heq => exact ⟨_, .equals hp heq, rfl⟩
  | assign hp => exact ⟨_, .assign hp, rfl⟩
  | @runAlgorithm i hp =>
    have hrun : ((l.overwrite freed junk).scheduler.feed i).runAlgorithm =
        (l.scheduler.feed i).runAlgorithm.overwrite freed junk := by
      rw [hread]
      exact runAlgorithm_overwrite (hfeed i)
    refine ⟨_, .runAlgorithm (i := i) hp, ?_⟩
    rw [hrun]
    rfl
  | grant hp =>
    have hgrant : (l.overwrite freed junk).scheduler.grantTick =
        l.scheduler.grantTick.overwrite freed junk := grantTick_overwrite hs.clear
    refine ⟨_, .grant hp, ?_⟩
    rw [hgrant]
    rfl
  | @refresh i hp =>
    have hrefresh : ((l.overwrite freed junk).scheduler.feed i).updateCurrent =
        (l.scheduler.feed i).updateCurrent.overwrite freed junk := by
      rw [hread]
      exact updateCurrent_overwrite (hfeed i).clear
    refine ⟨_, .refresh (i := i) hp, ?_⟩
    rw [hrefresh]
    rfl
  | again hp hne => exact ⟨_, .again hp hne, rfl⟩

theorem ended_overwrite : (l.overwrite freed junk).ended a = l.ended a := by
  cases a <;> rfl

/-- What was overwritten before is overwritten again. -/
theorem overwrite_overwrite (l : Loop) (freed more : List ℕ) (junk junk' : ℕ → PCB) :
    (l.overwrite freed junk).overwrite (freed ++ more) junk' =
      l.overwrite (freed ++ more) junk' := by
  simp only [Loop.overwrite, Scheduler.overwrite]
  congr 2
  funext p
  by_cases hp : p ∈ freed
  · have hmem : p ∈ freed ++ more := List.mem_append_left more hp
    rw [if_pos hmem, if_pos hmem]
  · rw [if_neg hp]

theorem overwrite_nil (l : Loop) (junk : ℕ → PCB) : l.overwrite [] junk = l := by
  simp only [Loop.overwrite, Scheduler.overwrite, List.not_mem_nil, if_false]

/-- Two heaps whose loops differ at most in the PCBs freed. -/
structure AlikeUnfreed (h c : PcbHeap) : Prop where
  freed : h.freed = c.freed
  loop : ∃ junk, h.loop = c.loop.overwrite c.freed junk

/-- The run in which nothing is overwritten follows every other. -/
theorem reusingStep_follows {h h' c : PcbHeap} (hc : PcbLedger c.loop.scheduler c.freed)
    (hr : AlikeUnfreed h c) (hok : Storable h.loop a) (hstep : ReusingStep h a h') :
    ∃ c', Restrict (fun h a => Storable h.loop a) PcbHeapStep c a c' ∧ AlikeUnfreed h' c' := by
  obtain ⟨hfreed, junk, hloop⟩ := hr
  obtain ⟨junk', hstep⟩ := hstep
  rw [hloop] at hok hstep
  have hsound : Sound (c.loop.overwrite c.freed junk).scheduler :=
    sound_overwrite hc.clear hc.toSound
  have hclean := storable_overwrite hc.clear hok
  have hfrees : h.loop.frees a = c.loop.frees a := by
    rw [hloop, frees_eq hsound hok, ended_overwrite, frees_eq hc.toSound hclean]
  obtain ⟨m, hm, rfl⟩ := loopStep_overwrite hc hclean hstep
  refine ⟨⟨m, c.freed ++ c.loop.frees a⟩, ⟨hclean, hm, rfl⟩, ?_, junk', ?_⟩
  · rw [hfreed, hfrees]
  · rw [hfreed, hfrees, overwrite_overwrite]

/-- Whatever comes to stand in the memory that is freed, every run is the run in which nothing is
overwritten, but for what stands there. -/
theorem freed_pcbs_unread (algorithm : SchedulingAlgorithm) (quantum clk : ℤ) {as : List LoopAct}
    {h : PcbHeap} (ht : Trace (Restrict (fun h a => Storable h.loop a) ReusingStep)
      ⟨Loop.initial algorithm quantum clk, []⟩ as h) :
    ∃ c, Trace (Restrict (fun h a => Storable h.loop a) PcbHeapStep)
        ⟨Loop.initial algorithm quantum clk, []⟩ as c ∧ AlikeUnfreed h c := by
  have hledger := pcbLedger_initial algorithm quantum clk
  generalize hstart : (⟨Loop.initial algorithm quantum clk, []⟩ : PcbHeap) = start at ht ⊢
  suffices ∃ c, PcbLedger c.loop.scheduler c.freed ∧
      Trace (Restrict (fun h a => Storable h.loop a) PcbHeapStep) start as c ∧
      AlikeUnfreed h c by
    obtain ⟨c, -, hrun⟩ := this
    exact ⟨c, hrun⟩
  induction ht with
  | refl =>
    subst hstart
    exact ⟨_, hledger, .refl, rfl, fun _ => emptyFront, (overwrite_nil _ _).symm⟩
  | snoc _ hstep ih =>
    obtain ⟨c, hc, hrun, hr⟩ := ih
    obtain ⟨hok, hstep⟩ := hstep
    obtain ⟨c', hc', hr'⟩ := reusingStep_follows hc hr hok hstep
    refine ⟨c', ?_, hrun.snoc hc', hr'⟩
    rw [hc'.2.freed]
    exact pcbLedger_step hc hc'.1 hc'.2.step

/-- One step, after which `junk` stands in the memory that has been freed. -/
def PcbHeap.reuse (junk : ℕ → PCB) (h : PcbHeap) (a : LoopAct) : Option PcbHeap :=
  (h.loop.next a).map fun l =>
    ⟨l.overwrite (h.freed ++ h.loop.frees a) junk, h.freed ++ h.loop.frees a⟩

theorem reusingStep_of_reuse {h h' : PcbHeap} (hn : h.reuse junk a = some h') :
    ReusingStep h a h' := by
  obtain ⟨l, hl, rfl⟩ := Option.map_eq_some_iff.mp hn
  exact ⟨junk, loopStep_of_next hl⟩

def strayPcb (_ : ℕ) : PCB := { emptyFront with state := .terminated, remainingTime := 9 }

/-- The first process ends and is freed, and the second gets the CPU. -/
def secondProcessRun : List LoopAct :=
  [.advance {}, .downNb true,
    .receive { emptyFront with idFromFile := 1, executionTime := 1, syncSemid := 5 } {},
    .receive { emptyFront with idFromFile := 2, executionTime := 2, syncSemid := 6 } {}, .noMessage] ++
  List.replicate 6 (.advance {}) ++
  [.tick, .sigusr2 {}, .advance {}, .advance {}, .downNb true, .noMessage, .tick] ++
  List.replicate 6 (.advance {})

theorem freed_pcbs_unread_second :
    ∃ h c, (h.freed = [0] ∧ h.loop.scheduler.pcbs 0 = strayPcb 0 ∧
        h.loop.scheduler.currentProcess = some 1) ∧
      Trace (Restrict (fun h a => Storable h.loop a) PcbHeapStep) ⟨Loop.initial .HPF 0 0, []⟩
        secondProcessRun c ∧ AlikeUnfreed h c := by
  obtain ⟨h, hrun, htest⟩ := exists_trace_of_execute (fun _ _ _ => reusingStep_of_reuse)
    (show (execute (fun h a => Storable h.loop a) (PcbHeap.reuse strayPcb)
      ⟨Loop.initial .HPF 0 0, []⟩ secondProcessRun).any
      (fun h => h.freed = [0] ∧ h.loop.scheduler.pcbs 0 = strayPcb 0 ∧
        h.loop.scheduler.currentProcess = some 1) = true by decide +kernel)
  obtain ⟨c, hc⟩ := freed_pcbs_unread .HPF 0 0 hrun
  exact ⟨h, c, of_decide_eq_true htest, hc⟩

end KernelSim
