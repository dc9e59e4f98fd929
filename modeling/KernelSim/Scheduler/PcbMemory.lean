import KernelSim.Scheduler.Overhead

/-! The PCBs that `malloc` gave the scheduler, and the calls of `free`. -/
namespace KernelSim
open Runs Relation

namespace Scheduler

/-- The PCBs that `current_process` and `ready_Heap` point to. -/
def owned (s : Scheduler) : List ℕ := s.currentProcess.toList ++ s.readyHeap.toList

/-- Under RR each process stopped goes to the queue by value, and its old PCB is forgotten. -/
def forgotten (s : Scheduler) : ℕ := if s.algorithm = .RR then s.sent .stop else 0

/-- `free(current_process)` in `context_switching`, when the process chosen has no semaphore. -/
def dispatchFrees (s : Scheduler) : List ℕ :=
  match s.currentProcess with
  | none => []
  | some process => if (s.pcbs process).syncSemid ≤ 0 then [process] else []

def switchToNextFrees (s : Scheduler) : List ℕ :=
  let (s, newProcess) := s.pickProcess
  ({ s with currentProcess := newProcess }).dispatchFrees

/-- What `context_switching` gives to `free`. -/
def contextSwitchingFrees (s : Scheduler) : List ℕ :=
  match s.currentProcess with
  | none => s.switchToNextFrees
  | some process =>
    let s := s.updateProcessRemainingTime process
    if (s.pcbs process).remainingTime = 0 then []
    else if (s.pcbs process).state ≠ .terminated then
      ((s.preemptProcess process).requeue process).switchToNextFrees
    else s.switchToNextFrees

def runRRFrees (s : Scheduler) : List ℕ :=
  (if s.currentProcess = none ∧ 0 < s.rrQueue.size then s.contextSwitchingFrees else []) ++
    let s := if s.currentProcess = none ∧ 0 < s.rrQueue.size then s.contextSwitching else s
    match s.currentProcess with
    | none => []
    | some process =>
      let s := s.updateProcessRemainingTime process
      if s.clockValue - s.timeSliceStart ≥ s.quantum ∧ 0 < s.rrQueue.size then
        s.contextSwitchingFrees
      else []

def runSRTNFrees (s : Scheduler) : List ℕ :=
  let s := s.updateCurrent
  if 0 < s.readyHeap.size then
    let shortest := s.readyHeap.processes 0
    match s.currentProcess with
    | none => s.contextSwitchingFrees
    | some process =>
      if (s.pcbs process).remainingTime > (s.pcbs shortest).remainingTime then
        s.contextSwitchingFrees
      else []
  else []

def runHPFFrees (s : Scheduler) : List ℕ :=
  if s.currentProcess = none ∧ 0 < s.readyHeap.size then s.contextSwitchingFrees else []

def runAlgorithmFrees (s : Scheduler) : List ℕ :=
  match s.algorithm with
  | .HPF => s.runHPFFrees
  | .SRTN => s.runSRTNFrees
  | .RR => s.runRRFrees

def preemptOnArrivalFrees (s : Scheduler) : List ℕ :=
  if s.algorithm = .SRTN ∧ s.currentProcess ≠ none then s.runSRTNFrees else []

/-- What `handle_process_completion` gives to `free`. -/
def completeCurrentFrees (s : Scheduler) : List ℕ :=
  match s.currentProcess with
  | none => []
  | some process =>
    let t := s.retire process
    process :: if t.generatorFinished ∧ t.algorithm = .SRTN then t.contextSwitchingFrees else []

end Scheduler

/-- What a step gives to `free`. -/
def Loop.frees (l : Loop) : LoopAct → List ℕ
  | .receive p i => ((l.scheduler.feed i).handleProcessArrival p).preemptOnArrivalFrees
  | .sigusr2 i => ({ l.scheduler.feed i with clockValue := l.clock }).completeCurrentFrees
  | .advance i => if l.point = .runAlgorithm then (l.scheduler.feed i).runAlgorithmFrees else []
  | _ => []

namespace Scheduler

/-- Each PCB that `malloc` gave is owned or has been freed, once, but for those forgotten; and one
is freed for each process that has ended. -/
structure PcbsAccounted (s : Scheduler) (freed : List ℕ) : Prop where
  once : (freed ++ s.owned).Nodup
  given : ∀ p ∈ freed ++ s.owned, p < s.nextPcb
  count : s.nextPcb = (freed ++ s.owned).length + s.forgotten
  ended : freed.length = s.finishedProcesses

structure PcbLedger (s : Scheduler) (freed : List ℕ) : Prop extends
  Conserved s, PcbsAccounted s freed

/-- What a reading or a context switch does with the pointers. -/
inductive Rehouses (s s' : Scheduler) : Prop
  | kept (ho : s'.owned.Perm s.owned) (hn : s'.nextPcb = s.nextPcb)
      (hf : s'.forgotten = s.forgotten)
  | fresh (ho : s'.owned.Perm (s.nextPcb :: s.owned)) (hn : s'.nextPcb = s.nextPcb + 1)
      (hf : s'.forgotten = s.forgotten)
  | moved (p : ℕ) (rest : List ℕ) (ho : s.owned.Perm (p :: rest))
      (ho' : s'.owned.Perm (s.nextPcb :: rest)) (hn : s'.nextPcb = s.nextPcb + 1)
      (hf : s'.forgotten = s.forgotten + 1)

variable {s s' t : Scheduler} {freed : List ℕ} {p : PCB} {process : ℕ}

theorem pcbLedger_rehouses (hs : PcbLedger s freed) (hcons : Conserved s')
    (hfin : s'.finishedProcesses = s.finishedProcesses) (h : Rehouses s s') :
    PcbLedger s' freed := by
  have hfresh : s.nextPcb ∉ freed ++ s.owned := fun h => Nat.lt_irrefl _ (hs.given _ h)
  have honce := hs.once
  have hgiven := hs.given
  have hcount := hs.count
  have hended : freed.length = s'.finishedProcesses := hs.ended.trans hfin.symm
  have hnew : ∀ {rest : List ℕ}, (∀ q ∈ freed ++ rest, q ∈ freed ++ s.owned) →
      (freed ++ rest).Nodup → s'.owned.Perm (s.nextPcb :: rest) → s'.nextPcb = s.nextPcb + 1 →
      (freed ++ s'.owned).Nodup ∧ ∀ q ∈ freed ++ s'.owned, q < s'.nextPcb := by
    intro rest hsub hnodup ho hn
    have hperm : (freed ++ s'.owned).Perm (s.nextPcb :: (freed ++ rest)) :=
      (ho.append_left freed).trans List.perm_middle
    refine ⟨hperm.nodup_iff.mpr (List.nodup_cons.mpr ⟨fun h => hfresh (hsub _ h), hnodup⟩), ?_⟩
    intro q hq
    rcases List.mem_cons.mp (hperm.mem_iff.mp hq) with rfl | hq
    · omega
    · have := hgiven q (hsub q hq)
      omega
  cases h with
  | kept ho hn hf =>
    have hperm := ho.append_left freed
    refine ⟨hcons, hperm.nodup_iff.mpr honce, ?_, ?_, hended⟩
    · intro q hq
      rw [hn]
      exact hgiven q (hperm.mem_iff.mp hq)
    · rw [hn, hf, hperm.length_eq, hcount]
  | fresh ho hn hf =>
    obtain ⟨hnodup, hlt⟩ := hnew (fun _ h => h) honce ho hn
    refine ⟨hcons, hnodup, hlt, ?_, hended⟩
    rw [hn, hf, (ho.append_left freed).length_eq]
    simp only [List.length_append, List.length_cons] at hcount ⊢
    omega
  | moved p rest ho ho' hn hf =>
    have hperm : (freed ++ s.owned).Perm (p :: (freed ++ rest)) :=
      (ho.append_left freed).trans List.perm_middle
    obtain ⟨hnodup, hlt⟩ := hnew (fun q hq => hperm.mem_iff.mpr (.tail _ hq))
      (List.nodup_cons.mp (hperm.nodup_iff.mp honce)).2 ho' hn
    refine ⟨hcons, hnodup, hlt, ?_, hended⟩
    rw [hn, hf, (ho'.append_left freed).length_eq]
    rw [(ho.append_left freed).length_eq] at hcount
    simp only [List.length_append, List.length_cons] at hcount ⊢
    omega

theorem forgotten_of (ha : s'.algorithm = s.algorithm) (hsent : s'.sent .stop = s.sent .stop) :
    s'.forgotten = s.forgotten := by
  rw [forgotten, ha, hsent, forgotten]

theorem Touches.owned (h : Touches s s' process p) : s'.owned = s.owned := by
  rw [Scheduler.owned, h.currentProcess, h.readyHeap, Scheduler.owned]

theorem switchToNext_sent (hs : Stored s) (hsem : ∀ p ∈ s.ready, 0 < p.syncSemid) :
    s.switchToNext.sent .stop = s.sent .stop := by
  obtain ⟨-, -, ⟨-, -, -, ht⟩ | ⟨q, b, -, -, ht⟩⟩ := switchToNext_spec hs hsem
  · rw [sent, ht, sent]
  · rw [sent_append ht, (sends_contEffects _ _ _ _).2.1, Nat.add_zero]

/-- The pointers after `context_switching` has taken the next process out of the heap. -/
theorem switchToNext_heap (hsem : ∀ p ∈ s.ready, 0 < p.syncSemid)
    (ha : s.algorithm ≠ .RR) :
    s.switchToNext.owned.Perm s.readyHeap.toList ∧ s.switchToNext.nextPcb = s.nextPcb := by
  have hswitch : s.switchToNext =
      ({ s.pickProcess.1 with currentProcess := s.pickProcess.2 }).dispatch := rfl
  rw [hswitch, pickProcess_heap ha]
  by_cases hne : 0 < s.readyHeap.size
  · obtain ⟨hroot, hperm⟩ := MinHeap.extractMin_perm s.cmp hne
    have hmem := root_mem ha hne
    have htouch := (dispatch_signals (s := { s with
      readyHeap := (MinHeap.extractMin s.cmp s.readyHeap).2
      currentProcess := some (s.readyHeap.processes 0) }) rfl (hsem _ hmem)).1.toTouches
    rw [hroot]
    exact ⟨htouch.owned ▸ hperm.symm, htouch.nextPcb⟩
  · rw [MinHeap.extractMin_nil (by omega)]
    exact ⟨.refl _, rfl⟩

/-- In round robin the next process gets a PCB of its own. -/
theorem switchToNext_queue (hs : Stored s) (hsem : ∀ p ∈ s.ready, 0 < p.syncSemid)
    (ha : s.algorithm = .RR) :
    s.ready = [] ∧ s.switchToNext.owned = s.readyHeap.toList ∧
        s.switchToNext.nextPcb = s.nextPcb ∨
      s.switchToNext.owned = s.nextPcb :: s.readyHeap.toList ∧
        s.switchToNext.nextPcb = s.nextPcb + 1 := by
  have hswitch : s.switchToNext =
      ({ s.pickProcess.1 with currentProcess := s.pickProcess.2 }).dispatch := rfl
  by_cases hne : 0 < s.rrQueue.size
  · right
    have hpick := pickProcess_RR hs hsem ha hne
    have hfront := pickProcess_front hs hsem ha (congrArg Prod.snd hpick)
    rw [hpick] at hfront
    rw [hswitch, hpick]
    have hmem : Function.update s.pcbs s.nextPcb (queueFront s.rrQueue) s.nextPcb ∈ s.ready :=
      hfront ▸ List.mem_cons_self
    have htouch := (dispatch_signals (s := { s with
      rrQueue := queueDequeue s.rrQueue
      pcbs := Function.update s.pcbs s.nextPcb (queueFront s.rrQueue)
      nextPcb := s.nextPcb + 1
      currentProcess := some s.nextPcb }) rfl (hsem _ hmem)).1.toTouches
    exact ⟨htouch.owned, htouch.nextPcb⟩
  · left
    have hpick : s.pickProcess = (s, none) := by
      simp only [pickProcess, ha, hne, if_false]
    have hnil : s.ready = [] := by
      rw [ready_RR ha, RingBuffer.Ring.toList_eq_nil]
      omega
    rw [hswitch, hpick]
    exact ⟨hnil, rfl, rfl⟩

theorem Conserved.heapRoom (hs : Conserved s) (ha : s.algorithm ≠ .RR) (hc : s.current = some p) :
    s.readyHeap.size < s.readyHeap.capacity := by
  have hroom := hs.room.resolve_left ha
  rw [held_some hc, List.length_cons, ready_heap ha, List.length_map, MinHeap.length_toList] at hroom
  rw [hs.capacity]
  omega

theorem requeue_heap (ha : s.algorithm ≠ .RR) (hroom : s.readyHeap.size < s.readyHeap.capacity) :
    (s.requeue process).readyHeap.toList.Perm (process :: s.readyHeap.toList) := by
  have heq : (s.requeue process).readyHeap =
      MinHeap.insertProcessMinHeap s.cmp s.readyHeap process := by
    unfold requeue
    split
    · contradiction
    · rfl
  rw [heq]
  exact (MinHeap.insert_perm s.cmp process hroom).trans (List.perm_append_singleton _ _)

theorem contextSwitching_rehouses (hs : Conserved s) : Rehouses s s.contextSwitching := by
  have halg := (contextSwitching_spec hs.toSound).1.algorithm
  cases hcp : s.currentProcess with
  | none =>
    have howned : s.owned = s.readyHeap.toList := by
      rw [owned, hcp]
      rfl
    have hsent := switchToNext_sent hs.toStored hs.ready_semid
    rw [contextSwitching_none hcp] at halg ⊢
    by_cases ha : s.algorithm = .RR
    · rcases switchToNext_queue hs.toStored hs.ready_semid ha with ⟨-, ho, hn⟩ | ⟨ho, hn⟩
      · exact .kept (.of_eq (ho.trans howned.symm)) hn (forgotten_of halg hsent)
      · exact .fresh (.of_eq (by rw [ho, howned])) hn (forgotten_of halg hsent)
    · obtain ⟨ho, hn⟩ := switchToNext_heap hs.ready_semid ha
      exact .kept (howned ▸ ho) hn (forgotten_of halg hsent)
  | some process =>
    have hc := current_some hcp
    have hfresh := hs.current_notMem _ hcp
    have howned : s.owned = process :: s.readyHeap.toList := by
      rw [owned, hcp]
      rfl
    rw [contextSwitching_some hs.toSound hcp] at halg ⊢
    obtain ⟨v, v', stopped, hread, hrt, htouch, htr, -⟩ := preempt_spec s process
    generalize s.updateProcessRemainingTime process = u at *
    split
    · rename_i hzero
      rw [if_pos hzero] at halg
      exact .kept (.of_eq hread.owned) hread.nextPcb
        (forgotten_of halg (by rw [sent, hrt, sent]))
    · rename_i hne
      rw [if_neg hne] at halg
      have hready := htouch.ready hfresh
      obtain ⟨hstored, hlt, hfresh'⟩ := htouch.insertable hs.toAllocated hcp
      obtain ⟨hqb, hqs, hqt, hqne, hsub, -⟩ := requeue_spec hstored hlt hfresh'
      have hsem : ∀ p ∈ ((u.preemptProcess process).requeue process).ready, 0 < p.syncSemid := by
        intro p hp
        rcases List.mem_cons.mp (hsub.subset hp) with rfl | hp
        · rw [htouch.pcb]
          exact hs.current_semid (s.pcbs process) hc
        · exact hs.ready_semid p (hready ▸ hp)
      have hnext : ((u.preemptProcess process).requeue process).nextPcb = s.nextPcb :=
        (requeue_frame _ _).2.1.trans htouch.nextPcb
      have hsent := switchToNext_sent hqs hsem
      have hstop : ((u.preemptProcess process).requeue process).sent .stop = s.sent .stop + 1 := by
        rw [sent, hqt, ← sent, sent_append htr, (sends_stopEffects _ _ _).2.1]
      have halg' : ((u.preemptProcess process).requeue process).algorithm = s.algorithm :=
        hqb.algorithm.trans htouch.algorithm
      by_cases ha : s.algorithm = .RR
      · have hheap : ((u.preemptProcess process).requeue process).readyHeap = s.readyHeap := by
          rw [← htouch.readyHeap]
          simp only [requeue, htouch.algorithm, ha]
        rcases switchToNext_queue hqs hsem (halg'.trans ha) with ⟨hnil, -⟩ | ⟨ho, hn⟩
        · exact absurd hnil hqne
        · rw [hheap, hnext] at ho
          rw [hnext] at hn
          refine .moved process _ (.of_eq howned) (.of_eq ho) hn ?_
          rw [forgotten, halg, if_pos ha, hsent, hstop, forgotten, if_pos ha]
      · have hroom := hs.heapRoom ha hc
        rw [← htouch.readyHeap] at hroom
        have hperm : ((u.preemptProcess process).requeue process).readyHeap.toList.Perm
            (process :: (u.preemptProcess process).readyHeap.toList) :=
          requeue_heap (by rwa [htouch.algorithm]) hroom
        obtain ⟨ho, hn⟩ := switchToNext_heap hsem (by rwa [halg'])
        refine .kept ?_ (hn.trans hnext) ?_
        · rw [howned, ← htouch.readyHeap]
          exact ho.trans hperm
        · rw [forgotten, halg, if_neg ha, forgotten, if_neg ha]

theorem pcbLedger_primitive (hs : PcbLedger s freed) (h : Primitive s s') : PcbLedger s' freed := by
  have hmove := primitive_move hs.toSound h
  have hcons := conserved_move hs.toConserved hmove
  refine pcbLedger_rehouses hs hcons hmove.books.finishedProcesses ?_
  cases h with
  | @read process hcp =>
    obtain ⟨v, htouch, ht, -⟩ := updateProcessRemainingTime_spec s process
    exact .kept (.of_eq htouch.owned) htouch.nextPcb
      (forgotten_of htouch.algorithm (by rw [sent, ht, sent]))
  | switch => exact contextSwitching_rehouses hs.toConserved

theorem pcbLedger_primitives (hs : PcbLedger s freed) (h : ReflTransGen Primitive s s') :
    PcbLedger s' freed := by
  induction h with
  | refl => exact hs
  | tail _ hp ih => exact pcbLedger_primitive ih hp

/-- What keeps the pointers keeps the ledger. -/
theorem pcbLedger_same (hs : PcbLedger s freed) (hcons : Conserved s') (ho : s'.owned = s.owned)
    (hn : s'.nextPcb = s.nextPcb) (hf : s'.forgotten = s.forgotten)
    (hfin : s'.finishedProcesses = s.finishedProcesses) : PcbLedger s' freed :=
  pcbLedger_rehouses hs hcons hfin (.kept (.of_eq ho) hn hf)

/-- The PCB of a process that has ended is freed. -/
theorem pcbLedger_retire (hs : PcbLedger s freed) (hcp : s.currentProcess = some process) :
    PcbLedger (s.retire process) (freed ++ [process]) := by
  obtain ⟨value, -, hb, hnone, -, ht⟩ := retire_spec hs.toSound hcp
  obtain ⟨v, hread, -, -⟩ := updateProcessRemainingTime_spec s process
  obtain ⟨hremove, -⟩ := removeSharedMemory_spec (s.updateProcessRemainingTime process) process
  have hnext : (s.retire process).nextPcb = s.nextPcb := hremove.nextPcb.trans hread.nextPcb
  have hall : (freed ++ [process]) ++ (s.retire process).owned = freed ++ s.owned := by
    rw [owned, hnone, (retire_heap s process).2.1, owned, hcp, List.append_assoc]
    rfl
  have hf : (s.retire process).forgotten = s.forgotten := by
    refine forgotten_of hb.algorithm ?_
    rw [sent_append ht, (sends_retireEffects _ _ _ _ _).1, Nat.add_zero]
  refine ⟨conserved_retire hs.toConserved hcp, hall ▸ hs.once, ?_, ?_, ?_⟩
  · rw [hall, hnext]
    exact hs.given
  · rw [hall, hnext, hf]
    exact hs.count
  · rw [hb.finishedProcesses, List.length_append, hs.ended]
    rfl

theorem pcbLedger_arrival (hs : PcbLedger s freed) (hsem : 0 < p.syncSemid)
    (hroom : s.algorithm = .RR ∨ s.held.length < 1024) :
    PcbLedger (s.handleProcessArrival p) freed := by
  obtain ⟨-, hb, -, -, -, ht⟩ := handleProcessArrival_spec hs.toSound hsem
  have hf := forgotten_of hb.algorithm (sent_append ht)
  have hcons := conserved_arrival hs.toConserved hsem hroom
  refine pcbLedger_rehouses hs hcons hb.finishedProcesses ?_
  by_cases ha : s.algorithm = .RR
  · have hqueue : (s.handleProcessArrival p).owned = s.owned ∧
        (s.handleProcessArrival p).nextPcb = s.nextPcb := by
      unfold handleProcessArrival
      simp only [ha]
      exact ⟨rfl, rfl⟩
    exact .kept (.of_eq hqueue.1) hqueue.2 hf
  · have hlen : s.readyHeap.size ≤ s.held.length := by
      rw [held, ready_heap ha, List.length_append, List.length_map, MinHeap.length_toList]
      omega
    have hsize : s.readyHeap.size < s.readyHeap.capacity := by
      have := hroom.resolve_left ha
      rw [hs.capacity]
      omega
    have hheap : ((s.storeArrival p).requeue s.nextPcb).readyHeap.toList.Perm
        (s.nextPcb :: s.readyHeap.toList) := requeue_heap (s := s.storeArrival p) ha hsize
    obtain ⟨-, hnext, hcur⟩ := requeue_frame (s.storeArrival p) s.nextPcb
    rw [handleProcessArrival_heap ha] at hf ⊢
    refine .fresh ?_ hnext hf
    rw [owned, hcur]
    exact (hheap.append_left _).trans List.perm_middle

/-! With a semaphore for every process, a context switch frees nothing. -/

theorem switchToNextFrees_nil (hs : Stored s) (hsem : ∀ p ∈ s.ready, 0 < p.syncSemid) :
    s.switchToNextFrees = [] := by
  obtain ⟨-, -, -, hpick⟩ := pickProcess_spec hs hsem
  unfold switchToNextFrees
  generalize s.pickProcess = picked at *
  obtain ⟨t, newProcess⟩ := picked
  rcases hpick with ⟨-, -, rfl⟩ | ⟨process, rfl, -, -, hperm⟩
  · rfl
  · have hpos := hsem _ (hperm.mem_iff.mpr List.mem_cons_self)
    exact if_neg (not_le.mpr hpos)

theorem contextSwitchingFrees_nil (hs : Sound s) : s.contextSwitchingFrees = [] := by
  cases hcp : s.currentProcess with
  | none =>
    simp only [contextSwitchingFrees, hcp]
    exact switchToNextFrees_nil hs.toStored hs.ready_semid
  | some process =>
    have hc := current_some hcp
    obtain ⟨v, v', stopped, hread, -, htouch, -⟩ := preempt_spec s process
    have hstate : ((s.updateProcessRemainingTime process).pcbs process).state ≠ .terminated := by
      have hrun := hs.current_state _ hc
      rw [hread.pcb]
      simp [hrun]
    simp only [contextSwitchingFrees, hcp, if_pos hstate]
    split
    · rfl
    · have hready := htouch.ready (hs.current_notMem _ hcp)
      obtain ⟨hstored, hlt, hfresh⟩ := htouch.insertable hs.toAllocated hcp
      obtain ⟨-, hqs, -, -, hsub, -⟩ := requeue_spec hstored hlt hfresh
      refine switchToNextFrees_nil hqs fun p hp => ?_
      rcases List.mem_cons.mp (hsub.subset hp) with rfl | hp
      · rw [htouch.pcb]
        exact hs.current_semid (s.pcbs process) hc
      · exact hs.ready_semid p (hready ▸ hp)

theorem runSRTNFrees_nil (hs : Sound s) : s.runSRTNFrees = [] := by
  have hswitch := contextSwitchingFrees_nil (moves_sound hs (updateCurrent_moves hs))
  unfold runSRTNFrees
  dsimp only
  split
  · split
    · exact hswitch
    · split
      · exact hswitch
      · rfl
  · rfl

theorem runRRFrees_nil (hs : Sound s) : s.runRRFrees = [] := by
  have hfirst : Sound
      (if s.currentProcess = none ∧ 0 < s.rrQueue.size then s.contextSwitching else s) := by
    split
    · exact (contextSwitching_move hs).sound
    · exact hs
  unfold runRRFrees
  rw [contextSwitchingFrees_nil hs, ite_self, List.nil_append]
  dsimp only
  generalize (if s.currentProcess = none ∧ 0 < s.rrQueue.size then s.contextSwitching
    else s) = t at *
  split
  · rfl
  · rename_i process hcp
    split
    · exact contextSwitchingFrees_nil (reread_move hfirst hcp).sound
    · rfl

theorem runAlgorithmFrees_nil (hs : Sound s) : s.runAlgorithmFrees = [] := by
  have hswitch := contextSwitchingFrees_nil hs
  unfold runAlgorithmFrees
  split
  · unfold runHPFFrees
    rw [hswitch, ite_self]
  · exact runSRTNFrees_nil hs
  · exact runRRFrees_nil hs

theorem completeCurrentFrees_eq (hs : Sound s) :
    s.completeCurrentFrees = s.currentProcess.toList := by
  unfold completeCurrentFrees
  split
  · rename_i hcp
    rw [hcp]
    rfl
  · rename_i process hcp
    obtain ⟨_, hsound, -⟩ := retire_spec hs hcp
    have hswitch := contextSwitchingFrees_nil hsound
    simp only [hswitch, ite_self, hcp, Option.toList_some]

theorem preemptOnArrivalFrees_nil (hs : Sound s) : s.preemptOnArrivalFrees = [] := by
  unfold preemptOnArrivalFrees
  rw [runSRTNFrees_nil hs, ite_self]

theorem pcbLedger_receiveMessage (hs : PcbLedger s freed) (hsem : 0 < p.syncSemid)
    (hroom : s.algorithm = .RR ∨ s.held.length < 1024) : PcbLedger (s.receiveMessage p) freed := by
  have harr := pcbLedger_arrival hs hsem hroom
  have hrun : PcbLedger (s.handleProcessArrival p).preemptOnArrival freed := by
    unfold preemptOnArrival
    split
    · exact pcbLedger_primitives harr (runSRTN_primitives _)
    · exact harr
  obtain ⟨clk, heq⟩ := receiveMessage_eq s p
  rw [heq]
  exact pcbLedger_same hrun (conserved_preserved.clock _ clk hrun.toConserved) rfl rfl rfl rfl

theorem pcbLedger_completeCurrent (hs : PcbLedger s freed) :
    PcbLedger s.completeCurrent (freed ++ s.currentProcess.toList) := by
  cases hcp : s.currentProcess with
  | none =>
    rw [completeCurrent_none hcp, Option.toList_none, List.append_nil]
    exact hs
  | some process =>
    have hret := pcbLedger_retire hs hcp
    rcases completeCurrent_some hcp with heq | heq
    · rw [heq]
      exact hret
    · rw [heq]
      exact pcbLedger_primitive hret .switch

end Scheduler

open Scheduler

/-- Messages of processes with a semaphore, while there is room for them. -/
def Storable (l : Loop) : LoopAct → Prop
  | .receive p _ =>
    0 < p.syncSemid ∧ (l.scheduler.algorithm = .RR ∨ l.scheduler.held.length < 1024)
  | _ => True

instance : ∀ l a, Decidable (Storable l a)
  | l, .receive p _ => inferInstanceAs (Decidable (0 < p.syncSemid ∧
      (l.scheduler.algorithm = .RR ∨ l.scheduler.held.length < 1024)))
  | _, .tick => isTrue trivial
  | _, .sigusr1 => isTrue trivial
  | _, .sigusr2 _ => isTrue trivial
  | _, .downNb _ => isTrue trivial
  | _, .noMessage => isTrue trivial
  | _, .advance _ => isTrue trivial

/-- The PCB of the process that an action ends. -/
def Loop.ended (l : Loop) : LoopAct → List ℕ
  | .sigusr2 _ => l.scheduler.currentProcess.toList
  | _ => []

variable {l l' : Loop} {a : LoopAct} {freed : List ℕ}

/-- Only the end of a process frees anything: its PCB. -/
theorem frees_eq (hs : Sound l.scheduler) (hok : Storable l a) : l.frees a = l.ended a := by
  cases a with
  | tick | sigusr1 | downNb | noMessage => rfl
  | receive p i =>
    have harr := (handleProcessArrival_spec (hs.feed i) hok.1).1
    exact preemptOnArrivalFrees_nil harr
  | sigusr2 i =>
    have hclk : Sound { l.scheduler.feed i with clockValue := l.clock } :=
      (hs.feed i).withClock l.clock
    exact completeCurrentFrees_eq hclk
  | advance i =>
    rw [Loop.frees, runAlgorithmFrees_nil (hs.feed i), ite_self]
    rfl

theorem pcbLedger_step (hs : PcbLedger l.scheduler freed) (hok : Storable l a) (h : LoopStep l a l') :
    PcbLedger l'.scheduler (freed ++ l.frees a) := by
  have hfeed : ∀ i, PcbLedger (l.scheduler.feed i) freed := fun i =>
    pcbLedger_same hs (conserved_preserved.feed _ i hs.toConserved) rfl rfl rfl rfl
  have hnone : ∀ {s}, PcbLedger s freed → PcbLedger s (freed ++ []) := fun h =>
    (List.append_nil freed).symm ▸ h
  rw [frees_eq hs.toSound hok]
  cases h with
  | tick | taken | refused | noMessage | exit | test | getClk | differs | equals | again =>
    exact hnone hs
  | sigusr1 hp =>
    have hcons := conserved_preserved.generator _ hs.toConserved
    exact hnone (pcbLedger_same hs hcons rfl rfl rfl rfl)
  | @sigusr2 i hp =>
    have hcons := conserved_preserved.clock _ l.clock (hfeed i).toConserved
    exact pcbLedger_completeCurrent (pcbLedger_same (hfeed i) hcons rfl rfl rfl rfl)
  | @receive p i hp => exact hnone (pcbLedger_receiveMessage (hfeed i) hok.1 hok.2)
  | @runAlgorithm i hp =>
    exact hnone (pcbLedger_primitives (hfeed i) (runAlgorithm_primitives _))
  | assign hp =>
    have hcons := conserved_preserved.clock _ l.currentTime hs.toConserved
    exact hnone (pcbLedger_same hs hcons rfl rfl rfl rfl)
  | grant hp =>
    have hcons := conserved_preserved.grant _ hs.toConserved
    have hb := grantTick_books l.scheduler
    have hsent : l.scheduler.grantTick.sent .stop = l.scheduler.sent .stop := by
      rw [grantTick_eq, sent_append rfl]
      cases l.scheduler.current <;> rfl
    refine hnone (pcbLedger_same hs hcons ?_ ?_ (forgotten_of hb.algorithm hsent)
      hb.finishedProcesses)
    · rw [grantTick_eq]
      rfl
    · rw [grantTick_eq]
  | @refresh i hp => exact hnone (pcbLedger_primitives (hfeed i) (updateCurrent_primitives _))

/-- The loop, and the PCBs that have been freed. -/
structure PcbHeap where
  loop : Loop
  freed : List ℕ

structure PcbHeapStep (h : PcbHeap) (a : LoopAct) (h' : PcbHeap) : Prop where
  step : LoopStep h.loop a h'.loop
  freed : h'.freed = h.freed ++ h.loop.frees a

theorem pcbLedger_initial (algorithm : SchedulingAlgorithm) (quantum clk : ℤ) :
    PcbLedger (initial algorithm quantum clk) [] := by
  have howned : (initial algorithm quantum clk).owned = [] := rfl
  refine ⟨conserved_initial algorithm quantum clk, ?_, ?_, ?_, rfl⟩
  · rw [howned]
    exact .nil
  · rw [howned]
    exact fun p hp => absurd hp List.not_mem_nil
  · cases algorithm <;> rfl

/-- No run frees a PCB twice or keeps a pointer to one that has been freed, and only round robin
forgets any: one for each process it stops. -/
theorem pcbs_accounted (algorithm : SchedulingAlgorithm) (quantum clk : ℤ) (as : List LoopAct) :
    Always (Restrict (fun h a => Storable h.loop a) PcbHeapStep)
      ⟨Loop.initial algorithm quantum clk, []⟩ as
      fun h => PcbsAccounted h.loop.scheduler h.freed := by
  intro pre h _ ht
  have hinv := ht.invariant (P := fun h => PcbLedger h.loop.scheduler h.freed) ?_
    (pcbLedger_initial algorithm quantum clk)
  · exact hinv.toPcbsAccounted
  · rintro h a h' hs ⟨hok, hstep, hfreed⟩
    rw [hfreed]
    exact pcbLedger_step hs hok hstep

def PcbHeap.next (h : PcbHeap) (a : LoopAct) : Option PcbHeap :=
  (h.loop.next a).map fun l => ⟨l, h.freed ++ h.loop.frees a⟩

theorem pcbHeapStep_of_next {h h' : PcbHeap} (hn : h.next a = some h') : PcbHeapStep h a h' := by
  obtain ⟨l, hl, rfl⟩ := Option.map_eq_some_iff.mp hn
  exact ⟨loopStep_of_next hl, rfl⟩

/-- The first process is stopped for the second, which then ends. -/
def forgottenRun : List LoopAct :=
  [.advance {}, .downNb true,
    .receive { emptyFront with idFromFile := 1, executionTime := 3, syncSemid := 5 } {},
    .receive { emptyFront with idFromFile := 2, executionTime := 1, syncSemid := 6 } {},
    .noMessage] ++
  List.replicate 6 (.advance {}) ++
  [.tick, .advance {}, .advance {}, .downNb true, .noMessage] ++ List.replicate 3 (.advance {}) ++
  [.advance ⟨[some 2], []⟩, .advance {}, .advance {}, .tick, .sigusr2 ⟨[some 0], []⟩]

theorem pcbs_accounted_forgotten :
    ∃ h, (h.loop.scheduler.nextPcb = 2 ∧ h.freed = [1] ∧ h.loop.scheduler.forgotten = 1) ∧
      Trace (Restrict (fun h a => Storable h.loop a) PcbHeapStep) ⟨Loop.initial .RR 1 0, []⟩
        forgottenRun h ∧ PcbsAccounted h.loop.scheduler h.freed := by
  obtain ⟨h, hrun, htest⟩ := exists_trace_of_execute (fun _ _ _ => pcbHeapStep_of_next)
    (show (execute (fun h a => Storable h.loop a) PcbHeap.next ⟨Loop.initial .RR 1 0, []⟩
      forgottenRun).any (fun h => h.loop.scheduler.nextPcb = 2 ∧ h.freed = [1] ∧
        h.loop.scheduler.forgotten = 1) = true by decide +kernel)
  exact ⟨h, of_decide_eq_true htest, hrun, pcbs_accounted .RR 1 0 _ _ h (List.prefix_refl _) hrun⟩

end KernelSim
