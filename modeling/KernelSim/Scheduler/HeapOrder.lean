import KernelSim.Scheduler.Moves

/-! The heap is ordered by the field that its comparator reads, through the PCBs as they are now. -/
namespace KernelSim
open BinaryHeap

/-- What the comparator that `main` gives to `create_min_heap` compares. -/
def SchedulingAlgorithm.key : SchedulingAlgorithm → PCB → ℤ
  | .HPF, p => p.priority
  | _, p => p.remainingTime

/-- That comparator. -/
def SchedulingAlgorithm.comparator : SchedulingAlgorithm → PCB → PCB → ℤ
  | .HPF => comparePriority
  | _ => compareRemainingTime

/-- Two such keys have a difference that does not overflow. -/
def SchedulingAlgorithm.InRange (algorithm : SchedulingAlgorithm) (p : PCB) : Prop :=
  0 ≤ algorithm.key p ∧ algorithm.key p < 2 ^ 31

theorem comparator_lt {algorithm : SchedulingAlgorithm} {p q : PCB} (hp : algorithm.InRange p)
    (hq : algorithm.InRange q) :
    algorithm.comparator p q < 0 ↔ algorithm.key p < algorithm.key q := by
  obtain ⟨hp0, hp1⟩ := hp
  obtain ⟨hq0, hq1⟩ := hq
  have heq : algorithm.comparator p q = wrap32 (algorithm.key p - algorithm.key q) := by
    cases algorithm <;> rfl
  rw [heq, wrap32_eq (by omega) (by omega)]
  omega

@[simp] theorem key_dispatched (algorithm : SchedulingAlgorithm) (clk : ℤ) (p : PCB) :
    algorithm.key (p.dispatched clk) = algorithm.key p := by
  unfold PCB.dispatched
  cases algorithm <;> split <;> rfl

namespace Scheduler

variable {s s' : Scheduler} {p : PCB} {process a b : ℕ}

/-- No process in the array of `ready_Heap` has a smaller key than its parent. -/
def KeyOrdered (s : Scheduler) : Prop :=
  ∀ i, 0 < i → i < s.readyHeap.size →
    s.algorithm.key (s.pcbs (s.readyHeap.processes (parent i))) ≤
      s.algorithm.key (s.pcbs (s.readyHeap.processes i))

/-- No process in the ready structure has a smaller key than the current one. -/
def KeyLeast (s : Scheduler) : Prop :=
  ∀ c, s.current = some c → ∀ p ∈ s.ready, s.algorithm.key c ≤ s.algorithm.key p

theorem cmp_eq (s : Scheduler) (a b : ℕ) :
    s.cmp a b = s.algorithm.comparator (s.pcbs a) (s.pcbs b) := by
  cases h : s.algorithm <;> simp only [cmp, h] <;> rfl

theorem cmp_lt (s : Scheduler) (a b : ℕ) (ha : s.algorithm.InRange (s.pcbs a))
    (hb : s.algorithm.InRange (s.pcbs b)) :
    s.cmp a b < 0 ↔ s.algorithm.key (s.pcbs a) < s.algorithm.key (s.pcbs b) := by
  rw [cmp_eq]
  exact comparator_lt ha hb

theorem le_iff (ha : s.algorithm.InRange (s.pcbs a)) (hb : s.algorithm.InRange (s.pcbs b)) :
    Le s.cmp a b ↔ s.algorithm.key (s.pcbs a) ≤ s.algorithm.key (s.pcbs b) :=
  le_iff_key (S := fun a => s.algorithm.InRange (s.pcbs a)) s.cmp_lt ha hb

/-- On keys in range the comparator is a total preorder. -/
theorem cmp_preorder (s : Scheduler) :
    TotalPreorderOn s.cmp fun a => s.algorithm.InRange (s.pcbs a) :=
  totalPreorderOn_of_key s.cmp_lt

theorem mem_ready_heap (ha : s.algorithm ≠ .RR) :
    p ∈ s.ready ↔ ∃ a ∈ s.readyHeap.toList, s.pcbs a = p := by
  rw [ready_heap ha, List.mem_map]

theorem inRange_heap (ha : s.algorithm ≠ .RR) (hr : ∀ p ∈ s.ready, s.algorithm.InRange p) :
    ∀ a ∈ s.readyHeap.toList, s.algorithm.InRange (s.pcbs a) :=
  fun a hin => hr _ ((mem_ready_heap ha).mpr ⟨a, hin, rfl⟩)

theorem ordered_iff (ha : s.algorithm ≠ .RR) (hr : ∀ p ∈ s.ready, s.algorithm.InRange p) :
    Ordered s.cmp s.readyHeap.processes s.readyHeap.size ↔ KeyOrdered s := by
  have hall := MinHeap.forall_toList.mp (inRange_heap ha hr)
  have hedge : ∀ i, 0 < i → i < s.readyHeap.size →
      (Le s.cmp (s.readyHeap.processes (parent i)) (s.readyHeap.processes i) ↔
        s.algorithm.key (s.pcbs (s.readyHeap.processes (parent i))) ≤
          s.algorithm.key (s.pcbs (s.readyHeap.processes i))) := by
    intro i hi hin
    have := parent_lt hi
    exact le_iff (hall _ (by omega)) (hall i hin)
  constructor
  · exact fun h i hi hin => (hedge i hi hin).mp (h i hi hin)
  · exact fun h i hi hin => (hedge i hi hin).mpr (h i hi hin)

/-- The root has the least key in the heap. -/
theorem root_least (ha : s.algorithm ≠ .RR) (hr : ∀ p ∈ s.ready, s.algorithm.InRange p)
    (ho : KeyOrdered s) (hp : p ∈ s.ready) :
    s.algorithm.key (s.pcbs (s.readyHeap.processes 0)) ≤ s.algorithm.key p := by
  obtain ⟨a, hin, rfl⟩ := (mem_ready_heap ha).mp hp
  obtain ⟨k, hk, rfl⟩ := mem_toList.mp hin
  have hall := MinHeap.forall_toList.mp (inRange_heap ha hr)
  have hroot := root_le (cmp_preorder s) hall ((ordered_iff ha hr).mpr ho) hk
  exact (le_iff (hall 0 (by omega)) (hall k hk)).mp hroot

/-- Changes of PCBs outside the heap leave the heap ordered. -/
theorem KeyOrdered.congr (ha : s'.algorithm = s.algorithm) (hh : s'.readyHeap = s.readyHeap)
    (hp : ∀ a ∈ s.readyHeap.toList, s'.pcbs a = s.pcbs a) (ho : KeyOrdered s) : KeyOrdered s' := by
  have hsame := MinHeap.forall_toList.mp hp
  intro i hi hin
  rw [hh] at hin ⊢
  have := parent_lt hi
  rw [ha, hsame _ (by omega), hsame i hin]
  exact ho i hi hin

theorem Touches.keyOrdered (h : Touches s s' process p) (hp : process ∉ s.readyHeap.toList)
    (ho : KeyOrdered s) : KeyOrdered s' := by
  refine ho.congr h.algorithm h.readyHeap fun a hin => ?_
  rw [h.pcbs, Function.update_of_ne]
  rintro rfl
  exact hp hin

theorem requeue_keyOrdered (ha : s.algorithm ≠ .RR) (hr : ∀ p ∈ s.ready, s.algorithm.InRange p)
    (hp : s.algorithm.InRange (s.pcbs process)) (ho : KeyOrdered s)
    (hroom : s.readyHeap.size < s.readyHeap.capacity) : KeyOrdered (s.requeue process) := by
  have heq : s.requeue process =
      { s with readyHeap := MinHeap.insertProcessMinHeap s.cmp s.readyHeap process } := by
    cases h : s.algorithm with
    | RR => contradiction
    | HPF | SRTN => simp only [requeue, h]
  have hmem : ∀ q ∈ (s.requeue process).ready, s.algorithm.InRange q := by
    intro q hq
    obtain ⟨a, hin, rfl⟩ := (mem_ready_heap (heq ▸ ha)).mp hq
    rw [(requeue_frame s process).1]
    rcases requeue_mem hin with rfl | hin
    · exact hp
    · exact inRange_heap ha hr a hin
  have hord := MinHeap.insert_ordered (cmp_preorder s) (inRange_heap ha hr) hp
    ((ordered_iff ha hr).mpr ho) hroom
  have halg : (s.requeue process).algorithm = s.algorithm := by rw [heq]
  rw [← ordered_iff (halg ▸ ha) (halg ▸ hmem), heq]
  exact hord

/-- Dispatching the root of a heap in order leaves it in order, and the root was least. -/
theorem switchToNext_keyLeast (hst : Stored s) (ha : s.algorithm ≠ .RR)
    (hsem : ∀ p ∈ s.ready, 0 < p.syncSemid) (hr : ∀ p ∈ s.ready, s.algorithm.InRange p)
    (ho : KeyOrdered s) : KeyOrdered s.switchToNext ∧ KeyLeast s.switchToNext := by
  have hpick := pickProcess_heap ha
  have hswitch : s.switchToNext =
      ({ s.pickProcess.1 with currentProcess := s.pickProcess.2 }).dispatch := rfl
  by_cases hne : 0 < s.readyHeap.size
  · obtain ⟨hroot, hperm⟩ := MinHeap.extractMin_perm s.cmp hne
    have hord := MinHeap.extractMin_ordered (cmp_preorder s) (inRange_heap ha hr)
      ((ordered_iff ha hr).mpr ho)
    have hnodup := (List.nodup_cons.mp (hperm.nodup_iff.mp hst.nodup)).1
    rw [hpick, hroot] at hswitch
    dsimp only at hswitch
    -- the state between the choice and the dispatch
    let t : Scheduler := { s with
      readyHeap := (MinHeap.extractMin s.cmp s.readyHeap).2
      currentProcess := some (s.readyHeap.processes 0) }
    have htready : ∀ p ∈ t.ready, p ∈ s.ready := by
      intro p hp
      obtain ⟨a, hin, rfl⟩ := (mem_ready_heap (show t.algorithm ≠ .RR from ha)).mp hp
      exact (mem_ready_heap ha).mpr ⟨a, hperm.mem_iff.mpr (.tail _ hin), rfl⟩
    have htord : KeyOrdered t :=
      (ordered_iff (show t.algorithm ≠ .RR from ha) fun p hp => hr p (htready p hp)).mp hord
    have hmem : s.pcbs (s.readyHeap.processes 0) ∈ s.ready :=
      (mem_ready_heap ha).mpr ⟨_, mem_toList.mpr ⟨0, hne, rfl⟩, rfl⟩
    obtain ⟨htouch, -⟩ := dispatch_spec (s := t) rfl (hsem _ hmem)
    have hswitch : s.switchToNext = t.dispatch := hswitch
    rw [hswitch]
    refine ⟨htouch.keyOrdered hnodup htord, ?_⟩
    intro c hc p hp
    rw [htouch.ready hnodup] at hp
    rw [htouch.current rfl, Option.some.injEq] at hc
    rw [← hc, htouch.algorithm, key_dispatched]
    exact root_least ha hr ho (htready p hp)
  · have hsize : s.readyHeap.size = 0 := by omega
    rw [hpick, MinHeap.extractMin_nil hsize] at hswitch
    have hidle : s.switchToNext = { s with currentProcess := none } := hswitch
    rw [hidle]
    constructor
    · intro i hi hin
      have hin : i < s.readyHeap.size := hin
      omega
    · intro c hc
      simp [current] at hc

/-- An arrival joins the heap in its place. -/
theorem arrival_keyOrdered (hs : Stored s) (ha : s.algorithm ≠ .RR)
    (hr : ∀ p ∈ s.ready, s.algorithm.InRange p) (hp : s.algorithm.InRange p.arrived)
    (ho : KeyOrdered s) (hroom : s.readyHeap.size < s.readyHeap.capacity) :
    KeyOrdered (s.handleProcessArrival p) := by
  have hready := storeArrival_ready (p := p) hs
  have hkeep : KeyOrdered (s.storeArrival p) :=
    KeyOrdered.congr (s := s) rfl rfl (fun a hin => storeArrival_pcbs (hs.heap_lt a hin)) ho
  rw [handleProcessArrival_heap ha]
  refine requeue_keyOrdered (s := s.storeArrival p) ha ?_ ?_ hkeep hroom
  · rw [hready]
    exact hr
  · rw [storeArrival_new]
    exact hp

theorem retire_keyOrdered (hs : Sound s) (hcp : s.currentProcess = some process)
    (ho : KeyOrdered s) : KeyOrdered (s.retire process) := by
  obtain ⟨halg, hheap, hpcbs⟩ := retire_heap s process
  refine ho.congr halg hheap fun a hin => hpcbs a ?_
  rintro rfl
  exact hs.current_notMem _ hcp hin

end Scheduler

end KernelSim
