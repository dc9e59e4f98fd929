import KernelSim.Scheduler.TieBreaking

/-! `update_process_in_heap` of `DS/minHeap.c`: the heap after one of its PCBs has changed. -/
namespace KernelSim
open BinaryHeap MinHeap

/-- A comparator of PCBs on the pointers to them. -/
def through (pcbs : ℕ → PCB) (cmp : PCB → PCB → ℤ) (a b : ℕ) : ℤ := cmp (pcbs a) (pcbs b)

/-- The first place of the array that points to a PCB with this `pid`. -/
def placeOf (pcbs : ℕ → PCB) (heap : MinHeap ℕ) (pid : ℤ) : Option ℕ :=
  (List.range heap.size).find? fun i => (pcbs (heap.processes i)).pid == pid

/-- `heapify_down` gets the place that `heapify_up` was given, whether that one moved it or not. -/
def updateProcessInHeap (cmp : PCB → PCB → ℤ) (pcbs : ℕ → PCB) (heap : MinHeap ℕ) (pid : ℤ) :
    MinHeap ℕ :=
  match placeOf pcbs heap pid with
  | some i => heapifyDown (through pcbs cmp) (heapifyUp (through pcbs cmp) heap i) i
  | none => heap

/-- No PCB in the heap goes before its parent. -/
def HeapOrdered (cmp : PCB → PCB → ℤ) (pcbs : ℕ → PCB) (heap : MinHeap ℕ) : Prop :=
  ∀ k, 0 < k → k < heap.size →
    ¬ cmp (pcbs (heap.processes k)) (pcbs (heap.processes (parent k))) < 0

/-- The heap after the call is in order, with the PCBs it had, and gives out a least one next. -/
structure Repaired (cmp : PCB → PCB → ℤ) (pcbs : ℕ → PCB) (heap : MinHeap ℕ) (pid : ℤ) :
    Prop where
  ordered : HeapOrdered cmp pcbs (updateProcessInHeap cmp pcbs heap pid)
  contents : (updateProcessInHeap cmp pcbs heap pid).toList.Perm heap.toList
  least : ∃ a ∈ heap.toList,
    (extractMin (through pcbs cmp) (updateProcessInHeap cmp pcbs heap pid)).1 = some a ∧
      ∀ b ∈ heap.toList, ¬ cmp (pcbs b) (pcbs a) < 0

variable {cmp : PCB → PCB → ℤ} {S : PCB → Prop} {pcbs : ℕ → PCB} {heap : MinHeap ℕ} {pid : ℤ}
  {changed : PCB} {i j x : ℕ}

theorem through_preorder (pcbs : ℕ → PCB) (hS : TotalPreorderOn cmp S) :
    TotalPreorderOn (through pcbs cmp) fun a => S (pcbs a) where
  asymm := fun a b => hS.asymm (pcbs a) (pcbs b)
  trans := fun a b c => hS.trans (pcbs a) (pcbs b) (pcbs c)

theorem placeOf_some (h : placeOf pcbs heap pid = some i) :
    i < heap.size ∧ (pcbs (heap.processes i)).pid = pid := by
  have htest := List.find?_some h
  exact ⟨List.mem_range.mp (List.mem_of_find?_eq_some h), beq_iff_eq.mp htest⟩

theorem placeOf_none :
    placeOf pcbs heap pid = none ↔ ∀ a ∈ heap.toList, (pcbs a).pid ≠ pid := by
  rw [placeOf, List.find?_eq_none, forall_toList]
  simp

/-- An order that is broken at one place only is repaired from there. -/
theorem repaired_of_almostOrdered (hS : TotalPreorderOn cmp S)
    (hall : ∀ a ∈ heap.toList, S (pcbs a)) (hplace : placeOf pcbs heap pid = some i)
    (h : AlmostOrdered (through pcbs cmp) heap.processes heap.size i) :
    Repaired cmp pcbs heap pid := by
  have hin := (placeOf_some hplace).1
  have hpre := through_preorder pcbs hS
  have hafter : updateProcessInHeap cmp pcbs heap pid =
      heapifyDown (through pcbs cmp) (heapifyUp (through pcbs cmp) heap i) i := by
    simp only [updateProcessInHeap, hplace]
  have hperm : (updateProcessInHeap cmp pcbs heap pid).toList.Perm heap.toList := by
    rw [hafter]
    exact (siftDown_perm hin).trans (siftUp_perm hin)
  have horder : InOrder (through pcbs cmp) (fun a => S (pcbs a))
      (updateProcessInHeap cmp pcbs heap pid) := by
    refine ⟨fun a ha => hall a (hperm.subset ha), ?_⟩
    rw [hafter]
    exact h.sift hpre (forall_toList.mp hall) hin
  have hsize : (updateProcessInHeap cmp pcbs heap pid).size = heap.size := by
    rw [hafter]
    rfl
  obtain ⟨hroot, -⟩ := extractMin_perm (through pcbs cmp)
    (show 0 < (updateProcessInHeap cmp pcbs heap pid).size by omega)
  refine ⟨horder.ordered, hperm, _, ?_, hroot, ?_⟩
  · exact hperm.subset (mem_toList.mpr ⟨0, by omega, rfl⟩)
  · intro b hb
    exact horder.root_le hpre b (hperm.symm.subset hb)

theorem pid_update (hpid : changed.pid = (pcbs x).pid) (a : ℕ) :
    (Function.update pcbs x changed a).pid = (pcbs a).pid := by
  by_cases ha : a = x
  · rw [ha, Function.update_self, hpid]
  · rw [Function.update_of_ne ha]

/-- A PCB stands in one place of the array. -/
theorem place_inj (hpids : (heap.toList.map fun a => (pcbs a).pid).Nodup) (hi : i < heap.size)
    (hj : j < heap.size)
    (heq : (pcbs (heap.processes i)).pid = (pcbs (heap.processes j)).pid) : i = j := by
  rw [MinHeap.toList, BinaryHeap.toList, List.map_map] at hpids
  exact List.inj_on_of_nodup_map hpids (List.mem_range.mpr hi) (List.mem_range.mpr hj) heq

/-- One PCB changed breaks the order at its place only. -/
theorem almostOrdered_update (hS : TotalPreorderOn cmp S) (hall : ∀ a ∈ heap.toList, S (pcbs a))
    (hpids : (heap.toList.map fun a => (pcbs a).pid).Nodup) (ho : HeapOrdered cmp pcbs heap)
    (hi : i < heap.size) (changed : PCB) :
    AlmostOrdered (through (Function.update pcbs (heap.processes i) changed) cmp) heap.processes
      heap.size i := by
  have hother : ∀ k < heap.size, k ≠ i →
      Function.update pcbs (heap.processes i) changed (heap.processes k) =
        pcbs (heap.processes k) := by
    intro k hk hne
    apply Function.update_of_ne
    intro heq
    exact hne (place_inj hpids hk hi (congrArg (fun a => (pcbs a).pid) heq))
  have hplace := forall_toList.mp hall
  constructor
  · intro k hk hkn hki hpk
    have hlt := parent_lt hk
    unfold Le through
    rw [hother k hkn hki, hother _ (by omega) hpk]
    exact ho k hk hkn
  · rintro k hk hkn rfl hpos
    have hlt := parent_lt hk
    have hlt' := parent_lt hpos
    unfold Le through
    rw [hother k hkn (by omega), hother _ (by omega) (by omega)]
    exact hS.trans _ _ _ (hplace _ (by omega)) (hplace _ hi) (hplace k hkn) (ho _ hpos hi)
      (ho k hk hkn)

/-- A heap in order with distinct pids: whichever of its PCBs changes, and however, the call with
its pid repairs the order, and a call with a pid that is not in the heap changes nothing. -/
theorem updateProcessInHeap_repairs (hS : TotalPreorderOn cmp S)
    (hall : ∀ a ∈ heap.toList, S (pcbs a))
    (hpids : (heap.toList.map fun a => (pcbs a).pid).Nodup) (ho : HeapOrdered cmp pcbs heap) :
    (∀ x ∈ heap.toList, ∀ changed, S changed → changed.pid = (pcbs x).pid →
        Repaired cmp (Function.update pcbs x changed) heap changed.pid) ∧
      ∀ pid, (∀ a ∈ heap.toList, (pcbs a).pid ≠ pid) →
        updateProcessInHeap cmp pcbs heap pid = heap := by
  constructor
  · intro x hx changed hchanged hpid
    have hadmitted : ∀ a ∈ heap.toList, S (Function.update pcbs x changed a) := by
      intro a ha
      by_cases heq : a = x
      · rw [heq, Function.update_self]
        exact hchanged
      · rw [Function.update_of_ne heq]
        exact hall a ha
    cases hplace : placeOf (Function.update pcbs x changed) heap changed.pid with
    | none =>
      have hne := placeOf_none.mp hplace x hx
      rw [Function.update_self] at hne
      exact absurd rfl hne
    | some i =>
      obtain ⟨hi, hipid⟩ := placeOf_some hplace
      obtain ⟨k, hk, rfl⟩ := mem_toList.mp hx
      rw [pid_update hpid, hpid] at hipid
      obtain rfl := place_inj hpids hi hk hipid
      exact repaired_of_almostOrdered hS hadmitted hplace
        (almostOrdered_update hS hall hpids ho hi changed)
  · intro pid hpid
    simp only [updateProcessInHeap, placeOf_none.mpr hpid]

/-- The PCB at address `a`: pids from 101 on, in order of remaining time. -/
def pcbAt (a : ℕ) : PCB := { emptyFront with pid := 101 + a, remainingTime := 2 * a + 2 }

/-- The PCBs at addresses 0 to 2. -/
def heapOfThree : MinHeap ℕ := { capacity := 1024, size := 3, processes := id }

/-- The root moves down with a greater key, a leaf to the root with a smaller one. -/
theorem updateProcessInHeap_repairs_three :
    Repaired compareRemainingTime (Function.update pcbAt 0 { pcbAt 0 with remainingTime := 9 })
        heapOfThree 101 ∧
      Repaired compareRemainingTime (Function.update pcbAt 2 { pcbAt 2 with remainingTime := 1 })
        heapOfThree 103 ∧
      updateProcessInHeap compareRemainingTime pcbAt heapOfThree 104 = heapOfThree := by
  have hrange : ∀ a ∈ heapOfThree.toList, SchedulingAlgorithm.InRange .SRTN (pcbAt a) := by
    intro a ha
    have ha : a < 3 := by
      simpa [heapOfThree, MinHeap.toList, BinaryHeap.toList] using ha
    constructor
    · show (0 : ℤ) ≤ 2 * a + 2
      omega
    · show (2 * a + 2 : ℤ) < 2 ^ 31
      omega
  have horder : HeapOrdered compareRemainingTime pcbAt heapOfThree := by
    intro k hk hkn
    obtain rfl | rfl : k = 1 ∨ k = 2 := by
      have : k < 3 := hkn
      omega
    · decide
    · decide
  have hrepairs := updateProcessInHeap_repairs (comparator_preorder .SRTN) hrange (by decide) horder
  refine ⟨hrepairs.1 0 (by decide) _ ⟨?_, ?_⟩ rfl, hrepairs.1 2 (by decide) _ ⟨?_, ?_⟩ rfl,
    hrepairs.2 104 (by decide)⟩
  all_goals decide

end KernelSim
