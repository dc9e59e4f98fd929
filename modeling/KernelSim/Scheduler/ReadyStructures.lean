import KernelSim.Headers
import KernelSim.Library.BinaryHeap
import KernelSim.Library.RingBuffer

/-! `DS/minHeap.c` and `DS/Queue.c`, which hold the processes that are ready to run. -/
namespace KernelSim
open RingBuffer

/-- `MinHeap`. The entries of `processes` are `PCB *`, compared through the memory they point to,
so the comparator is given to each call. -/
structure MinHeap (α : Type) where
  capacity : ℕ
  size : ℕ
  processes : ℕ → α

namespace MinHeap

variable {α : Type} (cmp : α → α → ℤ)

/-- `create_min_heap`; `junk` is what `malloc` left in the array. -/
def createMinHeap (junk : α) : MinHeap α := { capacity := 1024, size := 0, processes := fun _ => junk }

def heapifyUp (heap : MinHeap α) (i : ℕ) : MinHeap α :=
  { heap with processes := BinaryHeap.siftUp cmp i heap.processes i }

def heapifyDown (heap : MinHeap α) (i : ℕ) : MinHeap α :=
  { heap with processes := BinaryHeap.siftDown cmp heap.size heap.size heap.processes i }

def insertProcessMinHeap (heap : MinHeap α) (process : α) : MinHeap α :=
  if heap.capacity ≤ heap.size then heap
  else
    let index := heap.size
    heapifyUp cmp
      { heap with processes := Function.update heap.processes index process, size := index + 1 }
      index

def extractMin (heap : MinHeap α) : Option α × MinHeap α :=
  if heap.size = 0 then (none, heap)
  else
    let least := heap.processes 0
    let size := heap.size - 1
    let heap := { heap with
      processes := Function.update heap.processes 0 (heap.processes size), size }
    (some least, if 0 < size then heapifyDown cmp heap 0 else heap)

def toList (heap : MinHeap α) : List α := BinaryHeap.toList heap.processes heap.size

variable {cmp} {heap : MinHeap α} {process : α} {S : α → Prop}

@[simp] theorem length_toList : heap.toList.length = heap.size := BinaryHeap.length_toList

@[simp] theorem insert_capacity : (insertProcessMinHeap cmp heap process).capacity = heap.capacity := by
  unfold insertProcessMinHeap
  split <;> rfl

@[simp] theorem extractMin_capacity : (extractMin cmp heap).2.capacity = heap.capacity := by
  unfold extractMin
  split
  · rfl
  · dsimp only
    split <;> rfl

theorem forall_toList {P : α → Prop} : (∀ a ∈ heap.toList, P a) ↔
    ∀ k < heap.size, P (heap.processes k) := by
  simp only [toList, BinaryHeap.mem_toList]
  constructor
  · exact fun h k hk => h _ ⟨k, hk, rfl⟩
  · rintro h _ ⟨k, hk, rfl⟩
    exact h k hk

theorem insert_eq (hroom : heap.size < heap.capacity) :
    insertProcessMinHeap cmp heap process =
      { heap with
        size := heap.size + 1
        processes := BinaryHeap.siftUp cmp heap.size
          (Function.update heap.processes heap.size process) heap.size } := by
  rw [insertProcessMinHeap, if_neg (by omega)]
  rfl

theorem insert_perm (cmp : α → α → ℤ) (process : α) (hroom : heap.size < heap.capacity) :
    (insertProcessMinHeap cmp heap process).toList.Perm (heap.toList ++ [process]) := by
  have hpush : BinaryHeap.toList (Function.update heap.processes heap.size process) (heap.size + 1) =
      heap.toList ++ [process] := BinaryHeap.toList_push
  rw [insert_eq hroom, ← hpush]
  exact BinaryHeap.siftUp_perm (Nat.lt_succ_self _)

theorem insert_ordered (hS : BinaryHeap.TotalPreorderOn cmp S) (hh : ∀ a ∈ heap.toList, S a)
    (hp : S process) (ho : BinaryHeap.Ordered cmp heap.processes heap.size)
    (hroom : heap.size < heap.capacity) :
    BinaryHeap.Ordered cmp (insertProcessMinHeap cmp heap process).processes
      (insertProcessMinHeap cmp heap process).size := by
  rw [insert_eq hroom]
  exact BinaryHeap.siftUp_ordered hS (BinaryHeap.forall_push (forall_toList.mp hh) hp)
    (Nat.lt_succ_self _) (Nat.le_refl _) (BinaryHeap.upOrder_push ho)

theorem insert_congr {cmp' : α → α → ℤ} (h : ∀ a b, S a → S b → cmp a b = cmp' a b)
    (hh : ∀ a ∈ heap.toList, S a) (hp : S process) :
    insertProcessMinHeap cmp heap process = insertProcessMinHeap cmp' heap process := by
  have hall := BinaryHeap.forall_push (forall_toList.mp hh) hp
  simp only [insertProcessMinHeap, heapifyUp, BinaryHeap.siftUp_congr h hall (Nat.lt_succ_self _)]

theorem extractMin_congr {cmp' : α → α → ℤ} (h : ∀ a b, S a → S b → cmp a b = cmp' a b)
    (hh : ∀ a ∈ heap.toList, S a) : extractMin cmp heap = extractMin cmp' heap := by
  have hall := BinaryHeap.forall_replaceRoot (forall_toList.mp hh)
  by_cases hpos : 0 < heap.size - 1
  · simp only [extractMin, heapifyDown, BinaryHeap.siftDown_congr h hall hpos]
  · simp only [extractMin, if_neg hpos]

theorem extractMin_nil (h : heap.size = 0) : extractMin cmp heap = (none, heap) := if_pos h

theorem extractMin_perm (cmp : α → α → ℤ) (h : 0 < heap.size) :
    (extractMin cmp heap).1 = some (heap.processes 0) ∧
      heap.toList.Perm (heap.processes 0 :: (extractMin cmp heap).2.toList) := by
  rw [extractMin, if_neg (by omega)]
  refine ⟨rfl, (BinaryHeap.toList_replaceRoot h).trans (.cons _ ?_)⟩
  dsimp only
  split
  · rename_i hpos
    exact (BinaryHeap.siftDown_perm hpos).symm
  · exact .refl _

theorem extractMin_ordered (hS : BinaryHeap.TotalPreorderOn cmp S) (hh : ∀ a ∈ heap.toList, S a)
    (ho : BinaryHeap.Ordered cmp heap.processes heap.size) :
    BinaryHeap.Ordered cmp (extractMin cmp heap).2.processes (extractMin cmp heap).2.size := by
  have hall := BinaryHeap.forall_replaceRoot (forall_toList.mp hh)
  have hdown := BinaryHeap.downOrder_replaceRoot ho
  unfold extractMin
  split
  · exact ho
  dsimp only
  split
  · rename_i hpos
    exact BinaryHeap.siftDown_ordered hS hall hpos (Nat.le_add_left _ _) hdown
  · rename_i hpos
    exact BinaryHeap.ordered_of_downOrder hdown (Nat.le_of_not_lt hpos)

end MinHeap

/-- `PCBQueue` -/
abbrev PCBQueue := RingBuffer.Ring PCB

def queueInit (capacity : ℕ) (junk : PCB) : PCBQueue :=
  { data := fun _ => junk, front := 0, rear := 0, size := 0, capacity }

def queueEmpty (q : PCBQueue) : Bool := q.size == 0

def queueFull (q : PCBQueue) : Bool := q.size == q.capacity

def queueResize (q : PCBQueue) (newCapacity : ℕ) : PCBQueue := q.resize newCapacity

def queueEnqueue (q : PCBQueue) (value : PCB) : PCBQueue :=
  (if queueFull q then queueResize q (q.capacity * 2) else q).push value

/-- The marker `queue_front` returns for an empty queue. -/
def emptyFront : PCB :=
  { pid := -1, idFromFile := 0, arrivalTime := 0, startTime := 0, remainingTime := 0, priority := 0,
    waitingTime := 0, executionTime := 0, lastPremptTime := 0, shmId := 0, memorySize := 0,
    syncSemid := 0, state := .waiting }

def queueFront (q : PCBQueue) : PCB := if queueEmpty q then emptyFront else q.data q.front

def queueDequeue (q : PCBQueue) : PCBQueue := if queueEmpty q then q else q.pop

variable {q : PCBQueue} {value : PCB}

theorem queueInit_valid {capacity : ℕ} (junk : PCB) (h : 0 < capacity) :
    (queueInit capacity junk).Valid := ⟨h, h, by simp [queueInit], Nat.zero_le _⟩

theorem queueEnqueue_spec (h : q.Valid) (value : PCB) :
    (queueEnqueue q value).Valid ∧ (queueEnqueue q value).toList = q.toList ++ [value] := by
  unfold queueEnqueue
  have hpos := h.capacity_pos
  have hle := h.size_le
  split
  · rename_i hfull
    have heq : q.size = q.capacity := by simpa [queueFull] using hfull
    have hv : (q.resize (q.capacity * 2)).Valid := Ring.valid_resize (by omega)
    have hroom : (q.resize (q.capacity * 2)).size < (q.resize (q.capacity * 2)).capacity := by
      show q.size < q.capacity * 2
      omega
    refine ⟨Ring.valid_push hv hroom, ?_⟩
    rw [queueResize, Ring.toList_push hv hroom, Ring.toList_resize (by omega)]
  · rename_i hfull
    have hroom : q.size < q.capacity := by
      have : q.size ≠ q.capacity := by simpa [queueFull] using hfull
      omega
    exact ⟨Ring.valid_push h hroom, Ring.toList_push h hroom⟩

theorem queueDequeue_spec (h : q.Valid) (hne : 0 < q.size) :
    (queueDequeue q).Valid ∧ q.toList = queueFront q :: (queueDequeue q).toList := by
  have hempty : queueEmpty q = false := by
    simp only [queueEmpty, beq_eq_false_iff_ne]
    omega
  rw [queueDequeue, queueFront, hempty]
  exact ⟨Ring.valid_pop h hne, Ring.toList_pop h hne⟩

end KernelSim
