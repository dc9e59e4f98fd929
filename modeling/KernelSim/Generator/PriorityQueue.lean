import KernelSim.Headers
import KernelSim.Library.BinaryHeap

/-! `DS/priorityQueue.c`, which holds the processes that have not arrived. -/
namespace KernelSim
open BinaryHeap

inductive SortMode
  | sortByArrivalTime
  | sortByArrivalThenPriority
  deriving DecidableEq, Repr

/-- `PriorityQueue`. Only the first `size` places of `data` have been written. -/
structure PriorityQueue where
  data : ℕ → Process
  size : ℕ
  capacity : ℕ
  sortMode : SortMode

/-- `pq_init`; `junk` is what `malloc` left in the array. -/
def pqInit (capacity : ℕ) (mode : SortMode) (junk : Process) : PriorityQueue :=
  { data := fun _ => junk, size := 0, capacity, sortMode := mode }

def pqEmpty (pq : PriorityQueue) : Bool := pq.size == 0

/-- The elements are copied to a larger array. -/
def pqResize (pq : PriorityQueue) (newCapacity : ℕ) : PriorityQueue :=
  { pq with capacity := newCapacity }

def compareProcesses (mode : SortMode) (a b : Process) : ℤ :=
  match mode with
  | .sortByArrivalTime => wrap32 (a.arrivalTime - b.arrivalTime)
  | .sortByArrivalThenPriority =>
    if a.arrivalTime ≠ b.arrivalTime then wrap32 (a.arrivalTime - b.arrivalTime)
    else wrap32 (a.priority - b.priority)

def pqPush (pq : PriorityQueue) (value : Process) : PriorityQueue :=
  let pq := if pq.capacity ≤ pq.size then pqResize pq (pq.capacity * 2) else pq
  { pq with
    data := siftHole (compareProcesses pq.sortMode) value pq.size pq.data pq.size
    size := pq.size + 1 }

def pqTop (pq : PriorityQueue) : Process := pq.data 0

/-- Called only where `pq` is not empty. -/
def pqPop (pq : PriorityQueue) : PriorityQueue :=
  let size := pq.size - 1
  { pq with
    data := siftDown (compareProcesses pq.sortMode) size size
      (Function.update pq.data 0 (pq.data size)) 0
    size }

/-- The places of `data` that `pq_push` reads and writes, `memcpy` included. -/
def pqPushPlaces (pq : PriorityQueue) (value : Process) : List ℕ :=
  (if pq.capacity ≤ pq.size then List.range pq.size else []) ++
    siftHolePlaces (compareProcesses pq.sortMode) value pq.size pq.data pq.size

/-- The places of `data` that `pq_pop` reads and writes. -/
def pqPopPlaces (pq : PriorityQueue) : List ℕ :=
  let size := pq.size - 1
  0 :: size :: siftDownPlaces (compareProcesses pq.sortMode) size size
    (Function.update pq.data 0 (pq.data size)) 0

namespace PriorityQueue

/-- The processes in the queue, in the order of the array. -/
def toList (pq : PriorityQueue) : List Process := BinaryHeap.toList pq.data pq.size

/-- The differences that `compare_processes` takes do not overflow. -/
def Comparable (mode : SortMode) (p : Process) : Prop :=
  (0 ≤ p.arrivalTime ∧ p.arrivalTime < 2 ^ 31) ∧
    (mode = .sortByArrivalThenPriority → 0 ≤ p.priority ∧ p.priority < 2 ^ 31)

def FitsInt (x : ℤ) : Prop := -2 ^ 31 ≤ x ∧ x < 2 ^ 31

/-- The same of any two of a set of processes, which is what `compare_processes` needs. -/
def Subtractable (mode : SortMode) (S : Process → Prop) : Prop :=
  ∀ a b, S a → S b → FitsInt (a.arrivalTime - b.arrivalTime) ∧
    (mode = .sortByArrivalThenPriority → a.arrivalTime = b.arrivalTime →
      FitsInt (a.priority - b.priority))

structure InOrder (pq : PriorityQueue) : Prop where
  capacity_pos : 0 < pq.capacity
  size_le : pq.size ≤ pq.capacity
  comparable : ∀ p ∈ pq.toList, Comparable pq.sortMode p
  ordered : Ordered (compareProcesses pq.sortMode) pq.data pq.size

/-- The array is in order, on processes that are all in `S`. -/
structure Arranged (S : Process → Prop) (pq : PriorityQueue) : Prop where
  capacity_pos : 0 < pq.capacity
  size_le : pq.size ≤ pq.capacity
  admitted : ∀ p ∈ pq.toList, S p
  ordered : Ordered (compareProcesses pq.sortMode) pq.data pq.size

/-- The processes in the order in which `pq_pop` takes them. -/
def popOrder : ℕ → PriorityQueue → List Process
  | 0, _ => []
  | n + 1, pq => pqTop pq :: popOrder n (pqPop pq)

def drain (pq : PriorityQueue) : List Process := popOrder pq.size pq

variable {pq : PriorityQueue} {mode : SortMode} {S : Process → Prop} {a b c p value : Process}

theorem comparable_subtractable (mode : SortMode) : Subtractable mode (Comparable mode) := by
  rintro a b ⟨⟨ha0, ha1⟩, ha2⟩ ⟨⟨hb0, hb1⟩, hb2⟩
  constructor
  · constructor <;> omega
  · intro hm _
    have ha2 := ha2 hm
    have hb2 := hb2 hm
    constructor <;> omega

/-- On such processes the differences are exact. -/
theorem compareProcesses_eq (hS : Subtractable mode S) (ha : S a) (hb : S b) :
    compareProcesses mode a b =
      if mode = .sortByArrivalThenPriority ∧ a.arrivalTime = b.arrivalTime then
        a.priority - b.priority
      else a.arrivalTime - b.arrivalTime := by
  obtain ⟨⟨harr0, harr1⟩, hpri⟩ := hS a b ha hb
  have harrival : wrap32 (a.arrivalTime - b.arrivalTime) = a.arrivalTime - b.arrivalTime :=
    wrap32_eq harr0 harr1
  cases mode with
  | sortByArrivalTime => simpa [compareProcesses] using harrival
  | sortByArrivalThenPriority =>
    simp only [compareProcesses, harrival, true_and, ne_eq, ite_not]
    split
    · rename_i heq
      obtain ⟨hpri0, hpri1⟩ := hpri rfl heq
      exact wrap32_eq hpri0 hpri1
    · rfl

theorem compareProcesses_lt (hS : Subtractable mode S) (ha : S a) (hb : S b) :
    compareProcesses mode a b < 0 ↔ a.arrivalTime < b.arrivalTime ∨
      mode = .sortByArrivalThenPriority ∧ a.arrivalTime = b.arrivalTime ∧
        a.priority < b.priority := by
  rw [compareProcesses_eq hS ha hb]
  grind

theorem compareProcesses_antisymmetric (hS : Subtractable mode S) :
    Antisymmetric (compareProcesses mode) S := by
  intro a b ha hb
  rw [compareProcesses_eq hS ha hb, compareProcesses_eq hS hb ha]
  grind

theorem compareProcesses_preorder (hS : Subtractable mode S) :
    TotalPreorderOn (compareProcesses mode) S where
  asymm := by
    intro a b ha hb h
    unfold Le
    rw [compareProcesses_lt hS hb ha]
    rw [compareProcesses_lt hS ha hb] at h
    omega
  trans := by
    intro a b c ha hb hc hab hbc
    unfold Le at *
    rw [compareProcesses_lt hS hb ha] at hab
    rw [compareProcesses_lt hS hc hb] at hbc
    rw [compareProcesses_lt hS hc ha]
    by_cases hm : mode = .sortByArrivalThenPriority
    · simp only [hm, true_and] at hab hbc ⊢
      omega
    · simp only [hm, false_and, or_false] at hab hbc ⊢
      omega

theorem forall_toList {P : Process → Prop} :
    (∀ a ∈ pq.toList, P a) ↔ ∀ k < pq.size, P (pq.data k) := by
  simp only [toList, mem_toList]
  constructor
  · exact fun h k hk => h _ ⟨k, hk, rfl⟩
  · rintro h _ ⟨k, hk, rfl⟩
    exact h k hk

theorem toList_eq_nil : pq.toList = [] ↔ pqEmpty pq = true := by
  rw [← List.length_eq_zero_iff, toList, length_toList, pqEmpty, beq_iff_eq]

theorem size_pos (h : pqEmpty pq = false) : 0 < pq.size := by
  have : pq.size ≠ 0 := beq_eq_false_iff_ne.mp h
  omega

theorem pqInit_inOrder {capacity : ℕ} (mode : SortMode) (junk : Process) (h : 0 < capacity) :
    (pqInit capacity mode junk).InOrder where
  capacity_pos := h
  size_le := Nat.zero_le _
  comparable := fun _ hp => absurd hp List.not_mem_nil
  ordered := fun _ _ hk => absurd hk (Nat.not_lt_zero _)

@[simp] theorem pqPush_sortMode : (pqPush pq value).sortMode = pq.sortMode := by
  unfold pqPush pqResize
  dsimp only
  split <;> rfl

/-- `pq_push` writes the process into a place that the array has, resized or not. -/
theorem pqPush_eq (hpos : 0 < pq.capacity) (hle : pq.size ≤ pq.capacity) (value : Process) :
    ∃ capacity, pq.size < capacity ∧ pqPush pq value =
      { pq with
        data := siftHole (compareProcesses pq.sortMode) value pq.size pq.data pq.size
        size := pq.size + 1
        capacity } := by
  unfold pqPush pqResize
  dsimp only
  split
  · exact ⟨pq.capacity * 2, by omega, rfl⟩
  · exact ⟨pq.capacity, by omega, rfl⟩

@[simp] theorem pqPush_size (pq : PriorityQueue) (value : Process) :
    (pqPush pq value).size = pq.size + 1 := by
  unfold pqPush pqResize
  dsimp only
  split <;> rfl

theorem pqPush_perm (pq : PriorityQueue) (value : Process) :
    (pqPush pq value).toList.Perm (pq.toList ++ [value]) := by
  have hdata : (pqPush pq value).data =
      siftHole (compareProcesses pq.sortMode) value pq.size pq.data pq.size := by
    unfold pqPush pqResize
    dsimp only
    split <;> rfl
  rw [toList, hdata, pqPush_size]
  exact siftHole_perm

theorem pqPush_arranged (hS : Subtractable pq.sortMode S) (h : Arranged S pq) (hv : S value) :
    Arranged S (pqPush pq value) := by
  obtain ⟨capacity, hroom, heq⟩ := pqPush_eq h.capacity_pos h.size_le value
  have hall := forall_toList.mp h.admitted
  rw [heq]
  refine ⟨Nat.zero_lt_of_lt hroom, hroom, ?_, ?_⟩
  · exact forall_toList.mpr (forall_siftHole hall hv)
  · exact siftHole_ordered (compareProcesses_preorder hS) (compareProcesses_antisymmetric hS) hall
      hv h.ordered

theorem InOrder.arranged (h : pq.InOrder) : Arranged (Comparable pq.sortMode) pq :=
  ⟨h.capacity_pos, h.size_le, h.comparable, h.ordered⟩

/-- `pq_push` adds the process, resizing or not. -/
theorem pqPush_spec (h : pq.InOrder) (hv : Comparable pq.sortMode value) :
    (pqPush pq value).InOrder ∧ (pqPush pq value).toList.Perm (pq.toList ++ [value]) := by
  have harr := pqPush_arranged (comparable_subtractable _) h.arranged hv
  refine ⟨⟨harr.capacity_pos, harr.size_le, ?_, harr.ordered⟩, pqPush_perm pq value⟩
  rw [pqPush_sortMode]
  exact harr.admitted

@[simp] theorem pqPop_size : (pqPop pq).size = pq.size - 1 := rfl

theorem pqPop_perm (hne : 0 < pq.size) : pq.toList.Perm (pqTop pq :: (pqPop pq).toList) := by
  refine (toList_replaceRoot hne).trans (.cons _ ?_)
  by_cases hpos : 0 < pq.size - 1
  · exact (siftDown_perm hpos).symm
  · rw [toList, pqPop_size, Nat.eq_zero_of_not_pos hpos]
    exact .refl _

theorem pqPop_arranged (hS : Subtractable pq.sortMode S) (h : Arranged S pq) (hne : 0 < pq.size) :
    Arranged S (pqPop pq) := by
  have hall := forall_replaceRoot (forall_toList.mp h.admitted)
  have hdown := downOrder_replaceRoot h.ordered
  have hle := h.size_le
  refine ⟨h.capacity_pos, ?_, ?_, ?_⟩
  · rw [pqPop_size]
    show pq.size - 1 ≤ pq.capacity
    omega
  · exact fun p hp => h.admitted p ((pqPop_perm hne).symm.subset (List.mem_cons_of_mem _ hp))
  · by_cases hpos : 0 < pq.size - 1
    · exact siftDown_ordered (compareProcesses_preorder hS) hall hpos (Nat.le_add_left _ _) hdown
    · intro k _ hk
      rw [pqPop_size] at hk
      omega

theorem pqPop_inOrder (h : pq.InOrder) (hne : 0 < pq.size) : (pqPop pq).InOrder := by
  have harr := pqPop_arranged (comparable_subtractable _) h.arranged hne
  exact ⟨harr.capacity_pos, harr.size_le, harr.admitted, harr.ordered⟩

/-- No process in the queue is less than `pq_top`. -/
theorem Arranged.top_le (hS : Subtractable pq.sortMode S) (h : Arranged S pq)
    (hp : p ∈ pq.toList) : Le (compareProcesses pq.sortMode) (pqTop pq) p := by
  obtain ⟨k, hk, rfl⟩ := mem_toList.mp hp
  exact root_le (compareProcesses_preorder hS) (forall_toList.mp h.admitted) h.ordered hk

theorem mem_pqTop (hne : 0 < pq.size) : pqTop pq ∈ pq.toList := mem_toList.mpr ⟨0, hne, rfl⟩

/-- `pq_top` is a process that arrives first. -/
theorem pqTop_le (h : pq.InOrder) (hp : p ∈ pq.toList) :
    (pqTop pq).arrivalTime ≤ p.arrivalTime := by
  have hS := comparable_subtractable pq.sortMode
  have hle := h.arranged.top_le hS hp
  have hne : 0 < pq.size := by
    obtain ⟨k, hk, -⟩ := mem_toList.mp hp
    omega
  unfold Le at hle
  rw [compareProcesses_lt hS (h.comparable p hp) (h.comparable _ (mem_pqTop hne))] at hle
  omega

theorem drain_nil (h : pqEmpty pq = true) : pq.drain = [] := by
  rw [drain, beq_iff_eq.mp h]
  rfl

theorem drain_cons (h : pqEmpty pq = false) : pq.drain = pqTop pq :: (pqPop pq).drain := by
  have hpos := size_pos h
  obtain ⟨n, hn⟩ : ∃ n, pq.size = n + 1 := ⟨pq.size - 1, by omega⟩
  rw [drain, drain, pqPop_size, hn]
  rfl

end PriorityQueue

end KernelSim
