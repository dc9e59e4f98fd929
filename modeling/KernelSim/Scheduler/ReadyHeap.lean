import KernelSim.Library.Popping
import KernelSim.Library.Runs
import KernelSim.Scheduler.ReadyStructures

/-! The ready heap over every sequence of insertions and extractions, for any comparator. -/
namespace KernelSim
open Runs BinaryHeap MinHeap Popping

inductive HeapCall (α : Type)
  | insert (process : α)
  | extract

/-- The heap with what it has taken in and given out so far. -/
structure HeapHistory (α : Type) where
  heap : MinHeap α
  accepted : List α
  extracted : List α

variable {α : Type} {cmp : α → α → ℤ} {S : α → Prop} {heap : MinHeap α} {h h' : HeapHistory α}
  {call : HeapCall α} {process : α}

namespace HeapHistory

def initial (junk : α) : HeapHistory α :=
  { heap := createMinHeap junk, accepted := [], extracted := [] }

def next (cmp : α → α → ℤ) (h : HeapHistory α) : HeapCall α → Option (HeapHistory α)
  | .insert process => some
      { h with
        heap := insertProcessMinHeap cmp h.heap process
        accepted := if h.heap.size < h.heap.capacity then h.accepted ++ [process]
          else h.accepted }
  | .extract => some
      { h with
        heap := (extractMin cmp h.heap).2
        extracted := h.extracted ++ (extractMin cmp h.heap).1.toList }

end HeapHistory

/-- `extract_min` as an operation that may find nothing. -/
def popMin (cmp : α → α → ℤ) (heap : MinHeap α) : Option (α × MinHeap α) :=
  (extractMin cmp heap).1.map fun least => (least, (extractMin cmp heap).2)

/-- The heap is in order and holds what it took in less what it gave out, and the operations do
what a ready queue needs: a process goes before another where `cmp` is negative. -/
structure HeapCorrect (cmp : α → α → ℤ) (h : HeapHistory α) : Prop where
  ordered : ∀ k, 0 < k → k < h.heap.size →
    ¬ cmp (h.heap.processes k) (h.heap.processes (parent k)) < 0
  contents : (h.extracted ++ h.heap.toList).Perm h.accepted
  null_iff : (extractMin cmp h.heap).1 = none ↔ h.heap.size = 0
  null : h.heap.size = 0 → extractMin cmp h.heap = (none, h.heap)
  least : ∀ p, (extractMin cmp h.heap).1 = some p →
    p ∈ h.heap.toList ∧ ∀ q ∈ h.heap.toList, ¬ cmp q p < 0
  removed : ∀ p, (extractMin cmp h.heap).1 = some p →
    h.heap.toList.Perm (p :: (extractMin cmp h.heap).2.toList)
  full : h.heap.capacity ≤ h.heap.size →
    ∀ p, insertProcessMinHeap cmp h.heap p = h.heap
  sorted : (drain (popMin cmp) h.heap.size h.heap).1.Pairwise fun p q => ¬ cmp q p < 0
  drained : (drain (popMin cmp) h.heap.size h.heap).1.Perm h.heap.toList
  emptied : (drain (popMin cmp) h.heap.size h.heap).2.size = 0

namespace MinHeap

/-- The heap order, on processes that `cmp` compares by a total preorder. -/
structure InOrder (cmp : α → α → ℤ) (S : α → Prop) (heap : MinHeap α) : Prop where
  admitted : ∀ p ∈ heap.toList, S p
  ordered : Ordered cmp heap.processes heap.size

theorem toList_eq_nil : heap.toList = [] ↔ heap.size = 0 := by
  rw [← List.length_eq_zero_iff, length_toList]

theorem InOrder.root_le (ho : InOrder cmp S heap) (hS : TotalPreorderOn cmp S) :
    ∀ q ∈ heap.toList, Le cmp (heap.processes 0) q := by
  intro q hq
  obtain ⟨k, hk, rfl⟩ := mem_toList.mp hq
  exact BinaryHeap.root_le hS (forall_toList.mp ho.admitted) ho.ordered hk

theorem insert_full (hfull : heap.capacity ≤ heap.size) :
    insertProcessMinHeap cmp heap process = heap := by
  rw [insertProcessMinHeap, if_pos hfull]

theorem InOrder.insert (ho : InOrder cmp S heap) (hS : TotalPreorderOn cmp S) (hp : S process) :
    InOrder cmp S (insertProcessMinHeap cmp heap process) := by
  by_cases hroom : heap.size < heap.capacity
  · refine ⟨?_, insert_ordered hS ho.admitted hp ho.ordered hroom⟩
    intro q hq
    rcases List.mem_append.mp ((insert_perm cmp process hroom).subset hq) with hq | hq
    · exact ho.admitted q hq
    · rw [List.mem_singleton.mp hq]
      exact hp
  · rw [insert_full (Nat.le_of_not_lt hroom)]
    exact ho

theorem InOrder.extract (ho : InOrder cmp S heap) (hS : TotalPreorderOn cmp S) :
    InOrder cmp S (extractMin cmp heap).2 := by
  refine ⟨?_, extractMin_ordered hS ho.admitted ho.ordered⟩
  by_cases hne : 0 < heap.size
  · intro q hq
    exact ho.admitted q ((extractMin_perm cmp hne).2.symm.subset (List.mem_cons_of_mem _ hq))
  · rw [extractMin_nil (by omega)]
    exact ho.admitted

/-- What a successful `extract_min` gives out. -/
theorem extractMin_some {p : α} (h : (extractMin cmp heap).1 = some p) :
    0 < heap.size ∧ p = heap.processes 0 := by
  have hne : 0 < heap.size := by
    apply Nat.pos_of_ne_zero
    intro hzero
    rw [extractMin_nil hzero] at h
    cases h
  rw [(extractMin_perm cmp hne).1, Option.some.injEq] at h
  exact ⟨hne, h.symm⟩

theorem extractMin_none : (extractMin cmp heap).1 = none ↔ heap.size = 0 := by
  constructor
  · intro h
    by_contra hne
    rw [(extractMin_perm cmp (Nat.pos_of_ne_zero hne)).1] at h
    cases h
  · intro h
    rw [extractMin_nil h]

/-- Extraction is popping a least element. -/
theorem popMin_pops (hS : TotalPreorderOn cmp S) :
    Pops (popMin cmp) MinHeap.toList (Le cmp) (InOrder cmp S) := by
  have hpop : ∀ {heap rest : MinHeap α} {p : α}, popMin cmp heap = some (p, rest) →
      (extractMin cmp heap).1 = some p ∧ (extractMin cmp heap).2 = rest := by
    intro heap rest p h
    obtain ⟨q, hq, heq⟩ := Option.map_eq_some_iff.mp h
    rw [Prod.mk.injEq] at heq
    exact ⟨heq.1 ▸ hq, heq.2⟩
  constructor
  · intro heap _ h
    exact toList_eq_nil.mpr (extractMin_none.mp (Option.map_eq_none_iff.mp h))
  · intro heap p rest ho h
    exact (hpop h).2 ▸ ho.extract hS
  · intro heap p rest ho h
    obtain ⟨hp, rfl⟩ := hpop h
    obtain ⟨hne, rfl⟩ := extractMin_some hp
    exact (extractMin_perm cmp hne).2
  · intro heap p rest ho h q hq
    obtain ⟨hp, rfl⟩ := hpop h
    obtain ⟨hne, rfl⟩ := extractMin_some hp
    exact ho.root_le hS q ((extractMin_perm cmp hne).2.symm.subset (List.mem_cons_of_mem _ hq))

end MinHeap

/-- The invariant of every history. -/
structure HistoryInv (cmp : α → α → ℤ) (S : α → Prop) (h : HeapHistory α) : Prop
    extends InOrder cmp S h.heap where
  contents : (h.extracted ++ h.heap.toList).Perm h.accepted

theorem historyInv_step (hS : TotalPreorderOn cmp S) (hinv : HistoryInv cmp S h)
    (hok : ∀ p, call = .insert p → S p) (hstep : h.next cmp call = some h') :
    HistoryInv cmp S h' := by
  cases call with
  | insert p =>
    cases hstep
    refine ⟨hinv.toInOrder.insert hS (hok p rfl), ?_⟩
    dsimp only
    split
    · rename_i hroom
      have hperm := (insert_perm cmp p hroom).append_left h.extracted
      rw [← List.append_assoc] at hperm
      exact hperm.trans (hinv.contents.append_right [p])
    · rename_i hfull
      rw [insert_full (Nat.le_of_not_lt hfull)]
      exact hinv.contents
  | extract =>
    cases hstep
    refine ⟨hinv.toInOrder.extract hS, ?_⟩
    dsimp only
    by_cases hne : 0 < h.heap.size
    · obtain ⟨hroot, hperm⟩ := extractMin_perm cmp hne
      rw [hroot, Option.toList_some, List.append_assoc]
      exact (hperm.symm.append_left h.extracted).trans hinv.contents
    · rw [extractMin_nil (Nat.eq_zero_of_not_pos hne), Option.toList_none, List.append_nil]
      exact hinv.contents

theorem heapCorrect_of_historyInv (hS : TotalPreorderOn cmp S) (hinv : HistoryInv cmp S h) :
    HeapCorrect cmp h := by
  have hlen : h.heap.toList.length ≤ h.heap.size := Nat.le_of_eq MinHeap.length_toList
  obtain ⟨hsorted, hdrained, hnil⟩ := (popMin_pops hS).drain_spec hinv.toInOrder hlen
  refine ⟨hinv.ordered, hinv.contents, extractMin_none, extractMin_nil, ?_, ?_,
    fun hfull _ => insert_full hfull, hsorted, hdrained, toList_eq_nil.mp hnil⟩
  · intro p hp
    obtain ⟨hne, rfl⟩ := extractMin_some hp
    exact ⟨mem_toList.mpr ⟨0, hne, rfl⟩, hinv.toInOrder.root_le hS⟩
  · intro p hp
    obtain ⟨hne, rfl⟩ := extractMin_some hp
    exact (extractMin_perm cmp hne).2

/-- The heap is correct after any sequence of calls, for any comparator that is a total preorder
on the processes inserted. -/
theorem heapCorrect_always (cmp : α → α → ℤ) (junk : α) (calls : List (HeapCall α))
    (hcmp : TotalPreorderOn cmp fun p => HeapCall.insert p ∈ calls) :
    Always (Guarded (fun _ _ => True) (HeapHistory.next cmp)) (.initial junk) calls
      (HeapCorrect cmp) := by
  intro pre h hp ht
  have hcalls : Throughout (Guarded (fun _ _ => True) (HeapHistory.next cmp)) (.initial junk) pre
      fun _ call => ∀ p, call = .insert p → HeapCall.insert p ∈ calls := by
    apply throughout_of_forall
    rintro call hmem p rfl
    exact hp.subset hmem
  refine heapCorrect_of_historyInv hcmp (ht.invariant_of_throughout hcalls ?_ ?_)
  · rintro h call h' hinv hok ⟨-, hstep⟩
    exact historyInv_step hcmp hinv hok hstep
  · refine ⟨⟨fun p hp => ?_, fun k _ hk => absurd hk (Nat.not_lt_zero k)⟩, .refl _⟩
    exact absurd hp List.not_mem_nil

/-- Three processes go in, two of them with as much time left, and the shortest comes out. -/
def threeCalls : List (HeapCall PCB) :=
  [.insert (Process.newPcb ⟨1, 0, 4, 0, 64⟩ 101 11 21),
    .insert (Process.newPcb ⟨2, 0, 2, 0, 64⟩ 102 12 22),
    .insert (Process.newPcb ⟨3, 0, 4, 0, 64⟩ 103 13 23), .extract]

theorem threeCalls_correct :
    ∃ h, Trace (Guarded (fun _ _ => True) (HeapHistory.next compareRemainingTime))
        (.initial emptyFront) threeCalls h ∧
      h.heap.size = 2 ∧ HeapCorrect compareRemainingTime h := by
  have hcmp : TotalPreorderOn compareRemainingTime fun p => HeapCall.insert p ∈ threeCalls := by
    refine totalPreorderOn_of_key fun a b ha hb => show _ ↔ a.remainingTime < b.remainingTime from ?_
    simp only [threeCalls, List.mem_cons, HeapCall.insert.injEq, reduceCtorEq, List.not_mem_nil,
      or_false] at ha hb
    rcases ha with rfl | rfl | rfl <;> rcases hb with rfl | rfl | rfl <;> decide
  obtain ⟨h, hrun, hsize⟩ := exists_trace_of_execute
    (R := fun h call h' => HeapHistory.next compareRemainingTime h call = some h')
    (fun _ _ _ hstep => hstep)
    (show (execute (fun _ _ => True) (HeapHistory.next compareRemainingTime)
      (.initial emptyFront) threeCalls).any (fun h => h.heap.size = 2) = true by decide +kernel)
  exact ⟨h, hrun, of_decide_eq_true hsize,
    heapCorrect_always compareRemainingTime emptyFront threeCalls hcmp _ h (List.prefix_refl _) hrun⟩

end KernelSim
