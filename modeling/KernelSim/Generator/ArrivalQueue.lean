import KernelSim.Generator.PriorityQueue
import KernelSim.Library.Popping
import KernelSim.Library.Runs

/-! The queue of the processes to come, over every sequence of pushes and pops. -/
namespace KernelSim
open Runs BinaryHeap PriorityQueue

inductive QueueCall
  | push (value : Process)
  | pop

/-- The queue with what was pushed and what was popped so far. -/
structure QueueHistory where
  pq : PriorityQueue
  pushed : List Process
  popped : List Process

namespace QueueHistory

def initial (capacity : ℕ) (mode : SortMode) (junk : Process) : QueueHistory :=
  { pq := pqInit capacity mode junk, pushed := [], popped := [] }

/-- `pq_top` and `pq_pop` are called only where `pq_empty` is false. -/
def next (h : QueueHistory) : QueueCall → Option QueueHistory
  | .push value => some { h with pq := pqPush h.pq value, pushed := h.pushed ++ [value] }
  | .pop =>
    if pqEmpty h.pq then none
    else some { h with pq := pqPop h.pq, popped := h.popped ++ [pqTop h.pq] }

end QueueHistory

/-- By arrival time, and then by priority in the second mode. -/
def SortMode.NotAfter (mode : SortMode) (a b : Process) : Prop :=
  a.arrivalTime < b.arrivalTime ∨
    a.arrivalTime = b.arrivalTime ∧ (mode = .sortByArrivalThenPriority → a.priority ≤ b.priority)

/-- The queue is in order inside its array, holds what was pushed less what was popped, and gives
it out sorted. -/
structure QueueCorrect (mode : SortMode) (h : QueueHistory) : Prop where
  ordered : ∀ k, 0 < k → k < h.pq.size →
    ¬ compareProcesses mode (h.pq.data k) (h.pq.data (parent k)) < 0
  top : pqEmpty h.pq = false → pqTop h.pq ∈ h.pq.toList ∧
    ∀ p ∈ h.pq.toList, compareProcesses mode (pqTop h.pq) p ≤ 0
  contents : (h.popped ++ h.pq.toList).Perm h.pushed
  size_le : h.pq.size ≤ h.pq.capacity
  push_inside : ∀ value, ∀ i ∈ pqPushPlaces h.pq value, i < (pqPush h.pq value).size
  pop_inside : pqEmpty h.pq = false → ∀ i ∈ pqPopPlaces h.pq, i < h.pq.size
  sorted : h.pq.drain.Pairwise mode.NotAfter
  drained : (h.popped ++ h.pq.drain).Perm h.pushed

variable {mode : SortMode} {S : Process → Prop} {pq : PriorityQueue} {h h' : QueueHistory}
  {call : QueueCall} {a b : Process}

namespace PriorityQueue

/-- A push stays below the size it leaves, in the copy and in the new array. -/
theorem pqPushPlaces_lt (pq : PriorityQueue) (value : Process) :
    ∀ i ∈ pqPushPlaces pq value, i < (pqPush pq value).size := by
  intro i hi
  rw [pqPush_size]
  rcases List.mem_append.mp hi with hi | hi
  · split at hi
    · exact Nat.lt_succ_of_lt (List.mem_range.mp hi)
    · exact absurd hi List.not_mem_nil
  · exact Nat.lt_succ_of_le (siftHolePlaces_le i hi)

/-- A pop stays below the size it finds. -/
theorem pqPopPlaces_lt (hne : 0 < pq.size) : ∀ i ∈ pqPopPlaces pq, i < pq.size := by
  intro i hi
  rcases List.mem_cons.mp hi with rfl | hi
  · exact hne
  rcases List.mem_cons.mp hi with rfl | hi
  · omega
  · have hlt := siftDownPlaces_lt i hi
    omega

theorem notAfter_of_le (hS : Subtractable mode S) (ha : S a) (hb : S b)
    (hle : Le (compareProcesses mode) a b) : mode.NotAfter a b := by
  unfold Le at hle
  rw [compareProcesses_lt hS hb ha] at hle
  unfold SortMode.NotAfter
  by_cases hm : mode = .sortByArrivalThenPriority
  · simp only [hm, true_and, true_implies] at hle ⊢
    omega
  · simp only [hm, false_and, or_false, false_implies, and_true] at hle ⊢
    omega

theorem compareProcesses_le (hS : Subtractable mode S) (ha : S a) (hb : S b)
    (hle : Le (compareProcesses mode) a b) : compareProcesses mode a b ≤ 0 := by
  have hflip := compareProcesses_antisymmetric hS a b ha hb
  unfold Le at hle
  omega

/-- `pq_top` and `pq_pop` as one operation that may find nothing. -/
def popTop (pq : PriorityQueue) : Option (Process × PriorityQueue) :=
  if pqEmpty pq then none else some (pqTop pq, pqPop pq)

theorem popTop_some {rest : PriorityQueue} (h : popTop pq = some (a, rest)) :
    0 < pq.size ∧ a = pqTop pq ∧ rest = pqPop pq := by
  simp only [popTop, Option.ite_none_left_eq_some, Option.some.injEq, Prod.mk.injEq] at h
  obtain ⟨hne, rfl, rfl⟩ := h
  exact ⟨size_pos (Bool.eq_false_iff.mpr hne), rfl, rfl⟩

/-- Popping takes out a process that no other one goes before. -/
theorem popTop_pops (hS : Subtractable mode S) :
    Popping.Pops popTop PriorityQueue.toList mode.NotAfter
      fun pq => Arranged S pq ∧ pq.sortMode = mode := by
  constructor
  · intro pq _ hnone
    apply toList_eq_nil.mpr
    simpa [popTop] using hnone
  · rintro pq p rest ⟨harr, rfl⟩ hpop
    obtain ⟨hne, -, rfl⟩ := popTop_some hpop
    exact ⟨pqPop_arranged hS harr hne, rfl⟩
  · rintro pq p rest - hpop
    obtain ⟨hne, rfl, rfl⟩ := popTop_some hpop
    exact pqPop_perm hne
  · rintro pq p rest ⟨harr, rfl⟩ hpop q hq
    obtain ⟨hne, rfl, rfl⟩ := popTop_some hpop
    have hmem : q ∈ pq.toList := (pqPop_perm hne).symm.subset (List.mem_cons_of_mem _ hq)
    exact notAfter_of_le hS (harr.admitted _ (mem_pqTop hne)) (harr.admitted q hmem)
      (harr.top_le hS hmem)

/-- Popping until the queue is empty takes as many pops as there are processes. -/
theorem drain_popTop {fuel : ℕ} (hfuel : fuel ≤ pq.size) :
    (Popping.drain popTop fuel pq).1 = popOrder fuel pq := by
  induction fuel generalizing pq with
  | zero => rfl
  | succ fuel ih =>
    have hne : pqEmpty pq = false := by
      rw [pqEmpty, beq_eq_false_iff_ne]
      omega
    have hpop : popTop pq = some (pqTop pq, pqPop pq) := by simp [popTop, hne]
    have hrest : fuel ≤ (pqPop pq).size := by
      rw [pqPop_size]
      omega
    simp only [Popping.drain, hpop, popOrder, ih hrest]

theorem drain_sorted (hS : Subtractable mode S) (harr : Arranged S pq) (hm : pq.sortMode = mode) :
    pq.drain.Pairwise mode.NotAfter ∧ pq.drain.Perm pq.toList := by
  have hlen : pq.toList.length ≤ pq.size := Nat.le_of_eq length_toList
  obtain ⟨hsorted, hperm, -⟩ := (popTop_pops hS).drain_spec ⟨harr, hm⟩ hlen
  rw [drain_popTop (Nat.le_refl _)] at hsorted hperm
  exact ⟨hsorted, hperm⟩

end PriorityQueue

/-- The invariant of every history. -/
structure QueueInv (mode : SortMode) (S : Process → Prop) (h : QueueHistory) : Prop
    extends Arranged S h.pq where
  mode_eq : h.pq.sortMode = mode
  contents : (h.popped ++ h.pq.toList).Perm h.pushed

theorem queueInv_step (hS : Subtractable mode S) (hinv : QueueInv mode S h)
    (hok : ∀ p, call = .push p → S p) (hstep : h.next call = some h') : QueueInv mode S h' := by
  obtain ⟨harr, rfl, hcontents⟩ := hinv
  cases call with
  | push p =>
    cases hstep
    refine ⟨pqPush_arranged hS harr (hok p rfl), pqPush_sortMode, ?_⟩
    have hperm := (pqPush_perm h.pq p).append_left h.popped
    rw [← List.append_assoc] at hperm
    exact hperm.trans (hcontents.append_right [p])
  | pop =>
    simp only [QueueHistory.next, Option.ite_none_left_eq_some, Option.some.injEq] at hstep
    obtain ⟨hne, rfl⟩ := hstep
    have hpos := size_pos (Bool.eq_false_iff.mpr hne)
    refine ⟨pqPop_arranged hS harr hpos, rfl, ?_⟩
    rw [List.append_assoc]
    exact ((pqPop_perm hpos).symm.append_left h.popped).trans hcontents

theorem queueCorrect_of_queueInv (hS : Subtractable mode S) (hinv : QueueInv mode S h) :
    QueueCorrect mode h := by
  obtain ⟨harr, rfl, hcontents⟩ := hinv
  obtain ⟨hsorted, hperm⟩ := drain_sorted hS harr rfl
  refine ⟨harr.ordered, ?_, hcontents, harr.size_le, pqPushPlaces_lt h.pq, ?_, hsorted,
    (hperm.append_left h.popped).trans hcontents⟩
  · intro hne
    have htop := mem_pqTop (size_pos hne)
    refine ⟨htop, fun p hp => ?_⟩
    exact compareProcesses_le hS (harr.admitted _ htop) (harr.admitted p hp) (harr.top_le hS hp)
  · exact fun hne => pqPopPlaces_lt (size_pos hne)

/-- The queue is correct after any sequence of calls, in both modes and from any capacity. -/
theorem queueCorrect_always (capacity : ℕ) (mode : SortMode) (junk : Process)
    (calls : List QueueCall) (hcap : 1 ≤ capacity)
    (hfits : Subtractable mode fun p => QueueCall.push p ∈ calls) :
    Always (Guarded (fun _ _ => True) QueueHistory.next) (.initial capacity mode junk) calls
      (QueueCorrect mode) := by
  intro pre h hp ht
  have hcalls : Throughout (Guarded (fun _ _ => True) QueueHistory.next)
      (.initial capacity mode junk) pre
      fun _ call => ∀ p, call = .push p → QueueCall.push p ∈ calls := by
    apply throughout_of_forall
    rintro call hmem p rfl
    exact hp.subset hmem
  refine queueCorrect_of_queueInv hfits (ht.invariant_of_throughout hcalls ?_ ?_)
  · rintro h call h' hinv hok ⟨-, hstep⟩
    exact queueInv_step hfits hinv hok hstep
  · refine ⟨⟨hcap, Nat.zero_le _, fun p hp => ?_, fun k _ hk => ?_⟩, rfl, .refl _⟩
    · exact absurd hp List.not_mem_nil
    · exact absurd hk (Nat.not_lt_zero k)

/-- Three processes are pushed, through two resizes, and the first of them is popped. -/
def threePushes : List QueueCall :=
  [.push ⟨1, 5, 3, 2, 64⟩, .push ⟨2, -4, 3, 7, 64⟩, .push ⟨3, 5, 3, -1, 64⟩, .pop]

theorem threePushes_correct :
    ∃ h, Trace (Guarded (fun _ _ => True) QueueHistory.next)
        (.initial 1 .sortByArrivalThenPriority ⟨0, 0, 0, 0, 0⟩) threePushes h ∧
      h.popped.map Process.id = [2] ∧ h.pq.drain.map Process.id = [3, 1] ∧
      QueueCorrect .sortByArrivalThenPriority h := by
  have hfits : Subtractable .sortByArrivalThenPriority fun p => QueueCall.push p ∈ threePushes := by
    intro a b ha hb
    simp only [threePushes, List.mem_cons, QueueCall.push.injEq, reduceCtorEq, List.not_mem_nil,
      or_false] at ha hb
    unfold FitsInt
    rcases ha with rfl | rfl | rfl <;> rcases hb with rfl | rfl | rfl <;> decide
  obtain ⟨h, hrun, htest⟩ := exists_trace_of_execute
    (R := fun h call h' => QueueHistory.next h call = some h') (fun _ _ _ hstep => hstep)
    (show (execute (fun _ _ => True) QueueHistory.next
      (.initial 1 .sortByArrivalThenPriority ⟨0, 0, 0, 0, 0⟩) threePushes).any (fun h =>
        h.popped.map Process.id = [2] ∧ h.pq.drain.map Process.id = [3, 1]) = true by
          decide +kernel)
  obtain ⟨hpopped, hdrain⟩ := of_decide_eq_true htest
  exact ⟨h, hrun, hpopped, hdrain, queueCorrect_always 1 .sortByArrivalThenPriority
    ⟨0, 0, 0, 0, 0⟩ threePushes (Nat.le_refl 1) hfits _ h (List.prefix_refl _) hrun⟩

end KernelSim
