import KernelSim.Scheduler.ReadyStructures
import KernelSim.Library.Simulation

/-! `DS/Queue.c` as a first-in first-out list, over any sequence of calls. -/
namespace KernelSim
open RingBuffer Simulation

inductive ReadyQueueCall
  | enqueue (value : PCB)
  | dequeue
  | front
  deriving DecidableEq, Repr

namespace ReadyQueueCall

/-- A call on the circular array. Only `queue_front` returns something. -/
def onRing (q : PCBQueue) : ReadyQueueCall → PCBQueue × Option PCB
  | enqueue value => (queueEnqueue q value, none)
  | dequeue => (queueDequeue q, none)
  | front => (q, some (queueFront q))

/-- The same call on the list of the elements, oldest first. -/
def onList (held : List PCB) : ReadyQueueCall → List PCB × Option PCB
  | enqueue value => (held ++ [value], none)
  | dequeue => (held.tail, none)
  | front => (held, some (held.headD emptyFront))

end ReadyQueueCall

/-- The circular array holds the elements of a list, and its indices are where they should be. -/
structure StandsFor (q : PCBQueue) (held : List PCB) : Prop where
  toList_eq : q.toList = held
  empty_iff : queueEmpty q = true ↔ held.length = 0
  full_iff : queueFull q = true ↔ held.length = q.capacity
  front_lt : q.front < q.capacity
  rear_eq : q.rear = (q.front + q.size) % q.capacity
  size_le : q.size ≤ q.capacity

variable {q : PCBQueue} {held : List PCB}

theorem queueEmpty_eq_true : queueEmpty q = true ↔ q.size = 0 := beq_iff_eq

theorem queueFull_eq_true : queueFull q = true ↔ q.size = q.capacity := beq_iff_eq

theorem queueDequeue_empty (h : q.size = 0) : queueDequeue q = q :=
  if_pos (queueEmpty_eq_true.mpr h)

theorem queueFront_empty (h : q.size = 0) : queueFront q = emptyFront :=
  if_pos (queueEmpty_eq_true.mpr h)

/-- What `queue_front` returns, empty or not. -/
theorem queueFront_eq (h : q.Valid) : queueFront q = q.toList.headD emptyFront := by
  rcases Nat.eq_zero_or_pos q.size with hz | hpos
  · rw [queueFront_empty hz, Ring.toList_eq_nil.mpr hz]
    rfl
  · obtain ⟨-, hlist⟩ := queueDequeue_spec h hpos
    rw [hlist]
    rfl

theorem queueDequeue_toList (h : q.Valid) :
    (queueDequeue q).Valid ∧ (queueDequeue q).toList = q.toList.tail := by
  rcases Nat.eq_zero_or_pos q.size with hz | hpos
  · rw [queueDequeue_empty hz, Ring.toList_eq_nil.mpr hz]
    exact ⟨h, rfl⟩
  · obtain ⟨hvalid, hlist⟩ := queueDequeue_spec h hpos
    rw [hlist]
    exact ⟨hvalid, rfl⟩

theorem standsFor_of_valid (h : q.Valid) : StandsFor q q.toList where
  toList_eq := rfl
  empty_iff := by rw [queueEmpty_eq_true, Ring.length_toList]
  full_iff := by rw [queueFull_eq_true, Ring.length_toList]
  front_lt := h.front_lt
  rear_eq := h.rear_eq
  size_le := h.size_le

/-- What the calls preserve: valid indices, and the list of what the array holds. -/
theorem onRing_simulates :
    Simulates (fun q held => q.Valid ∧ q.toList = held) ReadyQueueCall.onRing ReadyQueueCall.onList := by
  rintro q _ call ⟨h, rfl⟩
  cases call with
  | enqueue value => exact ⟨rfl, queueEnqueue_spec h value⟩
  | dequeue => exact ⟨rfl, queueDequeue_toList h⟩
  | front => exact ⟨congrArg some (queueFront_eq h), h, rfl⟩

theorem queueInit_toList (capacity : ℕ) (junk : PCB) : (queueInit capacity junk).toList = [] := rfl

/-- Every sequence of calls gets the answers that the list gives, whatever the capacity. -/
theorem queue_refines_list {capacity : ℕ} (junk : PCB) (hcap : 1 ≤ capacity)
    (calls : List ReadyQueueCall) :
    answers ReadyQueueCall.onRing (queueInit capacity junk) calls =
        answers ReadyQueueCall.onList [] calls ∧
      StandsFor (after ReadyQueueCall.onRing (queueInit capacity junk) calls)
        (after ReadyQueueCall.onList [] calls) := by
  obtain ⟨hanswers, hvalid, hlist⟩ := onRing_simulates.run calls
    ⟨queueInit_valid junk hcap, queueInit_toList capacity junk⟩
  exact ⟨hanswers, hlist ▸ standsFor_of_valid hvalid⟩

/-- An array for one process grows twice, the second time with its front inside. -/
def growingCalls : List ReadyQueueCall :=
  [.enqueue emptyFront, .enqueue { emptyFront with pid := 1 }, .dequeue,
    .enqueue { emptyFront with pid := 2 }, .enqueue { emptyFront with pid := 3 }, .dequeue, .front]

theorem queue_refines_list_growing :
    answers ReadyQueueCall.onRing (queueInit 1 emptyFront) growingCalls =
        [none, none, none, none, none, none, some { emptyFront with pid := 2 }] ∧
      StandsFor (after ReadyQueueCall.onRing (queueInit 1 emptyFront) growingCalls)
        [{ emptyFront with pid := 2 }, { emptyFront with pid := 3 }] := by
  exact queue_refines_list emptyFront (Nat.le_refl 1) growingCalls

end KernelSim
