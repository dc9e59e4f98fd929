import Mathlib.Data.List.Basic
import Mathlib.Data.Nat.ModEq
import Mathlib.Logic.Function.Basic

/-! A first-in first-out queue in a circular array. -/
namespace RingBuffer

universe u

/-- `size` elements from `front` on, wrapping round at `capacity`; `rear` is the next free place. -/
structure Ring (α : Type u) where
  data : ℕ → α
  front : ℕ
  rear : ℕ
  size : ℕ
  capacity : ℕ

variable {α : Type u}

namespace Ring

structure Valid (q : Ring α) : Prop where
  capacity_pos : 0 < q.capacity
  front_lt : q.front < q.capacity
  rear_eq : q.rear = (q.front + q.size) % q.capacity
  size_le : q.size ≤ q.capacity

def slot (q : Ring α) (i : ℕ) : ℕ := (q.front + i) % q.capacity

/-- The queue the ring stands for, oldest first. -/
def toList (q : Ring α) : List α := (List.range q.size).map fun i => q.data (q.slot i)

/-- The elements moved to the start of a larger array. -/
def resize (q : Ring α) (capacity : ℕ) : Ring α :=
  { data := fun i => q.data (q.slot i), front := 0, rear := q.size, size := q.size, capacity }

def push (q : Ring α) (a : α) : Ring α :=
  { q with
    data := Function.update q.data q.rear a
    rear := (q.rear + 1) % q.capacity
    size := q.size + 1 }

def pop (q : Ring α) : Ring α :=
  { q with front := (q.front + 1) % q.capacity, size := q.size - 1 }

variable {q : Ring α} {a : α} {i j c : ℕ}

@[simp] theorem length_toList : q.toList.length = q.size := by simp [toList]

theorem toList_eq_nil : q.toList = [] ↔ q.size = 0 := by
  rw [← List.length_eq_zero_iff, length_toList]

/-- Different elements sit in different places. -/
theorem slot_inj (hi : i < q.capacity) (hj : j < q.capacity)
    (heq : q.slot i = q.slot j) : i = j := by
  have : i ≡ j [MOD q.capacity] := Nat.ModEq.add_left_cancel' q.front heq
  rwa [Nat.ModEq, Nat.mod_eq_of_lt hi, Nat.mod_eq_of_lt hj] at this

theorem valid_resize (hc : q.size < c) : (q.resize c).Valid where
  capacity_pos := by
    show 0 < c
    omega
  front_lt := by
    show 0 < c
    omega
  rear_eq := by
    show q.size = (0 + q.size) % c
    rw [Nat.zero_add, Nat.mod_eq_of_lt hc]
  size_le := Nat.le_of_lt hc

theorem toList_resize (hc : q.size ≤ c) : (q.resize c).toList = q.toList := by
  apply List.map_congr_left
  intro i hi
  have hi : i < q.size := List.mem_range.mp hi
  show q.data (q.slot ((0 + i) % c)) = q.data (q.slot i)
  rw [Nat.zero_add, Nat.mod_eq_of_lt (by omega)]

theorem valid_push (h : q.Valid) (hroom : q.size < q.capacity) : (q.push a).Valid where
  capacity_pos := h.capacity_pos
  front_lt := h.front_lt
  rear_eq := by
    show (q.rear + 1) % q.capacity = (q.front + (q.size + 1)) % q.capacity
    rw [h.rear_eq, Nat.mod_add_mod, Nat.add_assoc]
  size_le := hroom

theorem toList_push (h : q.Valid) (hroom : q.size < q.capacity) :
    (q.push a).toList = q.toList ++ [a] := by
  have hrear : q.rear = q.slot q.size := h.rear_eq
  show (List.range (q.size + 1)).map (fun i => (q.push a).data ((q.push a).slot i)) = _
  rw [List.range_succ, List.map_append, List.map_singleton]
  congr 1
  · apply List.map_congr_left
    intro i hi
    have hi : i < q.size := List.mem_range.mp hi
    have hne : q.slot i ≠ q.rear := by
      intro heq
      have := slot_inj (by omega) hroom (heq.trans hrear)
      omega
    show Function.update q.data q.rear a (q.slot i) = q.data (q.slot i)
    rw [Function.update_of_ne hne]
  · show [Function.update q.data q.rear a (q.slot q.size)] = [a]
    rw [← hrear, Function.update_self]

theorem valid_pop (h : q.Valid) (hne : 0 < q.size) : q.pop.Valid where
  capacity_pos := h.capacity_pos
  front_lt := Nat.mod_lt _ h.capacity_pos
  rear_eq := by
    show q.rear = ((q.front + 1) % q.capacity + (q.size - 1)) % q.capacity
    rw [Nat.mod_add_mod, h.rear_eq]
    congr 1
    omega
  size_le := by
    show q.size - 1 ≤ q.capacity
    have := h.size_le
    omega

theorem toList_pop (h : q.Valid) (hne : 0 < q.size) :
    q.toList = q.data q.front :: q.pop.toList := by
  obtain ⟨n, hn⟩ : ∃ n, q.size = n + 1 := ⟨q.size - 1, by omega⟩
  have hfront : q.slot 0 = q.front := Nat.mod_eq_of_lt h.front_lt
  have hpop : q.pop.size = n := by
    show q.size - 1 = n
    omega
  rw [toList, toList, hn, hpop, List.range_succ_eq_map, List.map_cons, List.map_map, hfront]
  congr 1
  apply List.map_congr_left
  intro i _
  show q.data ((q.front + (i + 1)) % q.capacity) =
    q.data (((q.front + 1) % q.capacity + i) % q.capacity)
  rw [Nat.mod_add_mod, Nat.add_assoc, Nat.add_comm 1 i]

end Ring

end RingBuffer
