import Mathlib.Data.Prod.Lex
import KernelSim.Generator.PriorityQueue
import KernelSim.Scheduler.ReadyStructures

/-! The comparators of `DS/comparators.c` and `DS/priorityQueue.c` over all of `int`. -/
namespace KernelSim
open BinaryHeap PriorityQueue

/-- The sign of the result orders the records of `S` as their keys are ordered. -/
structure Faithful {α κ : Type} [LinearOrder κ] (cmp : α → α → ℤ) (key : α → κ)
    (S : Set α) : Prop where
  negative : ∀ a ∈ S, ∀ b ∈ S, (cmp a b < 0 ↔ key a < key b)
  zero : ∀ a ∈ S, ∀ b ∈ S, (cmp a b = 0 ↔ key a = key b)
  positive : ∀ a ∈ S, ∀ b ∈ S, (0 < cmp a b ↔ key b < key a)
  transitive : ∀ a ∈ S, ∀ b ∈ S, ∀ c ∈ S, cmp a b ≤ 0 → cmp b c ≤ 0 → cmp a c ≤ 0
  preorder : TotalPreorderOn cmp (· ∈ S)

/-- No two keys are as far apart as half the range of `int`. -/
def Near {α : Type} (key : α → ℤ) (S : Set α) : Prop :=
  ∀ a ∈ S, ∀ b ∈ S, key a - key b < 2 ^ 31

/-- What `compare_processes` compares in its second mode. -/
def Process.lexKey (p : Process) : ℤ ×ₗ ℤ := toLex (p.arrivalTime, p.priority)

structure ComparatorsFaithful (S : Set PCB) (T : Set Process) : Prop where
  remainingTime : Faithful compareRemainingTime PCB.remainingTime S
  priority : Faithful comparePriority PCB.priority S
  arrivalTime : Faithful compareArrivalTime PCB.arrivalTime S
  byArrivalTime : Faithful (compareProcesses .sortByArrivalTime) Process.arrivalTime T
  byArrivalThenPriority :
    Faithful (compareProcesses .sortByArrivalThenPriority) Process.lexKey T

structure KeysNear (S : Set PCB) (T : Set Process) : Prop where
  remainingTime : Near PCB.remainingTime S
  priority : Near PCB.priority S
  arrivalTime : Near PCB.arrivalTime S
  arrivals : Near Process.arrivalTime T
  /-- The priorities are compared only where the arrival times are equal. -/
  priorities : ∀ t, Near Process.priority {p | p ∈ T ∧ p.arrivalTime = t}

/-- The keys are `int`s. -/
def PCB.IntKeys (p : PCB) : Prop :=
  FitsInt p.remainingTime ∧ FitsInt p.priority ∧ FitsInt p.arrivalTime

def Process.IntKeys (p : Process) : Prop := FitsInt p.arrivalTime ∧ FitsInt p.priority

section Difference

variable {α κ : Type} [LinearOrder κ] {cmp : α → α → ℤ} {key : α → κ} {S : Set α} {x y : ℤ}

theorem faithful_of_sign (hneg : ∀ a ∈ S, ∀ b ∈ S, (cmp a b < 0 ↔ key a < key b))
    (hpos : ∀ a ∈ S, ∀ b ∈ S, (0 < cmp a b ↔ key b < key a)) :
    Faithful cmp key S where
  negative := hneg
  zero := by
    intro a ha b hb
    have hneg := hneg a ha b hb
    have hpos := hpos a ha b hb
    constructor
    · intro h
      apply le_antisymm
      · exact not_lt.mp fun hlt => absurd (hpos.mpr hlt) (by omega)
      · exact not_lt.mp fun hlt => absurd (hneg.mpr hlt) (by omega)
    · intro h
      have h1 : ¬ cmp a b < 0 := fun hlt => absurd (hneg.mp hlt) h.not_lt
      have h2 : ¬ 0 < cmp a b := fun hlt => absurd (hpos.mp hlt) h.not_gt
      omega
  positive := hpos
  transitive := by
    intro a ha b hb c hc hab hbc
    have hle : ∀ a ∈ S, ∀ b ∈ S, (cmp a b ≤ 0 ↔ key a ≤ key b) := by
      intro a ha b hb
      rw [← not_lt, hpos a ha b hb, not_lt]
    rw [hle a ha b hb] at hab
    rw [hle b hb c hc] at hbc
    exact (hle a ha c hc).mpr (hab.trans hbc)
  preorder := totalPreorderOn_of_key fun a b ha hb => hneg a ha b hb

theorem wrap32_sub_of_lt (h1 : x - y < 2 ^ 31) (h2 : y - x < 2 ^ 31) : wrap32 (x - y) = x - y :=
  wrap32_eq (by omega) h1

/-- Past half the range the difference changes its sign. -/
theorem wrap32_sub_neg (hx : FitsInt x) (hy : FitsInt y) (h : 2 ^ 31 ≤ x - y) :
    wrap32 (x - y) < 0 := by
  obtain ⟨hx0, hx1⟩ := hx
  obtain ⟨hy0, hy1⟩ := hy
  have hmod : (x - y) % (2 ^ 32 : ℕ) = x - y := Int.emod_eq_of_lt (by omega) (by omega)
  rw [wrap32, Int.bmod_def, hmod]
  split <;> omega

/-- A wrapped difference has the sign of the difference where the keys are near, and there only. -/
theorem near_iff (key : α → ℤ) (hS : ∀ a ∈ S, FitsInt (key a)) :
    Faithful (fun a b => wrap32 (key a - key b)) key S ↔ Near key S := by
  constructor
  · intro h a ha b hb
    by_contra hfar
    have hneg := wrap32_sub_neg (hS a ha) (hS b hb) (not_lt.mp hfar)
    have := (h.negative a ha b hb).mp hneg
    omega
  · intro h
    apply faithful_of_sign
    · intro a ha b hb
      rw [wrap32_sub_of_lt (h a ha b hb) (h b hb a ha)]
      omega
    · intro a ha b hb
      rw [wrap32_sub_of_lt (h a ha b hb) (h b hb a ha)]
      omega

end Difference

variable {S : Set PCB} {T : Set Process} {p q : Process} {t : ℤ}

theorem lexKey_lt : p.lexKey < q.lexKey ↔
    p.arrivalTime < q.arrivalTime ∨ p.arrivalTime = q.arrivalTime ∧ p.priority < q.priority :=
  Prod.Lex.toLex_lt_toLex

/-- The second mode is the first one where the arrival times differ. -/
theorem compareProcesses_of_ne (h : p.arrivalTime ≠ q.arrivalTime) :
    compareProcesses .sortByArrivalThenPriority p q = wrap32 (p.arrivalTime - q.arrivalTime) :=
  if_pos h

theorem compareProcesses_of_eq (h : p.arrivalTime = q.arrivalTime) :
    compareProcesses .sortByArrivalThenPriority p q = wrap32 (p.priority - q.priority) :=
  if_neg (not_not.mpr h)

theorem near_of_lexFaithful (hT : ∀ p ∈ T, p.IntKeys)
    (h : Faithful (compareProcesses .sortByArrivalThenPriority) Process.lexKey T) (t : ℤ) :
    Near Process.priority {p | p ∈ T ∧ p.arrivalTime = t} := by
  rintro p ⟨hp, rfl⟩ q ⟨hq, heq⟩
  by_contra hfar
  have hneg := wrap32_sub_neg (hT p hp).2 (hT q hq).2 (not_lt.mp hfar)
  rw [← compareProcesses_of_eq heq.symm, h.negative p hp q hq, lexKey_lt] at hneg
  omega

theorem lexFaithful_of_near (harrival : Near Process.arrivalTime T)
    (hpriority : ∀ t, Near Process.priority {p | p ∈ T ∧ p.arrivalTime = t}) :
    Faithful (compareProcesses .sortByArrivalThenPriority) Process.lexKey T := by
  have hcompare : ∀ p ∈ T, ∀ q ∈ T, compareProcesses .sortByArrivalThenPriority p q =
      if p.arrivalTime = q.arrivalTime then p.priority - q.priority
      else p.arrivalTime - q.arrivalTime := by
    intro p hp q hq
    split
    · rename_i heq
      rw [compareProcesses_of_eq heq]
      exact wrap32_sub_of_lt (hpriority _ p ⟨hp, heq⟩ q ⟨hq, rfl⟩)
        (hpriority _ q ⟨hq, rfl⟩ p ⟨hp, heq⟩)
    · rename_i hne
      rw [compareProcesses_of_ne hne]
      exact wrap32_sub_of_lt (harrival p hp q hq) (harrival q hq p hp)
  apply faithful_of_sign
  · intro p hp q hq
    rw [hcompare p hp q hq, lexKey_lt]
    split <;> omega
  · intro p hp q hq
    rw [hcompare p hp q hq, lexKey_lt]
    split <;> omega

/-- All comparators order the records by their keys just where no difference of two keys that
are compared overflows. -/
theorem comparatorsFaithful_iff (hS : ∀ p ∈ S, p.IntKeys) (hT : ∀ p ∈ T, p.IntKeys) :
    ComparatorsFaithful S T ↔ KeysNear S T := by
  have hremaining := near_iff (S := S) PCB.remainingTime fun p hp => (hS p hp).1
  have hpriority := near_iff (S := S) PCB.priority fun p hp => (hS p hp).2.1
  have harrival := near_iff (S := S) PCB.arrivalTime fun p hp => (hS p hp).2.2
  have harrivals := near_iff (S := T) Process.arrivalTime fun p hp => (hT p hp).1
  constructor
  · intro h
    exact ⟨hremaining.mp h.remainingTime, hpriority.mp h.priority, harrival.mp h.arrivalTime,
      harrivals.mp h.byArrivalTime, near_of_lexFaithful hT h.byArrivalThenPriority⟩
  · intro h
    exact ⟨hremaining.mpr h.remainingTime, hpriority.mpr h.priority, harrival.mpr h.arrivalTime,
      harrivals.mpr h.arrivals, lexFaithful_of_near h.arrivals h.priorities⟩

/-- No negative keys, and no bound on the others but that of `int`. -/
theorem nonnegative_comparatorsFaithful :
    ComparatorsFaithful
      {p | p.IntKeys ∧ 0 ≤ p.remainingTime ∧ 0 ≤ p.priority ∧ 0 ≤ p.arrivalTime}
      {p | p.IntKeys ∧ 0 ≤ p.arrivalTime ∧ 0 ≤ p.priority} := by
  refine (comparatorsFaithful_iff (fun p hp => hp.1) (fun p hp => hp.1)).mpr ?_
  constructor
  · rintro p ⟨⟨⟨-, h⟩, -⟩, -⟩ q ⟨-, h0, -⟩
    omega
  · rintro p ⟨⟨-, ⟨-, h⟩, -⟩, -⟩ q ⟨-, -, h0, -⟩
    omega
  · rintro p ⟨⟨-, -, -, h⟩, -⟩ q ⟨-, -, -, h0⟩
    omega
  · rintro p ⟨⟨⟨-, h⟩, -⟩, -⟩ q ⟨-, h0, -⟩
    omega
  · rintro t p ⟨⟨⟨-, -, h⟩, -⟩, -⟩ q ⟨⟨-, -, h0⟩, -⟩
    omega

/-- A PCB with this `remaining_time`. -/
def withRemaining (remainingTime : ℤ) : PCB := { emptyFront with remainingTime }

/-- Three PCBs in order, the first of which comes out greater than the last. -/
theorem farKeys_not_faithful :
    compareRemainingTime (withRemaining (-2 ^ 31)) (withRemaining 0) < 0 ∧
      compareRemainingTime (withRemaining 0) (withRemaining (2 ^ 31 - 1)) < 0 ∧
      0 < compareRemainingTime (withRemaining (-2 ^ 31)) (withRemaining (2 ^ 31 - 1)) ∧
      ¬ ComparatorsFaithful {p | p.IntKeys} {p | p.IntKeys} := by
  have hpos : 0 < compareRemainingTime (withRemaining (-2 ^ 31)) (withRemaining (2 ^ 31 - 1)) := by
    decide
  refine ⟨by decide, by decide, hpos, ?_⟩
  intro h
  have hzero : FitsInt 0 := ⟨by omega, by omega⟩
  have hkeys : ∀ x, FitsInt x → (withRemaining x).IntKeys := fun x hx => ⟨hx, hzero, hzero⟩
  have hlow := hkeys (-2 ^ 31) ⟨by omega, by omega⟩
  have hhigh := hkeys (2 ^ 31 - 1) ⟨by omega, by omega⟩
  exact absurd ((h.remainingTime.positive _ hlow _ hhigh).mp hpos) (by decide)

end KernelSim
