import KernelSim.Library.Dyadic

/-! First fit: the lowest slot of a range that passes a test. -/
namespace FirstFit
open Dyadic

/-- The slots of width `n` below `span`, from the lowest up. -/
def slots (span n : ℤ) : List ℤ := (List.range (span / n).toNat).map fun i : ℕ => (i : ℤ) * n

/-- The first slot that is open. -/
def firstSlot (span n : ℤ) (isOpen : ℤ → Bool) : Option ℤ := (slots span n).find? isOpen

variable {span n x : ℤ} {isOpen : ℤ → Bool}

theorem mem_slots (hn : 0 < n) : x ∈ slots span n ↔ Slot 0 span n x := by
  simp only [slots, List.mem_map, List.mem_range, Slot]
  constructor
  · rintro ⟨i, hi, rfl⟩
    refine ⟨i, by ring, ?_⟩
    have hle : ((i : ℤ) + 1) * n ≤ span := by
      rw [← Int.le_ediv_iff_mul_le hn]
      omega
    linarith
  · rintro ⟨i, rfl, hi⟩
    refine ⟨i, ?_, by ring⟩
    have hle : ((i : ℤ) + 1) * n ≤ span := by linarith
    rw [← Int.le_ediv_iff_mul_le hn] at hle
    omega

theorem slots_sorted (hn : 0 < n) : (slots span n).Pairwise (· ≤ ·) := by
  rw [slots, List.pairwise_map]
  apply List.pairwise_lt_range.imp
  intro i j hij
  have hle : (i : ℤ) ≤ j := by omega
  exact mul_le_mul_of_nonneg_right hle hn.le

/-- The slot found is open, and nothing open lies below it. -/
theorem firstSlot_spec (hn : 0 < n) (h : firstSlot span n isOpen = some x) :
    (Slot 0 span n x ∧ isOpen x) ∧ ∀ y, Slot 0 span n y → isOpen y → x ≤ y := by
  obtain ⟨hopen, before, after, heq, hclosed⟩ := List.find?_eq_some_iff_append.mp h
  have hmem : x ∈ slots span n := List.mem_of_find?_eq_some h
  refine ⟨⟨(mem_slots hn).mp hmem, hopen⟩, fun y hy hyo => ?_⟩
  have hsorted := @slots_sorted span n hn
  rw [← mem_slots hn, heq, List.mem_append] at hy
  rw [heq, List.pairwise_append, List.pairwise_cons] at hsorted
  rcases hy with hy | hy
  · exact absurd hyo (by simpa using hclosed y hy)
  · rcases List.mem_cons.mp hy with rfl | hy
    · exact le_refl _
    · exact hsorted.2.1.1 y hy

theorem firstSlot_eq_none (hn : 0 < n) : firstSlot span n isOpen = none ↔
    ∀ y, Slot 0 span n y → isOpen y = false := by
  simp only [firstSlot, List.find?_eq_none, mem_slots hn, Bool.not_eq_true]

theorem firstSlot_eq_some (hn : 0 < n) : firstSlot span n isOpen = some x ↔
    (Slot 0 span n x ∧ isOpen x) ∧ ∀ y, Slot 0 span n y → isOpen y → x ≤ y := by
  refine ⟨firstSlot_spec hn, ?_⟩
  rintro ⟨⟨hslot, hopen⟩, hleast⟩
  cases hf : firstSlot span n isOpen with
  | none =>
    rw [(firstSlot_eq_none hn).mp hf x hslot] at hopen
    cases hopen
  | some y =>
    obtain ⟨⟨hy, hyo⟩, hlow⟩ := firstSlot_spec hn hf
    rw [le_antisymm (hleast y hy hyo) (hlow x hslot hopen)]

end FirstFit
