import Mathlib.Tactic.Ring
import Mathlib.Tactic.Linarith
import Mathlib.Algebra.Order.Ring.Int

/-! Ranges of one power-of-two width, cut out of a longer power-of-two range. -/
namespace Dyadic

variable {lo span n y : ℤ} {j k : ℕ}

/-- `y` starts one of the ranges of width `n` that cut `[lo, lo + span)` up. -/
def Slot (lo span n y : ℤ) : Prop := ∃ i : ℕ, y = lo + i * n ∧ y + n ≤ lo + span

theorem Slot.le (h : Slot lo span n y) (hn : 0 ≤ n) : lo ≤ y := by
  obtain ⟨i, rfl, _⟩ := h
  have : 0 ≤ (i : ℤ) * n := by positivity
  omega

theorem Slot.width_le (h : Slot lo span n y) (hn : 0 ≤ n) : n ≤ span := by
  have := h.le hn
  obtain ⟨_, _, h⟩ := h
  omega

/-- The whole range is the only slot of its own width. -/
theorem slot_self (hn : 0 < n) : Slot lo n n y ↔ y = lo := by
  constructor
  · intro h
    have hle := h.le hn.le
    obtain ⟨_, _, h⟩ := h
    omega
  · rintro rfl
    exact ⟨0, by simp, le_refl _⟩

theorem pow_split (h : j ≤ k) : (2 : ℤ) ^ k = ((2 ^ (k - j) : ℕ) : ℤ) * 2 ^ j := by
  rw [Nat.cast_pow, Nat.cast_ofNat, ← pow_add, Nat.sub_add_cancel h]

theorem two_pow_lt_iff : (2 : ℤ) ^ j < 2 ^ k ↔ j < k :=
  pow_lt_pow_iff_right₀ (by omega)

/-- A slot that is no wider than the halves lies in one of them. -/
theorem slot_halves (h : j ≤ k) : Slot lo (2 ^ (k + 1)) (2 ^ j) y ↔
    Slot lo (2 ^ k) (2 ^ j) y ∨ Slot (lo + 2 ^ k) (2 ^ k) (2 ^ j) y := by
  have hsplit := pow_split h
  have hdouble : (2 : ℤ) ^ (k + 1) = 2 ^ k + 2 ^ k := by ring
  have hpos : (0 : ℤ) < 2 ^ k := pow_pos (by omega) k
  generalize (2 : ℕ) ^ (k - j) = m at hsplit
  constructor
  · rintro ⟨i, rfl, hi⟩
    by_cases him : i < m
    · refine Or.inl ⟨i, rfl, ?_⟩
      have : ((i + 1 : ℕ) : ℤ) * 2 ^ j ≤ m * 2 ^ j := by gcongr; omega
      push_cast at this
      linarith
    · obtain ⟨d, rfl⟩ := Nat.exists_eq_add_of_le (not_lt.mp him)
      refine Or.inr ⟨d, ?_, by omega⟩
      rw [hsplit]
      push_cast
      ring
  · rintro (⟨i, rfl, hi⟩ | ⟨i, rfl, hi⟩)
    · exact ⟨i, rfl, by omega⟩
    · refine ⟨m + i, ?_, by omega⟩
      rw [hsplit]
      push_cast
      ring

/-! The range `[0, 2 ^ k)` halved along a path, whose `true` is the lower half. -/

/-- Where the part at the end of the path starts. -/
def start : ℕ → List Bool → ℤ
  | _, [] => 0
  | 0, _ :: _ => 0
  | k + 1, isLow :: path => (if isLow then 0 else 2 ^ k) + start k path

section Paths

variable {p q : List Bool}

@[simp] theorem start_nil (k : ℕ) : start k [] = 0 := by
  cases k <;> rfl

@[simp] theorem start_low (k : ℕ) (p : List Bool) : start (k + 1) (true :: p) = start k p :=
  zero_add _

@[simp] theorem start_high (k : ℕ) (p : List Bool) :
    start (k + 1) (false :: p) = 2 ^ k + start k p := rfl

theorem exists_of_cons_le {isLow : Bool} (h : (isLow :: p).length ≤ k) :
    ∃ m, k = m + 1 ∧ p.length ≤ m := by
  rw [List.length_cons] at h
  exact ⟨k - 1, by omega, by omega⟩

theorem start_bounds (h : p.length ≤ k) :
    0 ≤ start k p ∧ start k p + 2 ^ (k - p.length) ≤ 2 ^ k := by
  induction p generalizing k with
  | nil => simp
  | cons isLow p ih =>
    obtain ⟨m, rfl, hm⟩ := exists_of_cons_le h
    have hpos : (0 : ℤ) < 2 ^ m := pow_pos (by omega) m
    have hdouble : (2 : ℤ) ^ (m + 1) = 2 ^ m + 2 ^ m := by ring
    obtain ⟨hlo, hhi⟩ := ih hm
    rw [List.length_cons, Nat.add_sub_add_right]
    cases isLow with
    | true =>
      rw [start_low]
      omega
    | false =>
      rw [start_high]
      omega

/-- A part starts at a multiple of its width. -/
theorem start_dvd (h : p.length ≤ k) : (2 : ℤ) ^ (k - p.length) ∣ start k p := by
  induction p generalizing k with
  | nil => simp
  | cons isLow p ih =>
    obtain ⟨m, rfl, hm⟩ := exists_of_cons_le h
    have hdvd := ih hm
    rw [List.length_cons, Nat.add_sub_add_right]
    cases isLow with
    | true => rwa [start_low]
    | false =>
      rw [start_high]
      exact Int.dvd_add (pow_dvd_pow 2 (Nat.sub_le _ _)) hdvd

/-- A longer path leads to a part of the part. -/
theorem start_nested {rest : List Bool} (h : (p ++ rest).length ≤ k) :
    start k p ≤ start k (p ++ rest) ∧
      start k (p ++ rest) + 2 ^ (k - (p ++ rest).length) ≤ start k p + 2 ^ (k - p.length) := by
  induction p generalizing k with
  | nil => simpa using start_bounds h
  | cons isLow p ih =>
    rw [List.cons_append] at h ⊢
    obtain ⟨m, rfl, hm⟩ := exists_of_cons_le h
    have hnested := ih hm
    simp only [List.length_cons, Nat.add_sub_add_right]
    cases isLow with
    | true => simpa only [start_low] using hnested
    | false =>
      simp only [start_high]
      omega

/-- Paths that part lead to parts that have nothing in common. -/
theorem start_apart (hp : p.length ≤ k) (hq : q.length ≤ k) (hpq : ¬ p <+: q) (hqp : ¬ q <+: p) :
    start k p + 2 ^ (k - p.length) ≤ start k q ∨ start k q + 2 ^ (k - q.length) ≤ start k p := by
  induction p generalizing k q with
  | nil => exact absurd List.nil_prefix hpq
  | cons isLow p ih =>
    cases q with
    | nil => exact absurd List.nil_prefix hqp
    | cons isLow' q =>
      obtain ⟨m, rfl, hmp⟩ := exists_of_cons_le hp
      have hmq : q.length ≤ m := Nat.le_of_succ_le_succ hq
      rw [List.cons_prefix_cons, not_and] at hpq hqp
      simp only [List.length_cons, Nat.add_sub_add_right]
      have hbp := start_bounds hmp
      have hbq := start_bounds hmq
      -- both in one half, by the rest of the paths, or in different halves
      cases isLow with
      | true =>
        cases isLow' with
        | true => simpa only [start_low] using ih hmp hmq (hpq rfl) (hqp rfl)
        | false =>
          rw [start_low, start_high]
          omega
      | false =>
        cases isLow' with
        | true =>
          rw [start_low, start_high]
          omega
        | false =>
          have hrest := ih hmp hmq (hpq rfl) (hqp rfl)
          simp only [start_high]
          omega

end Paths

end Dyadic
