import KernelSim.Memory.SlotTable
import Mathlib.Algebra.Order.BigOperators.Group.List

/-! How much live memory it takes before a request is refused. -/
namespace KernelSim
open KeyedTree Dyadic Runs

/-- The bytes that live blocks keep from requests of width `n`: a narrower block spoils a slot. -/
def kept (n : ℤ) (qs : List (ℤ × MemoryBlock)) : ℤ := (qs.map fun q => max q.2.size n).sum

variable {seg seg' : Segment} {t l r : MemoryTree} {b : MemoryBlock} {k j : ℕ}
  {lo n y id size time : ℤ} {qs qs' : List (ℤ × MemoryBlock)} {q : ℤ × MemoryBlock}

theorem kept_append : kept n (qs ++ qs') = kept n qs + kept n qs' := by
  simp [kept]

theorem kept_nonneg (hn : 0 ≤ n) : 0 ≤ kept n qs := by
  apply List.sum_nonneg
  intro m hm
  obtain ⟨q, -, rfl⟩ := List.mem_map.mp hm
  exact hn.trans (le_max_right _ _)

theorem le_kept (hn : 0 ≤ n) (hq : q ∈ qs) : max q.2.size n ≤ kept n qs := by
  obtain ⟨before, after, rfl⟩ := List.append_of_mem hq
  have hbefore : 0 ≤ kept n before := kept_nonneg hn
  have hafter : 0 ≤ kept n after := kept_nonneg hn
  simp only [kept, List.map_append, List.map_cons, List.sum_append, List.sum_cons] at *
  omega

/-- Under a node the kept bytes are those of its own block and of the two halves. -/
theorem kept_node : kept n (lives lo (.node b l r)) =
    (if b.live then max b.size n else 0) + kept n (lives lo l) +
      kept n (lives (lo + b.size.tdiv 2) r) := by
  rw [lives_node, kept_append, kept_append]
  split <;> simp [kept]

/-- A width as wide as the range is closed by a block at one of the two ends. -/
theorem kept_of_self (hn : 0 < n) (hfull : ¬ (¬ Busy lo t y ∧ ¬ Busy lo t (y + n - 1))) :
    n ≤ kept n (lives lo t) := by
  have hbusy : Busy lo t y ∨ Busy lo t (y + n - 1) := by
    by_contra h
    exact hfull (not_or.mp h)
  rcases hbusy with ⟨q, hq, -⟩ | ⟨q, hq, -⟩
  · exact (le_max_right _ _).trans (le_kept hn.le hq)
  · exact (le_max_right _ _).trans (le_kept hn.le hq)

/-- A range without an open slot is kept whole, by induction on the halving. -/
theorem kept_of_full (hs : Shape k t) (hp : Charged t) (hjk : j ≤ k)
    (hfull : ∀ y, ¬ OpenSlot (2 ^ j) lo k t y) : 2 ^ k ≤ kept (2 ^ j) (lives lo t) := by
  have hpos : (0 : ℤ) < 2 ^ j := pow_pos (by omega) j
  induction t generalizing k lo with
  | nil =>
    have hwide : (2 : ℤ) ^ j ≤ 2 ^ k := pow_le_pow_right₀ (by omega) hjk
    exact absurd ⟨⟨0, by simp, by omega⟩, not_busy_nil, not_busy_nil⟩ (hfull lo)
  | node b l r hl hr =>
    have hsize := shape_size hs
    have hwide : (2 : ℤ) ^ j ≤ 2 ^ k := pow_le_pow_right₀ (by omega) hjk
    by_cases hb : b.live
    · have hmem : (lo, b) ∈ lives lo (.node b l r) := by
        rw [lives_node, if_pos hb]
        simp
      have := le_kept hpos.le hmem
      have := le_max_left b.size (2 ^ j)
      dsimp only at *
      omega
    by_cases hfits : Fits b l r (2 ^ j)
    · -- such a block has the asked width and is itself open
      obtain rfl : j = k := by
        have := hfits.1.symm.trans hsize
        exact pow_right_injective₀ (by omega) (by omega) this
      exact absurd ⟨(slot_self hpos).mpr rfl, (fits_iff hs hb (Or.inr hp)).mp hfits⟩ (hfull lo)
    obtain ⟨m, rfl, hm, hsl, hsr, hopen⟩ := openSlot_children lo hs
      (not_or.mpr ⟨by omega, hb⟩) hfits (Or.inr hp)
    obtain rfl | hjm : j = m + 1 ∨ j ≤ m := by omega
    · apply kept_of_self hpos (y := lo)
      exact fun hends => hfull lo ⟨(slot_self hpos).mpr rfl, hends⟩
    · have hleft := hl hsl (charged_left hp) hjm fun y h => hfull y ((hopen y).mpr (Or.inl h))
      have hright := hr hsr (charged_right hp) hjm fun y h => hfull y ((hopen y).mpr (Or.inr h))
      have hdouble : (2 : ℤ) ^ (m + 1) = 2 ^ m + 2 ^ m := by ring
      rw [kept_node, if_neg hb, hm]
      omega

/-- While the live blocks keep less than the whole memory from requests of its width, a request is
granted, whatever the run has left in the tree. -/
theorem allocateMemory_of_kept
    (h : Reachable (Guarded BytesAsked MemoryOp.apply) initialSegment seg)
    (hlo : 1 ≤ size) (hhi : size ≤ 1024) (id time : ℤ)
    (hroom : kept (slotWidth size) (lives 0 seg.root) < 1024) :
    ∃ seg', allocateMemory seg id size time = some (seg', true) := by
  have hf : Filled seg := h.invariant (fun _ _ _ hi hs => filled_step hi hs) filled_initial
  have hround := highestPowerOf2_slotWidth hlo (by omega : size ≤ 2 ^ 30)
  obtain ⟨hnone, -⟩ | ⟨m, hm, ⟨x, -, heq⟩ | ⟨hfull, -⟩⟩ :=
    outcome_cases id size time hf.wellFormed hf.charged
  · rw [hnone] at hround
    cases hround
  · exact allocate_of_outcome heq
  · obtain rfl := Option.some.inj (hm.symm.trans hround)
    have hclog : Nat.clog 2 size.toNat ≤ 10 := Nat.clog_le_of_le_pow (by omega)
    have := kept_of_full hf.wellFormed.shape hf.charged hclog hfull
    rw [slotWidth] at hroom
    omega

/-- Three processes of up to 256 bytes leave room for a fourth, wherever they are. -/
theorem allocateMemory_of_kept_fourth : ∃ seg,
    execute BytesAsked MemoryOp.apply initialSegment
      [.admission 1 200 101 0, .admission 2 30 102 0, .admission 3 256 103 1, .admission 4 1 104 2,
        .deallocation 101 3] = some seg ∧
    ∃ seg', allocateMemory seg 5 150 4 = some (seg', true) := by
  obtain ⟨seg, hseg, hroom⟩ : ∃ seg,
      execute BytesAsked MemoryOp.apply initialSegment
        [.admission 1 200 101 0, .admission 2 30 102 0, .admission 3 256 103 1,
          .admission 4 1 104 2, .deallocation 101 3] = some seg ∧
      kept (slotWidth 150) (lives 0 seg.root) < 1024 := ⟨_, rfl, by decide⟩
  exact ⟨seg, hseg, allocateMemory_of_kept ⟨_, trace_of_execute hseg⟩ (by decide) (by decide) 5 4
    hroom⟩

end KernelSim
