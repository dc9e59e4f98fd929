import KernelSim.Memory.Completeness

/-! What the size of a request does to `int` arithmetic: `highestPowerOf2` over all of `int`, and
the sums of `get_used_space`. -/
namespace KernelSim
open KeyedTree Runs

/-- The products `power * 2` of the loop, before they are wrapped to an `int`. -/
def doublings : ℕ → ℤ → ℤ → List ℤ
  | 0, _, _ => []
  | fuel + 1, power, x =>
    if power < x then power * 2 :: doublings fuel (wrap32 (power * 2)) x else []

/-- A request is rounded to the least power of two, within `int`, and a block of that size is
less than twice what was asked for. -/
structure RoundsSafely (x : ℤ) : Prop where
  least : ∃ n, highestPowerOf2 x = some n ∧ IsLeast (roundings (max x 1)) n ∧ (1 ≤ x → n < 2 * x)
  products : ∀ fuel, ∀ p ∈ doublings fuel 1 x, -2 ^ 31 ≤ p ∧ p < 2 ^ 31
  reserved : 1 ≤ x → ∀ seg seg' a, findBlock seg x = some (seg', some a) →
    ∃ b ∈ entries seg'.root, b.addr = a ∧ b.size < 2 * x

variable {x n p : ℤ} {seg seg' : Segment} {a fuel i : ℕ}

theorem wrap32_double (hi : i < 30) : wrap32 (2 ^ i * 2) = 2 ^ (i + 1) := by
  have hle : (2 : ℤ) ^ (i + 1) ≤ 2 ^ 30 := pow_le_pow_right₀ (by omega) hi
  have hpos : (0 : ℤ) < 2 ^ (i + 1) := pow_pos (by omega) _
  rw [← pow_succ]
  apply wrap32_eq <;> omega

/-- The loop stops before its product leaves the range. -/
theorem doublings_le (hx : x ≤ 2 ^ 30) (hi : i ≤ 30) (hp : p ∈ doublings fuel (2 ^ i) x) :
    0 < p ∧ p ≤ 2 ^ 30 := by
  induction fuel generalizing i with
  | zero => cases hp
  | succ fuel ih =>
    rw [doublings] at hp
    split at hp
    · rename_i hlt
      have hi : i < 30 := by
        by_contra h
        obtain rfl : i = 30 := by omega
        omega
      rw [wrap32_double hi, List.mem_cons] at hp
      rcases hp with rfl | hp
      · have hle : (2 : ℤ) ^ (i + 1) ≤ 2 ^ 30 := pow_le_pow_right₀ (by omega) hi
        have hpos : (0 : ℤ) < 2 ^ (i + 1) := pow_pos (by omega) _
        rw [← pow_succ]
        exact ⟨hpos, hle⟩
      · exact ih (by omega) hp
    · cases hp

theorem roundings_max_one (x : ℤ) : roundings (max x 1) = roundings x := by
  ext n
  constructor
  · rintro ⟨hle, hpow⟩
    exact ⟨(le_max_left x 1).trans hle, hpow⟩
  · rintro ⟨hle, k, rfl⟩
    have hpos : (0 : ℤ) < 2 ^ k := pow_pos (by omega) k
    exact ⟨max_le hle hpos, k, rfl⟩

/-- The doubling that reached `n` started below the request. -/
theorem highestPowerOf2_lt (h : highestPowerOf2 x = some n) (hx : 1 ≤ x) : n < 2 * x := by
  obtain ⟨-, j, rfl, -, hmin⟩ := highestPowerOf2_some h
  cases j with
  | zero => omega
  | succ j =>
    have hlt : (2 : ℤ) ^ j < x := hmin j (Nat.lt_succ_self j)
    rw [pow_succ]
    omega

/-- A loop that the bound on the rounds cuts short is one that never ends. -/
theorem doublePower_of_highestPowerOf2 (h : highestPowerOf2 x = none) (fuel : ℕ) :
    doublePower fuel 1 x = none := by
  have hx : 2 ^ 30 < x := by
    by_contra hx
    obtain ⟨j, hj, -⟩ := highestPowerOf2_eq (not_lt.mp hx)
    rw [hj] at h
    cases h
  exact doublePower_none hx (Or.inl ⟨0, by omega, rfl⟩)

theorem findBlock_lt (hx : 1 ≤ x) (h : findBlock seg x = some (seg', some a)) :
    ∃ b ∈ entries seg'.root, b.addr = a ∧ b.size < 2 * x := by
  obtain ⟨j, hj, -, hs⟩ := findBlock_some h
  obtain ⟨b, hb, ha, -, hsize⟩ := searches_found hs
  have hlt := highestPowerOf2_lt hj hx
  exact ⟨b, hb, ha, hsize ▸ hlt⟩

/-- The rounding is right up to the largest power of two that is an `int`, and for no request
above it. -/
theorem roundsSafely_iff (x : ℤ) : RoundsSafely x ↔ x ≤ 2 ^ 30 := by
  constructor
  · intro h
    obtain ⟨n, hn, -⟩ := h.least
    exact (highestPowerOf2_some hn).1
  · intro hx
    obtain ⟨j, hj, -⟩ := highestPowerOf2_eq hx
    refine ⟨⟨2 ^ j, hj, ?_, highestPowerOf2_lt hj⟩, ?_, fun h1 _ _ _ => findBlock_lt h1⟩
    · rw [roundings_max_one]
      exact isLeast_highestPowerOf2 hj
    · intro fuel p hp
      obtain ⟨hpos, hle⟩ := doublings_le (i := 0) hx (by omega) hp
      omega

/-- The product 2 ^ 31 is not an `int`; wrapped, it is negative and then 0 for ever. -/
theorem pastLargestPower_never_ends :
    2 ^ 31 ∈ doublings 32 1 (2 ^ 30 + 1) ∧ (∀ fuel, doublePower fuel 1 (2 ^ 30 + 1) = none) ∧
      ¬ RoundsSafely (2 ^ 30 + 1) := by
  have hnone : highestPowerOf2 (2 ^ 30 + 1) = none := highestPowerOf2_none (by omega)
  refine ⟨by decide, doublePower_of_highestPowerOf2 hnone, ?_⟩
  intro h
  obtain ⟨n, hn, -⟩ := h.least
  rw [hnone] at hn
  cases hn

/-! The sums of `get_used_space` add up what was reserved for at most 20 blocks. -/

/-- Requests for no fewer than `-2 ^ 26` bytes. -/
def Moderate (_ : Segment) : MemoryOp → Prop
  | .admission _ size _ _ => -2 ^ 26 ≤ size
  | .deallocation _ _ => True

/-- Each block is reserved for an amount that such a request can have. -/
structure ModeratelyUsed (seg : Segment) : Prop where
  wellFormed : WellFormed seg
  allocated : ∀ b ∈ entries seg.root, |b.allocated| ≤ 2 ^ 26

/-- The `int`s that the search computes at a node are the sums and differences themselves. -/
def UsedSpaceExact (seg : Segment) : Prop :=
  ∀ fs b l r, seg.root = plug fs (.node b l r) →
    wrap32 (getUsedSpace (.node b l r)) = getUsedSpace (.node b l r) ∧
      wrap32 (b.size - getUsedSpace (.node b l r)) = b.size - getUsedSpace (.node b l r)

variable {k : ℕ} {m : ℤ} {t l r : MemoryTree} {b : MemoryBlock} {op : MemoryOp}

theorem abs_leftSpineUsed_le (hs : Shape k t) (h : ∀ b ∈ entries t, |b.used| ≤ m) (hm : 0 ≤ m) :
    |leftSpineUsed t| ≤ (k + 1) * m := by
  induction t generalizing k with
  | nil =>
    rw [leftSpineUsed, abs_zero]
    positivity
  | node b l r hl _ =>
    have hb := h b List.mem_cons_self
    have hin : ∀ c ∈ entries l, |c.used| ≤ m := fun c hc => h c (by simp [hc])
    have htri := abs_add_le b.used (leftSpineUsed l)
    obtain ⟨rfl, rfl, rfl⟩ | ⟨j, rfl, -, hsl, -⟩ := shape_children hs
    · rw [leftSpineUsed, leftSpineUsed, add_zero]
      simpa using hb
    · have hrest := hl hsl hin
      rw [leftSpineUsed]
      push_cast
      linarith

theorem abs_rightSpineUsed_le (hs : Shape k t) (h : ∀ b ∈ entries t, |b.used| ≤ m) (hm : 0 ≤ m) :
    |rightSpineUsed t| ≤ (k + 1) * m := by
  induction t generalizing k with
  | nil =>
    rw [rightSpineUsed, abs_zero]
    positivity
  | node b l r _ hr =>
    have hb := h b List.mem_cons_self
    have hin : ∀ c ∈ entries r, |c.used| ≤ m := fun c hc => h c (by simp [hc])
    have htri := abs_add_le b.used (rightSpineUsed r)
    obtain ⟨rfl, rfl, rfl⟩ | ⟨j, rfl, -, -, hsr⟩ := shape_children hs
    · rw [rightSpineUsed, rightSpineUsed, add_zero]
      simpa using hb
    · have hrest := hr hsr hin
      rw [rightSpineUsed]
      push_cast
      linarith

theorem shape_plug {fs : List (Frame MemoryBlock)} (hs : Shape k (plug fs t)) :
    ∃ j ≤ k, Shape j t := by
  induction fs generalizing t with
  | nil => exact ⟨k, le_rfl, hs⟩
  | cons f fs ih =>
    obtain ⟨j, hj, hf⟩ := ih hs
    obtain ⟨isLeft, b, sibling⟩ := f
    cases isLeft with
    | true =>
      obtain ⟨rfl, rfl, rfl⟩ | ⟨i, rfl, -, hsl, -⟩ := shape_children hf
      · exact ⟨0, Nat.zero_le k, trivial⟩
      · exact ⟨i, by omega, hsl⟩
    | false =>
      obtain ⟨rfl, rfl, rfl⟩ | ⟨i, rfl, -, -, hsr⟩ := shape_children hf
      · exact ⟨0, Nat.zero_le k, trivial⟩
      · exact ⟨i, by omega, hsr⟩

theorem abs_used_le (h : |b.allocated| ≤ m) (hm : 0 ≤ m) : |b.used| ≤ m := by
  unfold MemoryBlock.used
  split
  · exact h
  · rwa [abs_zero]

theorem usedSpaceExact_of_moderatelyUsed (h : ModeratelyUsed seg) : UsedSpaceExact seg := by
  intro fs b l r hroot
  have hs := h.wellFormed.shape
  rw [hroot] at hs
  obtain ⟨k, hk, hs⟩ := shape_plug hs
  have hused : ∀ c ∈ entries (.node b l r), |c.used| ≤ 2 ^ 26 := by
    intro c hc
    have hin : c ∈ entries seg.root := hroot ▸ mem_entries_plug.mpr (Or.inl hc)
    exact abs_used_le (h.allocated c hin) (by positivity)
  have hsize := shape_size hs
  have hpos : (0 : ℤ) < 2 ^ k := by positivity
  have hle : (2 : ℤ) ^ k ≤ 2 ^ 10 := pow_le_pow_right₀ (by omega) hk
  have hspines : |leftSpineUsed l| ≤ 10 * 2 ^ 26 ∧ |rightSpineUsed r| ≤ 10 * 2 ^ 26 := by
    obtain ⟨rfl, rfl, rfl⟩ | ⟨j, rfl, -, hsl, hsr⟩ := shape_children hs
    · simp [leftSpineUsed, rightSpineUsed]
    · have hj : ((j : ℤ) + 1) * 2 ^ 26 ≤ 10 * 2 ^ 26 := by omega
      have hleft := abs_leftSpineUsed_le hsl (fun c hc => hused c (by simp [hc])) (by positivity)
      have hright := abs_rightSpineUsed_le hsr (fun c hc => hused c (by simp [hc])) (by positivity)
      exact ⟨hleft.trans hj, hright.trans hj⟩
  obtain ⟨hl, hr⟩ := hspines
  rw [abs_le] at hl hr
  simp only [getUsedSpace]
  exact ⟨wrap32_eq (by omega) (by omega), wrap32_eq (by omega) (by omega)⟩

theorem moderatelyUsed_findBlock {size : ℤ} {res : Option ℕ} (h : ModeratelyUsed seg)
    (hf : findBlock seg size = some (seg', res)) : ModeratelyUsed seg' := by
  obtain ⟨j, -, -, hs⟩ := findBlock_some hf
  refine ⟨findBlock_wellFormed h.wellFormed hf, fun b hb => ?_⟩
  rcases grows_entries (searches_grows hs) hb with hold | hblank
  · exact h.allocated b hold
  · rw [hblank.2.2, abs_zero]
    positivity

theorem moderatelyUsed_reserveBlock (a : ℕ) (id time : ℤ) {size : ℤ} (h : ModeratelyUsed seg)
    (hsize : |size| ≤ 2 ^ 26) : ModeratelyUsed (reserveBlock seg a id size time) := by
  refine ⟨reserveBlock_wellFormed a id size time h.wellFormed, fun c hc => ?_⟩
  rcases written_or_kept hc with ⟨d, -, -, rfl⟩ | ⟨hc, -⟩
  · exact hsize
  · exact h.allocated c hc

theorem moderatelyUsed_updateId (id pid : ℤ) (h : ModeratelyUsed seg) :
    ModeratelyUsed (updateId seg id pid) := by
  refine ⟨updateId_wellFormed id pid h.wellFormed, ?_⟩
  obtain heq | ⟨b, -, -, -, heq⟩ := updateId_cases seg id pid
  · rw [heq]
    exact h.allocated
  · rw [heq]
    intro c hc
    rcases written_or_kept hc with ⟨d, hd, -, rfl⟩ | ⟨hc, -⟩
    · exact h.allocated d hd
    · exact h.allocated c hc

theorem moderatelyUsed_deallocation (pid time : ℤ) (h : ModeratelyUsed seg) :
    ModeratelyUsed (deallocateMemory seg pid time).1 := by
  refine ⟨deallocateMemory_wellFormed h.wellFormed, fun b hb => ?_⟩
  rcases deallocateMemory_entries hb with ⟨hb, -⟩ | ⟨c, -, rfl⟩
  · exact h.allocated b hb
  · show |(0 : ℤ)| ≤ 2 ^ 26
    rw [abs_zero]
    positivity

theorem moderatelyUsed_step (h : ModeratelyUsed seg) (hok : Moderate seg op)
    (hstep : op.apply seg = some seg') : ModeratelyUsed seg' := by
  cases op with
  | deallocation pid time =>
    obtain rfl := Option.some.inj hstep
    exact moderatelyUsed_deallocation pid time h
  | admission id size pid time =>
    obtain ⟨seg₁, res, hfind, ⟨rfl, rfl⟩ | ⟨a, rfl, rfl⟩⟩ := admitProcess_search h.wellFormed hstep
    · exact moderatelyUsed_findBlock h hfind
    · have hlow : -2 ^ 26 ≤ size := hok
      have hhigh := size_le_of_found h.wellFormed hfind
      have hsize : |size| ≤ 2 ^ 26 := abs_le.mpr ⟨by omega, by omega⟩
      exact moderatelyUsed_updateId id pid
        (moderatelyUsed_reserveBlock a id time (moderatelyUsed_findBlock h hfind) hsize)

/-- So in every run in which no request is for fewer than `-2 ^ 26` bytes the arithmetic of the
search is that of integers. -/
theorem usedSpaceExact_always (ops : List MemoryOp) :
    Always (Guarded Moderate MemoryOp.apply) initialSegment ops UsedSpaceExact := by
  intro pre seg _ ht
  have hinit : ModeratelyUsed initialSegment := by
    refine ⟨wellFormed_initial, fun b hb => ?_⟩
    simp only [initializeMemorySegment, entries_node, entries_nil, List.append_nil,
      List.mem_singleton] at hb
    rw [hb]
    simp [blankBlock]
  exact usedSpaceExact_of_moderatelyUsed
    (ht.invariant (fun _ _ _ h hs => moderatelyUsed_step h hs.1 hs.2) hinit)

end KernelSim
