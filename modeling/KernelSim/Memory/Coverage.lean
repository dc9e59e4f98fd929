import KernelSim.Library.Dyadic
import KernelSim.Memory.Search

/-! The search hands out the lowest range of the asked size whose first and last bytes are
free: `get_used_space` sees nothing of what lies between. -/
namespace KernelSim
open KeyedTree Dyadic

variable {k j : ℕ} {needed lo x y n : ℤ} {t t' l r child : MemoryTree} {b c : MemoryBlock}
  {a next next' : ℕ} {res : Option ℕ}

/-- Byte `y` belongs to a live block. -/
def Busy (lo : ℤ) (t : MemoryTree) (y : ℤ) : Prop :=
  ∃ q ∈ lives lo t, q.1 ≤ y ∧ y < q.1 + q.2.size

/-- A slot of width `n` whose two end bytes are free. -/
def OpenSlot (n lo : ℤ) (k : ℕ) (t : MemoryTree) (y : ℤ) : Prop :=
  Slot lo (2 ^ k) n y ∧ ¬ Busy lo t y ∧ ¬ Busy lo t (y + n - 1)

/-- The lowest open slot. -/
def FirstOpen (n lo : ℤ) (k : ℕ) (t : MemoryTree) (y : ℤ) : Prop :=
  OpenSlot n lo k t y ∧ ∀ z, OpenSlot n lo k t z → y ≤ z

/-- A live block was reserved for at least one byte. -/
def Charged (t : MemoryTree) : Prop := ∀ b ∈ entries t, b.live → 1 ≤ b.allocated

@[simp] theorem not_busy_nil : ¬ Busy lo .nil y := by simp [Busy, lives]

theorem lives_node : lives lo (.node b l r) =
    (if b.live then [(lo, b)] else []) ++ lives lo l ++ lives (lo + b.size.tdiv 2) r := by
  simp only [lives, placed_node, List.filter_cons, List.filter_append]
  split <;> simp_all

theorem busy_node : Busy lo (.node b l r) y ↔
    (b.live ∧ lo ≤ y ∧ y < lo + b.size) ∨ Busy lo l y ∨ Busy (lo + b.size.tdiv 2) r y := by
  simp only [Busy, lives_node, List.mem_append]
  constructor
  · rintro ⟨q, (hq | hq) | hq, hy⟩
    · split at hq <;> simp_all
    · exact Or.inr (Or.inl ⟨q, hq, hy⟩)
    · exact Or.inr (Or.inr ⟨q, hq, hy⟩)
  · rintro (⟨hb, hy⟩ | ⟨q, hq, hy⟩ | ⟨q, hq, hy⟩)
    · exact ⟨(lo, b), by simp [hb], hy⟩
    · exact ⟨q, Or.inl (Or.inr hq), hy⟩
    · exact ⟨q, Or.inr hq, hy⟩

theorem busy_range (hs : Shape k t) (h : Busy lo t y) : lo ≤ y ∧ y < lo + 2 ^ k := by
  obtain ⟨q, hq, hy⟩ := h
  have := placed_range hs (mem_lives.mp hq).1
  omega

theorem busy_congr (h : lives lo t = lives lo t') : Busy lo t y ↔ Busy lo t' y := by
  simp only [Busy, h]

theorem openSlot_congr (h : lives lo t = lives lo t') :
    OpenSlot n lo k t y ↔ OpenSlot n lo k t' y := by
  simp only [OpenSlot, busy_congr h]

theorem charged_left (h : Charged (.node b l r)) : Charged l :=
  fun c hc => h c (by simp [hc])

theorem charged_right (h : Charged (.node b l r)) : Charged r :=
  fun c hc => h c (by simp [hc])

theorem used_nonneg (h : Charged t) (hb : b ∈ entries t) : 0 ≤ b.used := by
  unfold MemoryBlock.used
  split
  · rename_i hlive
    have := h b hb hlive
    omega
  · rfl

theorem used_nonpos (h : Charged t) (hb : b ∈ entries t) : b.used ≤ 0 ↔ ¬ b.live := by
  have hcharged := h b hb
  unfold MemoryBlock.used
  split <;> grind

/-- The left spine holds exactly the blocks that start with the tree's first byte. -/
theorem leftSpineUsed_iff (lo : ℤ) (hs : Shape k t) (hp : Charged t) :
    0 ≤ leftSpineUsed t ∧ (leftSpineUsed t ≤ 0 ↔ ¬ Busy lo t lo) := by
  induction t generalizing k with
  | nil => simp [leftSpineUsed]
  | node b l r hl _ =>
    have hsize := shape_size hs
    have hk : (0 : ℤ) < 2 ^ k := pow_pos (by omega) k
    have hused := used_nonneg hp (b := b) List.mem_cons_self
    have hlive := used_nonpos hp (b := b) List.mem_cons_self
    simp only [leftSpineUsed, busy_node]
    obtain ⟨rfl, rfl, rfl⟩ | ⟨j, rfl, hj, hsl, hsr⟩ := shape_children hs
    · simp only [leftSpineUsed, add_zero, not_busy_nil, or_false, hlive]
      exact ⟨hused, by grind⟩
    · obtain ⟨hpos, hiff⟩ := hl hsl (charged_left hp)
      have hright : ¬ Busy (lo + b.size.tdiv 2) r lo := by
        intro h
        have := (busy_range hsr h).1
        have : (0 : ℤ) < 2 ^ j := pow_pos (by omega) j
        omega
      exact ⟨by omega, by grind⟩

/-- The right spine holds exactly the blocks that end with the tree's last byte. -/
theorem rightSpineUsed_iff (lo : ℤ) (hs : Shape k t) (hp : Charged t) :
    0 ≤ rightSpineUsed t ∧ (rightSpineUsed t ≤ 0 ↔ ¬ Busy lo t (lo + 2 ^ k - 1)) := by
  induction t generalizing k lo with
  | nil => simp [rightSpineUsed]
  | node b l r _ hr =>
    have hsize := shape_size hs
    have hk : (0 : ℤ) < 2 ^ k := pow_pos (by omega) k
    have hused := used_nonneg hp (b := b) List.mem_cons_self
    have hlive := used_nonpos hp (b := b) List.mem_cons_self
    simp only [rightSpineUsed, busy_node]
    obtain ⟨rfl, rfl, rfl⟩ | ⟨j, rfl, hj, hsl, hsr⟩ := shape_children hs
    · simp only [rightSpineUsed, add_zero, not_busy_nil, or_false, hlive]
      exact ⟨hused, by grind⟩
    · obtain ⟨hpos, hiff⟩ := hr (lo + 2 ^ j) hsr (charged_right hp)
      have hdouble : (2 : ℤ) ^ (j + 1) = 2 ^ j + 2 ^ j := by ring
      have hend : lo + 2 ^ j + 2 ^ j - 1 = lo + 2 ^ (j + 1) - 1 := by omega
      rw [hend] at hiff
      have hleft : ¬ Busy lo l (lo + 2 ^ (j + 1) - 1) := by
        intro h
        have := (busy_range hsl h).2
        have : (0 : ℤ) < 2 ^ j := pow_pos (by omega) j
        omega
      rw [hj]
      exact ⟨by omega, by grind⟩

/-- A block of the asked size is handed out exactly when both its end bytes are free. -/
theorem fits_iff (hs : Shape j (.node b l r)) (hb : ¬ b.live)
    (hp : j = 0 ∨ Charged (.node b l r)) : Fits b l r (2 ^ j) ↔
      ¬ Busy lo (.node b l r) lo ∧ ¬ Busy lo (.node b l r) (lo + 2 ^ j - 1) := by
  have hsize := shape_size hs
  have hfits : Fits b l r (2 ^ j) ↔ leftSpineUsed l + rightSpineUsed r ≤ 0 := by
    simp only [Fits, getUsedSpace, hsize]
    constructor
    · rintro ⟨-, -, h⟩
      omega
    · intro h
      exact ⟨trivial, not_not.mp hb, by omega⟩
  simp only [hfits, busy_node, hb, false_and, false_or]
  obtain ⟨rfl, rfl, rfl⟩ | ⟨m, rfl, hm, hsl, hsr⟩ := shape_children hs
  · simp [leftSpineUsed, rightSpineUsed]
  have hcharged : Charged (.node b l r) := hp.resolve_left (by omega)
  have hdouble : (2 : ℤ) ^ (m + 1) = 2 ^ m + 2 ^ m := by ring
  have hpos : (0 : ℤ) < 2 ^ m := pow_pos (by omega) m
  obtain ⟨hlpos, hl⟩ := leftSpineUsed_iff lo hsl (charged_left hcharged)
  obtain ⟨hrpos, hr⟩ := rightSpineUsed_iff (lo + 2 ^ m) hsr (charged_right hcharged)
  have hend : lo + 2 ^ m + 2 ^ m - 1 = lo + 2 ^ (m + 1) - 1 := by omega
  rw [hend] at hr
  have hfar : ¬ Busy (lo + 2 ^ m) r lo := fun h => by
    have := busy_range hsr h
    omega
  have hnear : ¬ Busy lo l (lo + 2 ^ (m + 1) - 1) := fun h => by
    have := busy_range hsl h
    omega
  rw [hm]
  have hsum : leftSpineUsed l + rightSpineUsed r ≤ 0 ↔
      leftSpineUsed l ≤ 0 ∧ rightSpineUsed r ≤ 0 := by omega
  simp only [hsum, hl, hr, hfar, hnear, or_false, false_or]

/-- Nothing is open in a block the search turns away at once. -/
theorem not_openSlot_of_tooSmall (hs : Shape k (.node b l r)) (h : TooSmall b (2 ^ j)) :
    ¬ OpenSlot (2 ^ j) lo k (.node b l r) y := by
  rintro ⟨hslot, hfree, -⟩
  have hsize := shape_size hs
  have hpos : (0 : ℤ) < 2 ^ j := pow_pos (by omega) j
  rcases h with h | h
  · have := hslot.width_le hpos.le
    omega
  · have hle := hslot.le hpos.le
    obtain ⟨_, _, hend⟩ := hslot
    exact hfree (busy_node.mpr (Or.inl ⟨h, hle, by omega⟩))

/-- Below a block that is neither turned away nor handed out, the open slots are those of the
two halves. -/
theorem openSlot_children (lo : ℤ) (hs : Shape k (.node b l r)) (h : ¬ TooSmall b (2 ^ j))
    (hf : ¬ Fits b l r (2 ^ j)) (hp : j = 0 ∨ Charged (.node b l r)) :
    ∃ m, k = m + 1 ∧ b.size.tdiv 2 = 2 ^ m ∧ Shape m l ∧ Shape m r ∧
      ∀ y, OpenSlot (2 ^ j) lo k (.node b l r) y ↔
        OpenSlot (2 ^ j) lo m l y ∨ OpenSlot (2 ^ j) (lo + 2 ^ m) m r y := by
  have hsize := shape_size hs
  have hpos : (0 : ℤ) < 2 ^ j := pow_pos (by omega) j
  simp only [TooSmall, not_or, not_lt] at h
  obtain ⟨hle, hb⟩ := h
  have hjk : j ≤ k := by
    rw [hsize] at hle
    exact (pow_le_pow_iff_right₀ (by omega)).mp hle
  obtain ⟨rfl, rfl, rfl⟩ | ⟨m, rfl, hm, hsl, hsr⟩ := shape_children hs
  · obtain rfl : j = 0 := by omega
    exact absurd (fits_of_leaf hs.1 (by omega) (not_or.mpr ⟨not_lt.mpr hle, hb⟩)) hf
  refine ⟨m, rfl, hm, hsl, hsr, ?_⟩
  intro y
  obtain rfl | hjm : j = m + 1 ∨ j ≤ m := by omega
  · -- the block has the asked size: its only slot is itself, and a half holds none
    have hlt : (2 : ℤ) ^ m < 2 ^ (m + 1) := two_pow_lt_iff.mpr (by omega)
    have hnone : ∀ lo t, ¬ OpenSlot (2 ^ (m + 1)) lo m t y := by
      intro lo t ho
      have := ho.1.width_le hpos.le
      omega
    simp only [hnone, or_self, iff_false]
    rintro ⟨hslot, hends⟩
    obtain rfl := (slot_self hpos).mp hslot
    exact hf ((fits_iff hs hb hp).mpr hends)
  · have hpm : (0 : ℤ) < 2 ^ m := pow_pos (by omega) m
    simp only [OpenSlot, slot_halves hjm, busy_node, hb, false_and, false_or, hm]
    have hleft : ∀ z, lo + 2 ^ m ≤ z → ¬ Busy lo l z := fun z hz hbusy => by
      have := busy_range hsl hbusy
      omega
    have hright : ∀ z, z < lo + 2 ^ m → ¬ Busy (lo + 2 ^ m) r z := fun z hz hbusy => by
      have := busy_range hsr hbusy
      omega
    constructor
    · rintro ⟨hslot | hslot, h1, h2⟩
      · exact Or.inl ⟨hslot, fun h => h1 (Or.inl h), fun h => h2 (Or.inl h)⟩
      · exact Or.inr ⟨hslot, fun h => h1 (Or.inr h), fun h => h2 (Or.inr h)⟩
    · rintro (⟨hslot, h1, h2⟩ | ⟨hslot, h1, h2⟩)
      · have hend := hslot.choose_spec.2
        refine ⟨Or.inl hslot, ?_, ?_⟩
        · rintro (h | h)
          · exact h1 h
          · exact hright _ (by omega) h
        · rintro (h | h)
          · exact h2 h
          · exact hright _ (by omega) h
      · have hstart := hslot.le hpos.le
        refine ⟨Or.inr hslot, ?_, ?_⟩
        · rintro (h | h)
          · exact hleft _ (by omega) h
          · exact h1 h
        · rintro (h | h)
          · exact hleft _ (by omega) h
          · exact h2 h

theorem createChild_ne_nil : (createChild b child next).1 ≠ .nil := by
  cases child <;> simp [createChild]

theorem createChild_lives : lives lo (createChild b child next).1 = lives lo child :=
  grows_lives lo (grows_createChild (grows_refl _))

theorem createChild_charged (h : Charged child) : Charged (createChild b child next).1 := by
  cases child with
  | node c l r => exact h
  | nil =>
    intro c hc hlive
    simp only [createChild, entries_node, entries_nil, List.append_nil,
      List.mem_singleton] at hc
    subst hc
    exact absurd rfl hlive

/-- The block found is the lowest open slot; the search fails only when no slot is open. -/
theorem searches_first (lo : ℤ) (h : Searches (2 ^ j) t next t' next' res) (ht : t ≠ .nil)
    (hs : Shape k t) (hp : j = 0 ∨ Charged t) :
    (∀ a, res = some a → ∃ x b, (x, b) ∈ placed lo t' ∧ b.addr = a ∧ b.size = 2 ^ j ∧
      ¬ b.live ∧ FirstOpen (2 ^ j) lo k t x) ∧
    (res = none → ∀ y, ¬ OpenSlot (2 ^ j) lo k t y) := by
  have hpos : (0 : ℤ) < 2 ^ j := pow_pos (by omega) j
  induction h generalizing k lo with
  | null => exact absurd rfl ht
  | refuse h => exact ⟨by simp, fun _ _ => not_openSlot_of_tooSmall hs h⟩
  | @here b l r next h hf =>
    refine ⟨?_, by simp⟩
    intro a ha
    obtain rfl : k = j := by
      have := shape_size hs
      rw [hf.1] at this
      exact (pow_right_injective₀ (by omega) (by omega) this).symm
    simp only [Option.some.injEq] at ha
    refine ⟨lo, b, by simp, ha, hf.1, not_not.mpr hf.2.1, ?_, ?_⟩
    · exact ⟨(slot_self hpos).mpr rfl, (fits_iff hs (not_not.mpr hf.2.1) hp).mp hf⟩
    · intro z hz
      exact hz.1.le hpos.le
  | @left b l r l' next next' a h hf hl ih =>
    obtain ⟨m, rfl, hm, hsl, hsr, hopen⟩ := openSlot_children lo hs h hf hp
    have hpl : j = 0 ∨ Charged (createChild b l next).1 :=
      hp.imp_right fun hp => createChild_charged (charged_left hp)
    obtain ⟨hfound, -⟩ := ih lo createChild_ne_nil (createChild_shape hm hsl) hpl
    refine ⟨?_, by simp⟩
    intro a' ha'
    obtain ⟨x, c, hc, haddr, hsize, hblank, hx, hfirst⟩ := hfound a' ha'
    rw [openSlot_congr createChild_lives] at hx
    refine ⟨x, c, by simp [hc], haddr, hsize, hblank, (hopen x).mpr (Or.inl hx), ?_⟩
    intro z hz
    rcases (hopen z).mp hz with hz | hz
    · exact hfirst z ((openSlot_congr createChild_lives).mpr hz)
    · have := hz.1.le hpos.le
      have := hx.1.choose_spec.2
      omega
  | @right b l r l' r' next nextL next' res h hf hl hr ihl ihr =>
    obtain ⟨m, rfl, hm, hsl, hsr, hopen⟩ := openSlot_children lo hs h hf hp
    have hpl : j = 0 ∨ Charged (createChild b l next).1 :=
      hp.imp_right fun hp => createChild_charged (charged_left hp)
    have hpr : j = 0 ∨ Charged (createChild b r nextL).1 :=
      hp.imp_right fun hp => createChild_charged (charged_right hp)
    obtain ⟨-, hnone⟩ := ihl lo createChild_ne_nil (createChild_shape hm hsl) hpl
    obtain ⟨hfound, hnone'⟩ :=
      ihr (lo + 2 ^ m) createChild_ne_nil (createChild_shape hm hsr) hpr
    have hleft : ∀ y, ¬ OpenSlot (2 ^ j) lo m l y := fun y hy =>
      hnone rfl y ((openSlot_congr createChild_lives).mpr hy)
    refine ⟨?_, ?_⟩
    · intro a ha
      obtain ⟨x, c, hc, haddr, hsize, hblank, hx, hfirst⟩ := hfound a ha
      rw [openSlot_congr createChild_lives] at hx
      refine ⟨x, c, by simp [hm, hc], haddr, hsize, hblank, (hopen x).mpr (Or.inr hx), ?_⟩
      intro z hz
      have hz := ((hopen z).mp hz).resolve_left (hleft z)
      exact hfirst z ((openSlot_congr createChild_lives).mpr hz)
    · intro hres y hy
      have hy := ((hopen y).mp hy).resolve_left (hleft y)
      exact hnone' hres y ((openSlot_congr createChild_lives).mpr hy)

/-- The search always ends: its depth is bounded by the halvings of the root's size. -/
theorem traverse_isSome {fuel : ℕ} (next : ℕ) (hs : Shape k t) (hf : k < fuel) (hn : 1 ≤ needed) :
    ∃ t' next' res, traverseMemorySegment fuel t needed next = some (t', next', res) := by
  induction fuel generalizing t k next with
  | zero => omega
  | succ fuel ih =>
    cases t with
    | nil => exact ⟨_, _, _, rfl⟩
    | node b l r =>
      simp only [traverseMemorySegment]
      split
      · exact ⟨_, _, _, rfl⟩
      rename_i hsmall
      split
      · exact ⟨_, _, _, rfl⟩
      rename_i hfits
      obtain ⟨rfl, rfl, rfl⟩ | ⟨m, rfl, hm, hsl, hsr⟩ := shape_children hs
      · exact absurd (fits_of_leaf hs.1 hn hsmall) hfits
      obtain ⟨l', nextL, resL, hl⟩ := ih (createChild b l next).2
        (createChild_shape hm hsl : Shape m (createChild b l next).1) (by omega)
      simp only [hl, Option.bind_eq_bind, Option.bind_some]
      split
      · exact ⟨_, _, _, rfl⟩
      obtain ⟨r', nextR, resR, hr⟩ := ih (createChild b r nextL).2
        (createChild_shape hm hsr : Shape m (createChild b r nextL).1) (by omega)
      exact ⟨_, _, _, by simp only [hr, Option.bind_some]; rfl⟩

/-! `highestPowerOf2` rounds up to the least power of two. -/

theorem doublePower_eq (fuel i : ℕ) (hf : 30 < fuel + i) (hi : i ≤ 30) (hx : x ≤ 2 ^ 30) :
    ∃ j, i ≤ j ∧ j ≤ 30 ∧ doublePower fuel (2 ^ i) x = some (2 ^ j) ∧ x ≤ 2 ^ j ∧
      ∀ m, i ≤ m → m < j → (2 : ℤ) ^ m < x := by
  induction fuel generalizing i with
  | zero => omega
  | succ fuel ih =>
    unfold doublePower
    split
    · rename_i hlt
      have hi' : i < 30 := by
        by_contra h
        obtain rfl : i = 30 := by omega
        omega
      have hstep : wrap32 (2 ^ i * 2) = 2 ^ (i + 1) := by
        have hpow : (2 : ℤ) ^ i * 2 = 2 ^ (i + 1) := by ring
        have hle : (2 : ℤ) ^ (i + 1) ≤ 2 ^ 30 := pow_le_pow_right₀ (by omega) (by omega)
        have h0 : (0 : ℤ) < 2 ^ (i + 1) := pow_pos (by omega) _
        rw [hpow, wrap32]
        exact Int.bmod_eq_of_le_mul_two (by omega) (by omega)
      rw [hstep]
      obtain ⟨j, hij, hj, heq, hxj, hmin⟩ := ih (i + 1) (by omega) (by omega)
      refine ⟨j, by omega, hj, heq, hxj, ?_⟩
      intro m him hmj
      obtain rfl | hm : m = i ∨ i + 1 ≤ m := by omega
      · exact hlt
      · exact hmin m hm hmj
    · rename_i hge
      exact ⟨i, le_refl _, hi, rfl, by omega, by omega⟩

theorem highestPowerOf2_eq (hx : x ≤ 2 ^ 30) :
    ∃ j, highestPowerOf2 x = some (2 ^ j) ∧ x ≤ 2 ^ j ∧ ∀ m < j, (2 : ℤ) ^ m < x := by
  unfold highestPowerOf2
  split
  · exact ⟨0, rfl, by simpa using by omega, by omega⟩
  · obtain ⟨j, -, -, heq, hxj, hmin⟩ := doublePower_eq 33 0 (by omega) (by omega) hx
    exact ⟨j, by simpa using heq, hxj, fun m hm => hmin m (by omega) hm⟩

end KernelSim
