import Mathlib.Data.List.Nodup
import Mathlib.Logic.Equiv.Basic
import Mathlib.Order.Lattice

/-! Binary heaps in an array prefix, for a three-way comparison that may be a total preorder on
the elements in use only. -/
namespace BinaryHeap

universe u v

variable {α : Type u}

def parent (i : ℕ) : ℕ := (i - 1) / 2

def leftChild (i : ℕ) : ℕ := 2 * i + 1

def rightChild (i : ℕ) : ℕ := 2 * i + 2

def swap (f : ℕ → α) (i j : ℕ) : ℕ → α := fun k => f (Equiv.swap i j k)

section Sift

variable (cmp : α → α → ℤ)

/-- Exchange an element with its parent while it is less. -/
def siftUp : ℕ → (ℕ → α) → ℕ → ℕ → α
  | 0, f, _ => f
  | fuel + 1, f, i =>
    if 0 < i ∧ cmp (f i) (f (parent i)) < 0 then
      siftUp fuel (swap f i (parent i)) (parent i)
    else f

/-- Move the parents down from the place `i` while they are greater than `a`, then put `a` in the
place left. -/
def siftHole (a : α) : ℕ → (ℕ → α) → ℕ → ℕ → α
  | 0, f, i => Function.update f i a
  | fuel + 1, f, i =>
    if 0 < i ∧ 0 < cmp (f (parent i)) a then
      siftHole a fuel (Function.update f i (f (parent i))) (parent i)
    else Function.update f i a

/-- The least of an element and its children, which must be among the first `n`. -/
def smallest (n : ℕ) (f : ℕ → α) (i : ℕ) : ℕ :=
  let least := if leftChild i < n ∧ cmp (f (leftChild i)) (f i) < 0 then leftChild i else i
  if rightChild i < n ∧ cmp (f (rightChild i)) (f least) < 0 then rightChild i else least

/-- Exchange an element with its least child while that is less. -/
def siftDown (n : ℕ) : ℕ → (ℕ → α) → ℕ → ℕ → α
  | 0, f, _ => f
  | fuel + 1, f, i =>
    let least := smallest cmp n f i
    if least ≠ i then siftDown n fuel (swap f i least) least else f

/-- The places that `siftHole` reads and writes. -/
def siftHolePlaces (a : α) : ℕ → (ℕ → α) → ℕ → List ℕ
  | 0, _, i => [i]
  | fuel + 1, f, i =>
    if 0 < i then
      parent i ::
        if 0 < cmp (f (parent i)) a then
          i :: siftHolePlaces a fuel (Function.update f i (f (parent i))) (parent i)
        else [i]
    else [i]

/-- The places that the comparisons of `smallest` read. -/
def smallestPlaces (n : ℕ) (f : ℕ → α) (i : ℕ) : List ℕ :=
  let least := if leftChild i < n ∧ cmp (f (leftChild i)) (f i) < 0 then leftChild i else i
  (if leftChild i < n then [leftChild i, i] else []) ++
    if rightChild i < n then [rightChild i, least] else []

/-- The places that `siftDown` reads and writes. -/
def siftDownPlaces (n : ℕ) : ℕ → (ℕ → α) → ℕ → List ℕ
  | 0, _, _ => []
  | fuel + 1, f, i =>
    let least := smallest cmp n f i
    smallestPlaces cmp n f i ++
      if least ≠ i then i :: least :: siftDownPlaces n fuel (swap f i least) least else []

/-- `a` may stand above `b`. -/
def Le (a b : α) : Prop := ¬ cmp b a < 0

/-- `cmp` compares the elements of `S` by a total preorder. -/
structure TotalPreorderOn (S : α → Prop) : Prop where
  asymm : ∀ a b, S a → S b → cmp a b < 0 → Le cmp a b
  trans : ∀ a b c, S a → S b → S c → Le cmp a b → Le cmp b c → Le cmp a c

/-- No element of the prefix is less than its parent. -/
def Ordered (f : ℕ → α) (n : ℕ) : Prop := ∀ k, 0 < k → k < n → Le cmp (f (parent k)) (f k)

/-- Heap order but for the element at `i`, which may be less than its parent. -/
structure UpOrder (f : ℕ → α) (n i : ℕ) : Prop where
  rest : ∀ k, 0 < k → k < n → k ≠ i → Le cmp (f (parent k)) (f k)
  skip : ∀ k, 0 < k → k < n → parent k = i → 0 < i → Le cmp (f (parent i)) (f k)

/-- Heap order but for the element at `i`, which may be greater than its children. -/
structure DownOrder (f : ℕ → α) (n i : ℕ) : Prop where
  rest : ∀ k, 0 < k → k < n → parent k ≠ i → Le cmp (f (parent k)) (f k)
  skip : ∀ k, 0 < k → k < n → parent k = i → 0 < i → Le cmp (f (parent i)) (f k)

end Sift

/-- The elements of the prefix. -/
def toList (f : ℕ → α) (n : ℕ) : List α := (List.range n).map f

variable {cmp : α → α → ℤ} {S : α → Prop} {f : ℕ → α} {n i j k fuel : ℕ} {a b : α}

theorem parent_lt (h : 0 < i) : parent i < i := by
  unfold parent
  omega

theorem parent_eq_iff (h : 0 < k) : parent k = i ↔ k = leftChild i ∨ k = rightChild i := by
  unfold parent leftChild rightChild
  omega

@[simp] theorem swap_left (f : ℕ → α) (i j : ℕ) : swap f i j i = f j := by simp [swap]

@[simp] theorem swap_right (f : ℕ → α) (i j : ℕ) : swap f i j j = f i := by simp [swap]

theorem swap_of_ne (hi : k ≠ i) (hj : k ≠ j) : swap f i j k = f k := by
  rw [swap, Equiv.swap_apply_of_ne_of_ne hi hj]

theorem forall_swap {P : α → Prop} (hi : i < n) (hj : j < n) (h : ∀ k < n, P (f k)) :
    ∀ k < n, P (swap f i j k) := by
  intro k hk
  by_cases hki : k = i
  · subst hki
    rw [swap_left]
    exact h j hj
  · by_cases hkj : k = j
    · subst hkj
      rw [swap_right]
      exact h i hi
    · rw [swap_of_ne hki hkj]
      exact h k hk

theorem mem_toList : a ∈ toList f n ↔ ∃ k < n, f k = a := by simp [toList]

@[simp] theorem length_toList : (toList f n).length = n := by simp [toList]

/-- Exchanging two elements of the prefix permutes it. -/
theorem toList_swap (hi : i < n) (hj : j < n) : (toList (swap f i j) n).Perm (toList f n) := by
  have hindices : ((List.range n).map (Equiv.swap i j)).Perm (List.range n) := by
    refine (List.perm_ext_iff_of_nodup ?_ List.nodup_range).mpr ?_
    · exact List.nodup_range.map (Equiv.swap i j).injective
    · intro k
      simp only [List.mem_map, List.mem_range]
      constructor
      · rintro ⟨m, hm, rfl⟩
        exact forall_swap (f := id) (P := (· < n)) hi hj (fun _ h => h) m hm
      · intro hk
        exact ⟨Equiv.swap i j k, forall_swap (f := id) (P := (· < n)) hi hj (fun _ h => h) k hk,
          Equiv.swap_apply_self i j k⟩
  have := hindices.map f
  rwa [List.map_map] at this

theorem toList_congr {g : ℕ → α} (h : ∀ k < n, f k = g k) : toList f n = toList g n := by
  apply List.map_congr_left
  intro k hk
  exact h k (List.mem_range.mp hk)

theorem toList_succ : toList f (n + 1) = toList f n ++ [f n] := by
  simp [toList, List.range_succ]

/-- A new last element. -/
theorem toList_push : toList (Function.update f n a) (n + 1) = toList f n ++ [a] := by
  rw [toList_succ, Function.update_self]
  congr 1
  apply toList_congr
  intro k hk
  exact Function.update_of_ne (by omega) _ _

theorem upOrder_push (h : Ordered cmp f n) : UpOrder cmp (Function.update f n a) (n + 1) n := by
  have hold : ∀ k < n, Function.update f n a k = f k :=
    fun k hk => Function.update_of_ne (by omega) _ _
  constructor
  · intro k hk hkn hne
    have hpk := parent_lt hk
    rw [hold _ (by omega), hold k (by omega)]
    exact h k hk (by omega)
  · intro k hk hkn hpk _
    have hpk' := parent_lt hk
    omega

/-- The last element takes the place of the first. -/
theorem toList_replaceRoot (h : 0 < n) :
    (toList f n).Perm (f 0 :: toList (Function.update f 0 (f (n - 1))) (n - 1)) := by
  obtain ⟨m, rfl⟩ : ∃ m, n = m + 1 := ⟨n - 1, by omega⟩
  rw [Nat.add_sub_cancel, toList_succ]
  cases m with
  | zero => exact .refl _
  | succ m =>
    simp only [toList, List.range_succ_eq_map, List.map_cons, List.map_map, Function.update_self,
      List.cons_append]
    refine .cons _ (List.perm_append_singleton _ _ |>.trans (.cons _ ?_))
    exact .of_eq (List.map_congr_left fun k _ => by simp)

theorem downOrder_replaceRoot (h : Ordered cmp f n) :
    DownOrder cmp (Function.update f 0 (f (n - 1))) (n - 1) 0 := by
  constructor
  · intro k hk hkn hpk
    rw [Function.update_of_ne hpk, Function.update_of_ne (by omega)]
    exact h k hk (by omega)
  · intro k _ _ _ hpos
    exact absurd hpos (Nat.lt_irrefl 0)

theorem forall_push {P : α → Prop} (h : ∀ k < n, P (f k)) (ha : P a) :
    ∀ k < n + 1, P (Function.update f n a k) := by
  intro k hk
  by_cases hkn : k = n
  · subst hkn
    rwa [Function.update_self]
  · rw [Function.update_of_ne hkn]
    exact h k (by omega)

theorem forall_replaceRoot {P : α → Prop} (h : ∀ k < n, P (f k)) :
    ∀ k < n - 1, P (Function.update f 0 (f (n - 1)) k) := by
  intro k hk
  rw [Function.update_apply]
  split <;> exact h _ (by omega)

/-- Moving the parents down one by one is exchanging the new element with them, where the
comparison is turned round. -/
theorem siftHole_eq (cmp : α → α → ℤ) (a : α) :
    siftHole cmp a fuel f i = siftUp (fun x y => -cmp y x) fuel (Function.update f i a) i := by
  induction fuel generalizing f i with
  | zero => rfl
  | succ fuel ih =>
    simp only [siftHole, siftUp, Function.update_self]
    by_cases hi : 0 < i
    · have hne : parent i ≠ i := Nat.ne_of_lt (parent_lt hi)
      have hflip : -cmp (f (parent i)) a < 0 ↔ 0 < cmp (f (parent i)) a := by omega
      have hswap : Function.update (Function.update f i (f (parent i))) (parent i) a =
          swap (Function.update f i a) i (parent i) := by
        funext k
        by_cases hk : k = parent i
        · subst hk
          rw [Function.update_self, swap_right, Function.update_self]
        · rw [Function.update_of_ne hk]
          by_cases hki : k = i
          · subst hki
            rw [Function.update_self, swap_left, Function.update_of_ne hne]
          · rw [Function.update_of_ne hki, swap_of_ne hki hk, Function.update_of_ne hki]
      simp only [hi, true_and, Function.update_of_ne hne, hflip, ih, hswap]
    · simp only [hi, false_and, if_false]

section Key

variable {β : Type v} [LinearOrder β] {key : α → β}

theorem le_iff_key (hkey : ∀ a b, S a → S b → (cmp a b < 0 ↔ key a < key b)) (ha : S a) (hb : S b) :
    Le cmp a b ↔ key a ≤ key b := by
  rw [Le, hkey b a hb ha, not_lt]

/-- A comparison that is exact on keys in a linear order is a total preorder. -/
theorem totalPreorderOn_of_key (hkey : ∀ a b, S a → S b → (cmp a b < 0 ↔ key a < key b)) :
    TotalPreorderOn cmp S where
  asymm := by
    intro a b ha hb hlt
    exact (le_iff_key hkey ha hb).mpr (le_of_lt ((hkey a b ha hb).mp hlt))
  trans := by
    intro a b c ha hb hc hab hbc
    rw [le_iff_key hkey ha hb] at hab
    rw [le_iff_key hkey hb hc] at hbc
    exact (le_iff_key hkey ha hc).mpr (le_trans hab hbc)

end Key
theorem ordered_of_downOrder (h : DownOrder cmp f n i) (hi : n ≤ i) : Ordered cmp f n := by
  intro k hk hkn
  apply h.rest k hk hkn
  intro hp
  have := parent_lt hk
  omega

/-- The root of a heap is a least element. -/
theorem root_le (hS : TotalPreorderOn cmp S) (hf : ∀ k < n, S (f k)) (h : Ordered cmp f n)
    (hk : k < n) : Le cmp (f 0) (f k) := by
  induction k using Nat.strongRecOn with
  | ind k ih =>
    obtain rfl | hpos : k = 0 ∨ 0 < k := by omega
    · intro hlt
      exact hS.asymm _ _ (hf 0 hk) (hf 0 hk) hlt hlt
    · have hp := parent_lt hpos
      exact hS.trans _ _ _ (hf 0 (by omega)) (hf _ (by omega)) (hf k hk)
        (ih _ hp (by omega)) (h k hpos hk)

/-- One exchange moves the misplaced element to its parent's place. -/
theorem upOrder_swap (hS : TotalPreorderOn cmp S) (hf : ∀ k < n, S (f k)) (hin : i < n)
    (hpos : 0 < i) (hlt : cmp (f i) (f (parent i)) < 0) (h : UpOrder cmp f n i) :
    UpOrder cmp (swap f i (parent i)) n (parent i) := by
  have hpi := parent_lt hpos
  have hSi := hf i hin
  have hSp := hf (parent i) (by omega)
  have hle : Le cmp (f i) (f (parent i)) := hS.asymm _ _ hSi hSp hlt
  constructor
  · intro k hk hkn hne
    have hpk := parent_lt hk
    by_cases hki : k = i
    · subst hki
      rw [swap_left, swap_right]
      exact hle
    rw [swap_of_ne hki hne]
    by_cases hpki : parent k = i
    · rw [hpki, swap_left]
      exact h.skip k hk hkn hpki hpos
    · by_cases hpp : parent k = parent i
      · rw [hpp, swap_right]
        exact hS.trans _ _ _ hSi hSp (hf k hkn) hle (hpp ▸ h.rest k hk hkn hki)
      · rw [swap_of_ne hpki hpp]
        exact h.rest k hk hkn hki
  · intro k hk hkn hpk hpp
    have hppp := parent_lt hpp
    have hup : Le cmp (f (parent (parent i))) (f (parent i)) :=
      h.rest (parent i) hpp (by omega) (by omega)
    rw [swap_of_ne (by omega) (by omega)]
    by_cases hki : k = i
    · subst hki
      rw [swap_left]
      exact hup
    · have hlt := parent_lt hk
      rw [swap_of_ne hki (by omega)]
      exact hS.trans _ _ _ (hf _ (by omega)) hSp (hf k hkn) hup (hpk ▸ h.rest k hk hkn hki)

theorem siftUp_ordered (hS : TotalPreorderOn cmp S) (hf : ∀ k < n, S (f k)) (hin : i < n)
    (hfuel : i ≤ fuel) (h : UpOrder cmp f n i) : Ordered cmp (siftUp cmp fuel f i) n := by
  have hdone : ∀ {f : ℕ → α} {i : ℕ}, UpOrder cmp f n i →
      ¬ (0 < i ∧ cmp (f i) (f (parent i)) < 0) → Ordered cmp f n := by
    intro f i h hstop k hk hkn
    by_cases hki : k = i
    · subst hki
      exact fun hlt => hstop ⟨hk, hlt⟩
    · exact h.rest k hk hkn hki
  induction fuel generalizing f i with
  | zero => exact hdone h (by omega)
  | succ fuel ih =>
    rw [siftUp]
    split
    · rename_i hgo
      have hpi := parent_lt hgo.1
      exact ih (forall_swap hin (by omega) hf) (by omega) (by omega)
        (upOrder_swap hS hf hin hgo.1 hgo.2 h)
    · rename_i hstop
      exact hdone h hstop

theorem siftUp_perm (hin : i < n) : (toList (siftUp cmp fuel f i) n).Perm (toList f n) := by
  induction fuel generalizing f i with
  | zero => exact .refl _
  | succ fuel ih =>
    rw [siftUp]
    split
    · rename_i hgo
      have hpi := parent_lt hgo.1
      exact (ih (by omega)).trans (toList_swap hin (by omega))
    · exact .refl _

/-- An element that is not less than the root leaves the root in its place. -/
theorem siftUp_root (hi : 0 < i) (h : ¬ cmp (f i) (f 0) < 0) : siftUp cmp fuel f i 0 = f 0 := by
  induction fuel generalizing f i with
  | zero => rfl
  | succ fuel ih =>
    rw [siftUp]
    split
    · rename_i hgo
      have hp : 0 < parent i := by
        apply Nat.pos_of_ne_zero
        intro hzero
        rw [hzero] at hgo
        exact h hgo.2
      have hroot : swap f i (parent i) 0 = f 0 := swap_of_ne (by omega) (by omega)
      rw [ih hp (by rwa [hroot, swap_right]), hroot]
    · rfl

/-- The least of an element and its children is one of them and not above the others. -/
theorem smallest_spec (hS : TotalPreorderOn cmp S) (hf : ∀ k < n, S (f k)) (hin : i < n) :
    smallest cmp n f i < n ∧
    (smallest cmp n f i = i ∨ 0 < smallest cmp n f i ∧ parent (smallest cmp n f i) = i) ∧
    Le cmp (f (smallest cmp n f i)) (f i) ∧
    ∀ k, 0 < k → k < n → parent k = i → Le cmp (f (smallest cmp n f i)) (f k) := by
  have hrefl : ∀ k < n, Le cmp (f k) (f k) := fun k hk hlt =>
    hS.asymm _ _ (hf k hk) (hf k hk) hlt hlt
  have hchild : ∀ k, 0 < k → (parent k = i ↔ k = leftChild i ∨ k = rightChild i) :=
    fun k hk => parent_eq_iff hk
  have hl : 0 < leftChild i := by simp [leftChild]
  have hr : 0 < rightChild i := by simp [rightChild]
  have hpl := (hchild _ hl).mpr (Or.inl rfl)
  have hpr := (hchild _ hr).mpr (Or.inr rfl)
  -- the left child against the element, then the right child against the lesser of the two
  obtain ⟨least, hleast, hln, hlp, hli, hll⟩ : ∃ least,
      (if leftChild i < n ∧ cmp (f (leftChild i)) (f i) < 0 then leftChild i else i) = least ∧
      least < n ∧ (least = i ∨ 0 < least ∧ parent least = i) ∧ Le cmp (f least) (f i) ∧
      (leftChild i < n → Le cmp (f least) (f (leftChild i))) := by
    by_cases h : leftChild i < n ∧ cmp (f (leftChild i)) (f i) < 0
    · exact ⟨_, if_pos h, h.1, Or.inr ⟨hl, hpl⟩, hS.asymm _ _ (hf _ h.1) (hf i hin) h.2,
        fun _ => hrefl _ h.1⟩
    · exact ⟨_, if_neg h, hin, Or.inl rfl, hrefl i hin, fun hn hlt => h ⟨hn, hlt⟩⟩
  simp only [smallest, hleast]
  by_cases h : rightChild i < n ∧ cmp (f (rightChild i)) (f least) < 0
  · have hle := hS.asymm _ _ (hf _ h.1) (hf _ hln) h.2
    rw [if_pos h]
    refine ⟨h.1, Or.inr ⟨hr, hpr⟩, hS.trans _ _ _ (hf _ h.1) (hf _ hln) (hf i hin) hle hli, ?_⟩
    intro k hk hkn hpk
    rcases (hchild k hk).mp hpk with rfl | rfl
    · exact hS.trans _ _ _ (hf _ h.1) (hf _ hln) (hf _ hkn) hle (hll hkn)
    · exact hrefl _ hkn
  · rw [if_neg h]
    refine ⟨hln, hlp, hli, ?_⟩
    intro k hk hkn hpk
    rcases (hchild k hk).mp hpk with rfl | rfl
    · exact hll hkn
    · exact fun hlt => h ⟨hkn, hlt⟩

/-- One exchange moves the misplaced element to its least child's place. -/
theorem downOrder_swap (hS : TotalPreorderOn cmp S) (hf : ∀ k < n, S (f k)) (hin : i < n)
    (hne : smallest cmp n f i ≠ i) (h : DownOrder cmp f n i) :
    DownOrder cmp (swap f i (smallest cmp n f i)) n (smallest cmp n f i) := by
  obtain ⟨hsn, hsi, hle, hall⟩ := smallest_spec hS hf hin
  obtain ⟨hspos, hps⟩ := hsi.resolve_left hne
  generalize smallest cmp n f i = s at *
  have his : i < s := hps ▸ parent_lt hspos
  constructor
  · intro k hk hkn hpk
    have hpk' := parent_lt hk
    by_cases hks : k = s
    · subst hks
      rw [hps, swap_left, swap_right]
      exact hle
    by_cases hki : k = i
    · subst hki
      rw [swap_left, swap_of_ne (by omega) hpk]
      exact h.skip s hspos hsn hps hk
    rw [swap_of_ne hki hks]
    by_cases hpki : parent k = i
    · rw [hpki, swap_left]
      exact hall k hk hkn hpki
    · rw [swap_of_ne hpki hpk]
      exact h.rest k hk hkn hpki
  · intro k hk hkn hpk _
    have hpk' := parent_lt hk
    rw [hps, swap_left, swap_of_ne (by omega) (by omega)]
    have := h.rest k hk hkn (by omega)
    rwa [hpk] at this

theorem siftDown_ordered (hS : TotalPreorderOn cmp S) (hf : ∀ k < n, S (f k)) (hin : i < n)
    (hfuel : n ≤ i + fuel) (h : DownOrder cmp f n i) :
    Ordered cmp (siftDown cmp n fuel f i) n := by
  induction fuel generalizing f i with
  | zero => omega
  | succ fuel ih =>
    obtain ⟨hsn, hsi, hle, hall⟩ := smallest_spec hS hf hin
    simp only [siftDown]
    split
    · rename_i hne
      obtain ⟨hspos, hps⟩ := hsi.resolve_left hne
      have his := parent_lt hspos
      exact ih (forall_swap hin hsn hf) hsn (by omega) (downOrder_swap hS hf hin hne h)
    · rename_i heq
      rw [not_not] at heq
      rw [heq] at hall
      intro k hk hkn
      by_cases hpk : parent k = i
      · rw [hpk]
        exact hall k hk hkn hpk
      · exact h.rest k hk hkn hpk

/-- `cmp` is negative one way round where it is positive the other. -/
def Antisymmetric (cmp : α → α → ℤ) (S : α → Prop) : Prop :=
  ∀ a b, S a → S b → (0 < cmp a b ↔ cmp b a < 0)

theorem le_flip (h : Antisymmetric cmp S) (ha : S a) (hb : S b) :
    Le (fun x y => -cmp y x) a b ↔ Le cmp a b := by
  have := h a b ha hb
  show ¬ -cmp a b < 0 ↔ ¬ cmp b a < 0
  omega

theorem TotalPreorderOn.flip (hS : TotalPreorderOn cmp S) (h : Antisymmetric cmp S) :
    TotalPreorderOn (fun x y => -cmp y x) S where
  asymm := by
    intro a b ha hb hlt
    have hneg : -cmp b a < 0 := hlt
    have := h b a hb ha
    exact (le_flip h ha hb).mpr (hS.asymm a b ha hb (by omega))
  trans := by
    intro a b c ha hb hc hab hbc
    exact (le_flip h ha hc).mpr
      (hS.trans a b c ha hb hc ((le_flip h ha hb).mp hab) ((le_flip h hb hc).mp hbc))

theorem ordered_flip (h : Antisymmetric cmp S) (hf : ∀ k < n, S (f k)) :
    Ordered (fun x y => -cmp y x) f n ↔ Ordered cmp f n := by
  have hlt : ∀ k, 0 < k → k < n → parent k < n := fun k hk hkn => Nat.lt_trans (parent_lt hk) hkn
  constructor
  · exact fun ho k hk hkn => (le_flip h (hf _ (hlt k hk hkn)) (hf k hkn)).mp (ho k hk hkn)
  · exact fun ho k hk hkn => (le_flip h (hf _ (hlt k hk hkn)) (hf k hkn)).mpr (ho k hk hkn)

theorem siftHole_perm : (toList (siftHole cmp a n f n) (n + 1)).Perm (toList f n ++ [a]) := by
  rw [siftHole_eq, ← toList_push]
  exact siftUp_perm (Nat.lt_succ_self n)

theorem forall_siftHole {P : α → Prop} (hf : ∀ k < n, P (f k)) (ha : P a) :
    ∀ k < n + 1, P (siftHole cmp a n f n k) := by
  intro k hk
  have hmem : siftHole cmp a n f n k ∈ toList f n ++ [a] :=
    siftHole_perm.subset (mem_toList.mpr ⟨k, hk, rfl⟩)
  rcases List.mem_append.mp hmem with h | h
  · obtain ⟨j, hj, heq⟩ := mem_toList.mp h
    exact heq ▸ hf j hj
  · rw [List.mem_singleton.mp h]
    exact ha

/-- A new element put in its place keeps the order. -/
theorem siftHole_ordered (hS : TotalPreorderOn cmp S) (h : Antisymmetric cmp S)
    (hf : ∀ k < n, S (f k)) (ha : S a) (ho : Ordered cmp f n) :
    Ordered cmp (siftHole cmp a n f n) (n + 1) := by
  rw [← ordered_flip h (forall_siftHole hf ha), siftHole_eq]
  exact siftUp_ordered (hS.flip h) (forall_push hf ha) (Nat.lt_succ_self n) (Nat.le_refl n)
    (upOrder_push ((ordered_flip h hf).mpr ho))

theorem smallest_lt (hin : i < n) : smallest cmp n f i < n := by
  simp only [smallest]
  -- the split on the right child's test meets the left child's first
  repeat' split
  all_goals omega

theorem lt_smallest (h : smallest cmp n f i ≠ i) : i < smallest cmp n f i := by
  simp only [smallest, leftChild, rightChild] at *
  grind

theorem siftDown_perm (hin : i < n) : (toList (siftDown cmp n fuel f i) n).Perm (toList f n) := by
  induction fuel generalizing f i with
  | zero => exact .refl _
  | succ fuel ih =>
    simp only [siftDown]
    split
    · exact (ih (smallest_lt hin)).trans (toList_swap hin (smallest_lt hin))
    · exact .refl _

section Congr

variable {cmp' : α → α → ℤ}

/-! Only the comparisons of the elements in use matter. -/

theorem siftUp_congr (h : ∀ a b, S a → S b → cmp a b = cmp' a b) (hf : ∀ k < n, S (f k))
    (hin : i < n) : siftUp cmp fuel f i = siftUp cmp' fuel f i := by
  induction fuel generalizing f i with
  | zero => rfl
  | succ fuel ih =>
    have hp : parent i < n := by
      unfold parent
      omega
    simp only [siftUp, h _ _ (hf i hin) (hf _ hp), ih (forall_swap hin hp hf) hp]

theorem smallest_congr (h : ∀ a b, S a → S b → cmp a b = cmp' a b) (hf : ∀ k < n, S (f k))
    (hin : i < n) : smallest cmp n f i = smallest cmp' n f i := by
  have hless : ∀ k j, j < n → (k < n ∧ cmp (f k) (f j) < 0 ↔ k < n ∧ cmp' (f k) (f j) < 0) :=
    fun k j hj => and_congr_right fun hk => by rw [h _ _ (hf k hk) (hf j hj)]
  simp only [smallest, hless _ i hin]
  split
  · rename_i hleft
    simp only [hless _ _ hleft.1]
  · simp only [hless _ i hin]

theorem siftDown_congr (h : ∀ a b, S a → S b → cmp a b = cmp' a b) (hf : ∀ k < n, S (f k))
    (hin : i < n) : siftDown cmp n fuel f i = siftDown cmp' n fuel f i := by
  induction fuel generalizing f i with
  | zero => rfl
  | succ fuel ih =>
    have hleast : smallest cmp' n f i < n := smallest_lt hin
    simp only [siftDown, smallest_congr h hf hin, ih (forall_swap hin hleast hf) hleast]

end Congr

theorem siftHolePlaces_le : ∀ k ∈ siftHolePlaces cmp a fuel f i, k ≤ i := by
  induction fuel generalizing f i with
  | zero => simp [siftHolePlaces]
  | succ fuel ih =>
    intro k hk
    rw [siftHolePlaces] at hk
    split at hk
    · rename_i hi
      have hlt := parent_lt hi
      split at hk
      · rcases List.mem_cons.mp hk with rfl | hk
        · omega
        rcases List.mem_cons.mp hk with rfl | hk
        · exact Nat.le_refl _
        · exact Nat.le_trans (ih k hk) (Nat.le_of_lt hlt)
      · simp only [List.mem_cons, List.not_mem_nil, or_false] at hk
        omega
    · exact Nat.le_of_eq (List.mem_singleton.mp hk)

theorem smallestPlaces_lt : ∀ k ∈ smallestPlaces cmp n f i, k < n := by
  intro k hk
  simp only [smallestPlaces, leftChild, rightChild] at hk
  grind

/-- Nothing outside the prefix is touched, even where it is empty. -/
theorem siftDownPlaces_lt : ∀ k ∈ siftDownPlaces cmp n fuel f i, k < n := by
  induction fuel generalizing f i with
  | zero => simp [siftDownPlaces]
  | succ fuel ih =>
    intro k hk
    rcases List.mem_append.mp hk with hk | hk
    · exact smallestPlaces_lt k hk
    · split at hk
      · rename_i hne
        have hin : smallest cmp n f i < n := by
          simp only [smallest] at hne ⊢
          grind
        have hlt := lt_smallest hne
        rcases List.mem_cons.mp hk with rfl | hk
        · omega
        rcases List.mem_cons.mp hk with rfl | hk
        · exact hin
        · exact ih k hk
      · exact absurd hk List.not_mem_nil

/-! An element that changed where it stands: sifted up and then down at the same place. -/

/-- Heap order but for the element at `i`, which may be out of order on either side. -/
structure AlmostOrdered (cmp : α → α → ℤ) (f : ℕ → α) (n i : ℕ) : Prop where
  rest : ∀ k, 0 < k → k < n → k ≠ i → parent k ≠ i → Le cmp (f (parent k)) (f k)
  skip : ∀ k, 0 < k → k < n → parent k = i → 0 < i → Le cmp (f (parent i)) (f k)

theorem siftUp_stop (h : ¬ (0 < i ∧ cmp (f i) (f (parent i)) < 0)) : siftUp cmp fuel f i = f := by
  cases fuel with
  | zero => rfl
  | succ fuel => exact if_neg h

theorem Ordered.downOrder (hS : TotalPreorderOn cmp S) (hf : ∀ k < n, S (f k))
    (h : Ordered cmp f n) (i : ℕ) : DownOrder cmp f n i where
  rest := fun k hk hkn _ => h k hk hkn
  skip := by
    rintro k hk hkn rfl hpos
    have hlt := parent_lt hk
    have hlt' := parent_lt hpos
    exact hS.trans _ _ _ (hf _ (by omega)) (hf _ (by omega)) (hf k hkn)
      (h _ hpos (by omega)) (h k hk hkn)

/-- An element less than its parent is less than its children. -/
theorem AlmostOrdered.upOrder (hS : TotalPreorderOn cmp S) (hf : ∀ k < n, S (f k)) (hin : i < n)
    (h : AlmostOrdered cmp f n i) (hpos : 0 < i) (hlt : cmp (f i) (f (parent i)) < 0) :
    UpOrder cmp f n i where
  rest := by
    intro k hk hkn hne
    by_cases hpk : parent k = i
    · have hpi := parent_lt hpos
      have hle : Le cmp (f i) (f (parent i)) := hS.asymm _ _ (hf i hin) (hf _ (by omega)) hlt
      rw [hpk]
      exact hS.trans _ _ _ (hf i hin) (hf _ (by omega)) (hf k hkn) hle (h.skip k hk hkn hpk hpos)
    · exact h.rest k hk hkn hne hpk
  skip := h.skip

/-- An element that is not less than its parent is out of order on the other side only. -/
theorem AlmostOrdered.downOrder (h : AlmostOrdered cmp f n i)
    (hstop : ¬ (0 < i ∧ cmp (f i) (f (parent i)) < 0)) : DownOrder cmp f n i where
  rest := by
    intro k hk hkn hpk
    by_cases hki : k = i
    · subst hki
      exact fun hlt => hstop ⟨hk, hlt⟩
    · exact h.rest k hk hkn hki hpk
  skip := h.skip

theorem forall_siftUp {P : α → Prop} (hin : i < n) (h : ∀ k < n, P (f k)) :
    ∀ k < n, P (siftUp cmp fuel f i k) := by
  intro k hk
  have hperm : (toList (siftUp cmp fuel f i) n).Perm (toList f n) := siftUp_perm hin
  obtain ⟨j, hj, heq⟩ := mem_toList.mp (hperm.subset (mem_toList.mpr ⟨k, hk, rfl⟩))
  exact heq ▸ h j hj

/-- After the element has moved up, the one that stands in its place does not move down. -/
theorem AlmostOrdered.sift (hS : TotalPreorderOn cmp S) (hf : ∀ k < n, S (f k)) (hin : i < n)
    (h : AlmostOrdered cmp f n i) :
    Ordered cmp (siftDown cmp n n (siftUp cmp i f i) i) n := by
  apply siftDown_ordered hS (forall_siftUp hin hf) hin (Nat.le_add_left n i)
  by_cases hup : 0 < i ∧ cmp (f i) (f (parent i)) < 0
  · have horder := siftUp_ordered hS hf hin (Nat.le_refl i) (h.upOrder hS hf hin hup.1 hup.2)
    exact horder.downOrder hS (forall_siftUp hin hf) i
  · rw [siftUp_stop hup]
    exact h.downOrder hup

end BinaryHeap
