import KernelSim.Memory.BuddyShape
import Mathlib.Data.Int.ConditionallyCompleteOrder
import Mathlib.Order.CompletePartialOrder

/-! The address ranges of `get_block_address` over any tree whose sizes halve. -/
namespace KernelSim
open KeyedTree Dyadic

/-- Along its child pointers: sizes are powers of two, a child has half its parent's size, and no
two blocks are at one address. -/
structure Halving (t : MemoryTree) : Prop where
  power : ∀ path b, nodeAt t path = some b → ∃ k : ℕ, b.size = 2 ^ k
  half : ∀ path isLeft b c, nodeAt t path = some b → nodeAt t (path ++ [isLeft]) = some c →
    2 * c.size = b.size
  distinct : (addrs t).Nodup

/-- The bytes between the two addresses that `get_block_address` gives. -/
def blockRange (t : MemoryTree) (block : ℕ) : Set ℤ :=
  Set.Icc (getBlockAddress t block).1 (getBlockAddress t block).2

/-- Two ranges are nested as the blocks are in the tree, or have nothing in common. -/
structure LaminarAddresses (t : MemoryTree) : Prop where
  range : ∀ path b, nodeAt t path = some b →
    ∃ x, getBlockAddress t b.addr = (x, x + b.size - 1) ∧ b.size ∣ x
  inside : ∀ path b root, nodeAt t path = some b → nodeAt t [] = some root →
    blockRange t b.addr ⊆ blockRange t root.addr ∧ blockRange t root.addr = Set.Ico 0 root.size
  nested : ∀ p q a b, nodeAt t p = some a → nodeAt t q = some b → p <+: q →
    blockRange t b.addr ⊆ blockRange t a.addr
  apart : ∀ p q a b, nodeAt t p = some a → nodeAt t q = some b → ¬ p <+: q → ¬ q <+: p →
    Disjoint (blockRange t a.addr) (blockRange t b.addr)
  absent : ∀ block, block ∉ addrs t → getBlockAddress t block = (-1, -1)

variable {t l r : MemoryTree} {b c : MemoryBlock} {k block : ℕ} {lo : ℤ} {path : List Bool}

/-- A child that halves a power of two, and a block of size 1, which has none. -/
theorem shape_of_paths (hpower : ∀ path b, nodeAt t path = some b → ∃ k : ℕ, b.size = 2 ^ k)
    (hhalf : ∀ path isLeft b c, nodeAt t path = some b → nodeAt t (path ++ [isLeft]) = some c →
      2 * c.size = b.size)
    (hroot : ∀ b, nodeAt t [] = some b → b.size = 2 ^ k) : Shape k t := by
  induction t generalizing k with
  | nil => exact shape_nil k
  | node b l r hl hr =>
    have hsize : b.size = 2 ^ k := hroot b rfl
    cases k with
    | zero =>
      have hnone : ∀ isLeft c, nodeAt (.node b l r) [isLeft] = some c → False := by
        intro isLeft c hc
        have := hhalf [] isLeft b c rfl hc
        omega
      have hnil : ∀ u : MemoryTree, (∀ c, nodeAt u [] = some c → False) → u = .nil := by
        intro u hu
        cases u with
        | nil => rfl
        | node c _ _ => exact (hu c rfl).elim
      exact ⟨hsize, hnil l (hnone true), hnil r (hnone false)⟩
    | succ k =>
      have hchild : ∀ isLeft c, nodeAt (.node b l r) [isLeft] = some c → c.size = 2 ^ k := by
        intro isLeft c hc
        have := hhalf [] isLeft b c rfl hc
        have hpow : (2 : ℤ) ^ (k + 1) = 2 * 2 ^ k := pow_succ' 2 k
        omega
      refine ⟨hsize, hl ?_ ?_ (hchild true), hr ?_ ?_ (hchild false)⟩
      · exact fun path => hpower (true :: path)
      · exact fun path => hhalf (true :: path)
      · exact fun path => hpower (false :: path)
      · exact fun path => hhalf (false :: path)

theorem Halving.shape (h : Halving t) : ∃ k, Shape k t := by
  cases t with
  | nil => exact ⟨0, trivial⟩
  | node b l r =>
    obtain ⟨k, hk⟩ := h.power [] b rfl
    refine ⟨k, shape_of_paths h.power h.half ?_⟩
    intro c hc
    obtain rfl : b = c := Option.some.inj hc
    exact hk

theorem halving_of_shape (hs : Shape k t) (hn : (addrs t).Nodup) : Halving t where
  power := by
    intro path b hb
    exact ⟨_, (shape_nodeAt hs hb).2⟩
  half := by
    intro path isLeft b c hb hc
    obtain ⟨hlen, hsize⟩ := shape_nodeAt hs hc
    rw [List.length_append, List.length_singleton] at hlen hsize
    have hk : k - path.length = k - (path.length + 1) + 1 := by omega
    rw [hsize, (shape_nodeAt hs hb).2, hk]
    exact (pow_succ' 2 _).symm
  distinct := hn

/-- Where the block at the end of a path sits. -/
theorem placed_of_nodeAt (hs : Shape k t) (h : nodeAt t path = some b) (lo : ℤ) :
    (lo + start k path, b) ∈ placed lo t := by
  induction path generalizing t k lo with
  | nil =>
    cases t with
    | nil => simp at h
    | node c l r =>
      obtain rfl : c = b := Option.some.inj h
      simp
  | cons isLeft path ih =>
    cases t with
    | nil => simp at h
    | node c l r =>
      obtain ⟨-, rfl, rfl⟩ | ⟨j, rfl, hj, hsl, hsr⟩ := shape_children hs
      · cases isLeft <;> simp at h
      rw [placed_node, hj]
      cases isLeft with
      | true =>
        have hplaced := ih hsl h lo
        rw [start_low]
        simp [hplaced]
      | false =>
        have hplaced := ih hsr h (lo + 2 ^ j)
        rw [start_high, ← Int.add_assoc]
        simp [hplaced]

theorem addressLoop_absent (ht : t ≠ .nil) (h : block ∉ addrs t) (size base : ℤ) :
    addressLoop block t size base = (-1, -1) := by
  cases t with
  | nil => exact absurd rfl ht
  | node b l r =>
    simp only [addrs_node, List.mem_cons, List.mem_append, not_or] at h
    obtain ⟨hb, hl, hr⟩ := h
    rw [← isInSubtree_iff] at hl hr
    rw [addressLoop, if_neg (Ne.symm hb), if_neg hl, if_neg hr]

theorem getBlockAddress_absent (h : block ∉ addrs t) : getBlockAddress t block = (-1, -1) := by
  cases t with
  | nil => rfl
  | node b l r =>
    have hb : b.addr ≠ block := by
      rintro rfl
      exact h (by simp)
    rw [getBlockAddress, if_neg hb]
    exact addressLoop_absent (by simp) h _ _

/-- Every tree whose sizes halve has laminar addresses, whatever its depth and holes. -/
theorem laminarAddresses_of_halving (h : Halving t) : LaminarAddresses t := by
  obtain ⟨k, hs⟩ := h.shape
  -- each range is the part of `[0, 2 ^ k)` at the end of the block's path
  have haddress : ∀ path b, nodeAt t path = some b → path.length ≤ k ∧
      b.size = 2 ^ (k - path.length) ∧
      getBlockAddress t b.addr = (start k path, start k path + b.size - 1) := by
    intro path b hb
    obtain ⟨hlen, hsize⟩ := shape_nodeAt hs hb
    have hplaced := placed_of_nodeAt hs hb 0
    rw [zero_add] at hplaced
    exact ⟨hlen, hsize, getBlockAddress_eq hs h.distinct hplaced⟩
  have hrange : ∀ path b, nodeAt t path = some b → blockRange t b.addr =
      Set.Icc (start k path) (start k path + 2 ^ (k - path.length) - 1) := by
    intro path b hb
    obtain ⟨-, hsize, haddr⟩ := haddress path b hb
    rw [blockRange, haddr, hsize]
  have hnested : ∀ p q a b, nodeAt t p = some a → nodeAt t q = some b → p <+: q →
      blockRange t b.addr ⊆ blockRange t a.addr := by
    rintro p _ a b ha hb ⟨rest, rfl⟩
    have hlen := (haddress _ b hb).1
    obtain ⟨hlo, hhi⟩ := start_nested hlen
    rw [hrange _ b hb, hrange _ a ha]
    apply Set.Icc_subset_Icc hlo
    omega
  constructor
  · intro path b hb
    obtain ⟨hlen, hsize, haddr⟩ := haddress path b hb
    exact ⟨start k path, haddr, hsize ▸ start_dvd hlen⟩
  · intro path b root hb hroot
    refine ⟨hnested [] path root b hroot hb List.nil_prefix, ?_⟩
    obtain ⟨-, hsize, -⟩ := haddress [] root hroot
    rw [hrange [] root hroot, hsize, start_nil]
    ext y
    rw [Set.mem_Icc, Set.mem_Ico]
    omega
  · exact hnested
  · intro p q a b ha hb hpq hqp
    rw [hrange p a ha, hrange q b hb, Set.disjoint_left]
    rintro y ⟨h1, h2⟩ ⟨h3, h4⟩
    have := start_apart (haddress p a ha).1 (haddress q b hb).1 hpq hqp
    omega
  · exact fun block => getBlockAddress_absent

/-- Eight bytes, of which the second quarter and the upper half have blocks of their own. -/
def eightBytes : MemoryTree :=
  .node (blankBlock 0 8 none)
    (.node (blankBlock 1 4 (some 0)) .nil (.node (blankBlock 2 2 (some 1)) .nil .nil))
    (.node (blankBlock 3 4 (some 0)) .nil .nil)

theorem eightBytes_laminar :
    getBlockAddress eightBytes 2 = (2, 3) ∧ LaminarAddresses eightBytes := by
  have hs : Shape 3 eightBytes := by simp [eightBytes, Shape, blankBlock]
  exact ⟨by decide, laminarAddresses_of_halving (halving_of_shape hs (by decide))⟩

end KernelSim
