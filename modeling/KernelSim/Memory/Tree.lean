import KernelSim.Memory.Block
import Mathlib.Tactic.Ring
import Mathlib.Algebra.Order.Ring.Int
import Mathlib.Data.List.Nodup

/-! Well-formed buddy trees and the address ranges of their blocks. -/
namespace KernelSim
open KeyedTree

/-- `process_pid` is what the search takes for in use. -/
abbrev MemoryBlock.live (b : MemoryBlock) : Prop := b.processPid ≠ -1

/-- Every block of a tree with the first address of its range. -/
def placed : ℤ → MemoryTree → List (ℤ × MemoryBlock)
  | _, .nil => []
  | lo, .node b l r => (lo, b) :: (placed lo l ++ placed (lo + b.size.tdiv 2) r)

def addrs (t : MemoryTree) : List ℕ := (entries t).map MemoryBlock.addr

/-- Sizes halve from `2 ^ k` down to 1, and a block of size 1 is never split. -/
def Shape : ℕ → MemoryTree → Prop
  | _, .nil => True
  | 0, .node b l r => b.size = 1 ∧ l = .nil ∧ r = .nil
  | k + 1, .node b l r => b.size = 2 ^ (k + 1) ∧ Shape k l ∧ Shape k r

/-- Every `parent` field points at the block one level up. -/
def Linked : Option ℕ → MemoryTree → Prop
  | _, .nil => True
  | parent, .node b l r => b.parent = parent ∧ Linked (some b.addr) l ∧ Linked (some b.addr) r

structure WellFormed (seg : Segment) : Prop where
  nonempty : seg.root ≠ .nil
  shape : Shape 10 seg.root
  linked : Linked none seg.root
  nodup : (addrs seg.root).Nodup
  fresh : ∀ a ∈ addrs seg.root, a < seg.next

variable {k : ℕ} {lo x : ℤ} {t l r : MemoryTree} {b c : MemoryBlock} {a : ℕ}
  {parent : Option ℕ} {p : MemoryBlock → Bool} {f : MemoryBlock → MemoryBlock}

@[simp] theorem placed_nil : placed lo .nil = [] := rfl

@[simp] theorem placed_node : placed lo (.node b l r) =
    (lo, b) :: (placed lo l ++ placed (lo + b.size.tdiv 2) r) := rfl

@[simp] theorem addrs_nil : addrs .nil = [] := rfl

@[simp] theorem addrs_node : addrs (.node b l r) = b.addr :: (addrs l ++ addrs r) := by
  simp [addrs]

@[simp] theorem shape_nil (k : ℕ) : Shape k .nil := by
  cases k <;> trivial

theorem two_pow_tdiv (k : ℕ) : ((2 : ℤ) ^ (k + 1)).tdiv 2 = 2 ^ k := by
  rw [pow_succ]
  exact Int.mul_tdiv_cancel _ (by omega)

theorem shape_size (h : Shape k (.node b l r)) : b.size = 2 ^ k := by
  cases k with
  | zero => simpa using h.1
  | succ k => exact h.1

/-- The two halves of a block; a block of size 1 has none. -/
theorem shape_children (h : Shape k (.node b l r)) :
    (k = 0 ∧ l = .nil ∧ r = .nil) ∨
      ∃ j, k = j + 1 ∧ b.size.tdiv 2 = 2 ^ j ∧ Shape j l ∧ Shape j r := by
  cases k with
  | zero => exact Or.inl ⟨rfl, h.2⟩
  | succ j =>
    refine Or.inr ⟨j, rfl, ?_, h.2⟩
    rw [h.1]
    exact two_pow_tdiv j

theorem placed_entries (lo : ℤ) (t : MemoryTree) : (placed lo t).map Prod.snd = entries t := by
  induction t generalizing lo with
  | nil => rfl
  | node b l r hl hr => simp [hl, hr]

theorem entries_of_placed (h : (x, b) ∈ placed lo t) : b ∈ entries t := by
  rw [← placed_entries lo]
  exact List.mem_map_of_mem (f := Prod.snd) h

theorem placed_of_entries (lo : ℤ) (h : b ∈ entries t) : ∃ x, (x, b) ∈ placed lo t := by
  rw [← placed_entries lo] at h
  obtain ⟨⟨x, b'⟩, hm, rfl⟩ := List.mem_map.mp h
  exact ⟨x, hm⟩

theorem addr_mem (h : b ∈ entries t) : b.addr ∈ addrs t := List.mem_map_of_mem h

/-- Every range lies inside the root's. -/
theorem placed_range (hs : Shape k t) (h : (x, b) ∈ placed lo t) :
    lo ≤ x ∧ x + b.size ≤ lo + 2 ^ k ∧ 0 < b.size := by
  induction t generalizing k lo with
  | nil => simp at h
  | node c l r hl hr =>
    have hc := shape_size hs
    have hk : (0 : ℤ) < 2 ^ k := pow_pos (by omega) k
    simp only [placed_node, List.mem_cons, List.mem_append, Prod.mk.injEq] at h
    obtain ⟨-, rfl, rfl⟩ | ⟨j, rfl, hj, hsl, hsr⟩ := shape_children hs
    · simp only [placed_nil, List.not_mem_nil, or_self, or_false] at h
      obtain ⟨rfl, rfl⟩ := h
      omega
    · have hp : (2 : ℤ) ^ (j + 1) = 2 ^ j + 2 ^ j := by ring
      have hj0 : (0 : ℤ) < 2 ^ j := pow_pos (by omega) j
      rcases h with ⟨rfl, rfl⟩ | h | h
      · omega
      · have := hl hsl h
        omega
      · rw [hj] at h
        have := hr hsr h
        omega

theorem isInSubtree_iff : isInSubtree t a = true ↔ a ∈ addrs t := by
  induction t with
  | nil => simp [isInSubtree]
  | node b l r hl hr =>
    simp only [isInSubtree, Bool.or_eq_true, beq_iff_eq, hl, hr, addrs_node, List.mem_cons,
      List.mem_append]
    constructor
    · rintro ((rfl | h) | h) <;> simp_all
    · rintro (rfl | h | h) <;> simp_all

theorem addressLoop_eq (hs : Shape k t) (hn : (addrs t).Nodup) (h : (x, b) ∈ placed lo t) :
    addressLoop b.addr t (2 ^ k) lo = (x, x + b.size - 1) := by
  induction t generalizing k lo with
  | nil => simp at h
  | node c l r hl hr =>
    simp only [addrs_node, List.nodup_cons, List.nodup_append, List.mem_append] at hn
    obtain ⟨hc, hnl, hnr, hlr⟩ := hn
    simp only [placed_node, List.mem_cons, List.mem_append, Prod.mk.injEq] at h
    rcases h with ⟨rfl, rfl⟩ | h
    · simp [addressLoop]
    obtain ⟨-, rfl, rfl⟩ | ⟨j, rfl, hj, hsl, hsr⟩ := shape_children hs
    · simp at h
    rcases h with h | h
    · have hb := addr_mem (entries_of_placed h)
      have hne : c.addr ≠ b.addr := fun he => hc (Or.inl (he ▸ hb))
      simp only [addressLoop, hne, if_false, two_pow_tdiv, isInSubtree_iff.mpr hb, if_true]
      exact hl hsl hnl h
    · have hb := addr_mem (entries_of_placed h)
      have hne : c.addr ≠ b.addr := fun he => hc (Or.inr (he ▸ hb))
      have hbl : isInSubtree l b.addr = false := by
        rw [← Bool.not_eq_true, isInSubtree_iff]
        exact fun hm => hlr _ hm _ hb rfl
      rw [hj] at h
      simp only [addressLoop, hne, if_false, two_pow_tdiv, hbl, Bool.false_eq_true,
        isInSubtree_iff.mpr hb, if_true]
      exact hr hsr hnr h

/-- The address search agrees with where the block sits in the tree. -/
theorem getBlockAddress_eq (hs : Shape k t) (hn : (addrs t).Nodup)
    (h : (x, b) ∈ placed 0 t) : getBlockAddress t b.addr = (x, x + b.size - 1) := by
  cases t with
  | nil => simp at h
  | node c l r =>
    have hloop := addressLoop_eq hs hn h
    by_cases hc : c.addr = b.addr
    · simpa [getBlockAddress, addressLoop, hc] using hloop
    · simpa only [getBlockAddress, hc, if_false, shape_size hs] using hloop

/-! Writes and prunings keep the shape, the links and the addresses. -/

theorem placed_update (hf : ∀ b, (f b).size = b.size) : placed lo (update p f t) =
    (placed lo t).map (fun q => (q.1, if p q.2 then f q.2 else q.2)) := by
  induction t generalizing lo with
  | nil => rfl
  | node b l r hl hr =>
    have hb : (if p b then f b else b).size = b.size := by split <;> simp [hf]
    simp [update, hl, hr, hb]

theorem addrs_update (hf : ∀ b, (f b).addr = b.addr) : addrs (update p f t) = addrs t := by
  simp only [addrs, entries_update, List.map_map]
  apply List.map_congr_left
  intro b _
  by_cases hb : p b <;> simp [hb, hf]

/-- After a write through a block pointer a block is the one written, or one of the others. -/
theorem written_or_kept (h : c ∈ entries (update (·.isAt a) f t)) :
    (∃ b ∈ entries t, b.addr = a ∧ c = f b) ∨ (c ∈ entries t ∧ c.addr ≠ a) := by
  rw [entries_update] at h
  obtain ⟨b, hb, rfl⟩ := List.mem_map.mp h
  by_cases hba : b.addr = a
  · exact Or.inl ⟨b, hb, hba, by simp [MemoryBlock.isAt, hba]⟩
  · have hf : b.isAt a = false := by simpa [MemoryBlock.isAt] using hba
    simp only [hf, Bool.false_eq_true, if_false]
    exact Or.inr ⟨hb, hba⟩

theorem shape_update (hf : ∀ b, (f b).size = b.size) (hs : Shape k t) :
    Shape k (update p f t) := by
  induction t generalizing k with
  | nil => trivial
  | node b l r hl hr =>
    have hb : (if p b then f b else b).size = b.size := by split <;> simp [hf]
    obtain ⟨rfl, rfl, rfl⟩ | ⟨j, rfl, -, hsl, hsr⟩ := shape_children hs
    · exact ⟨hb.trans hs.1, rfl, rfl⟩
    · exact ⟨hb.trans hs.1, hl hsl, hr hsr⟩

theorem linked_update (hf : ∀ b, (f b).parent = b.parent ∧ (f b).addr = b.addr)
    (h : Linked parent t) : Linked parent (update p f t) := by
  induction t generalizing parent with
  | nil => trivial
  | node b l r hl hr =>
    obtain ⟨hb, hll, hlr⟩ := h
    have hkeep : (if p b then f b else b).parent = b.parent ∧
        (if p b then f b else b).addr = b.addr := by split <;> simp [hf]
    refine ⟨hkeep.1.trans hb, ?_, ?_⟩
    · rw [hkeep.2]
      exact hl hll
    · rw [hkeep.2]
      exact hr hlr

theorem placed_prune_sublist : (placed lo (prune p t)).Sublist (placed lo t) := by
  induction t generalizing lo with
  | nil => exact List.Sublist.refl _
  | node b l r hl hr =>
    simp only [prune]
    split
    · simp
    · exact (hl.append hr).cons_cons _

theorem addrs_prune_sublist : (addrs (prune p t)).Sublist (addrs t) :=
  entries_prune_sublist.map _

theorem shape_prune (hs : Shape k t) : Shape k (prune p t) := by
  induction t generalizing k with
  | nil => trivial
  | node b l r hl hr =>
    simp only [prune]
    obtain ⟨rfl, rfl, rfl⟩ | ⟨j, rfl, -, hsl, hsr⟩ := shape_children hs
    · split <;> exact ⟨hs.1, rfl, rfl⟩
    · split
      · exact ⟨hs.1, shape_nil j, shape_nil j⟩
      · exact ⟨hs.1, hl hsl, hr hsr⟩

theorem linked_prune (h : Linked parent t) : Linked parent (prune p t) := by
  induction t generalizing parent with
  | nil => trivial
  | node b l r hl hr =>
    simp only [prune]
    split
    · exact ⟨h.1, trivial, trivial⟩
    · exact ⟨h.1, hl h.2.1, hr h.2.2⟩

theorem prune_ne_nil (h : t ≠ .nil) : prune p t ≠ .nil := by
  cases t with
  | nil => exact absurd rfl h
  | node b l r =>
    simp only [prune]
    split <;> simp

theorem update_ne_nil (h : t ≠ .nil) : update p f t ≠ .nil := by
  cases t with
  | nil => exact absurd rfl h
  | node b l r => simp [update]

/-- Two blocks at one address are the same block. -/
theorem entry_unique (hn : (addrs t).Nodup) (hb : b ∈ entries t) (hc : c ∈ entries t)
    (h : b.addr = c.addr) : b = c := List.inj_on_of_nodup_map hn hb hc h

theorem placed_unique {y : ℤ} (hn : (addrs t).Nodup) (hb : (x, b) ∈ placed lo t)
    (hc : (y, b) ∈ placed lo t) : (x, b) = (y, b) := by
  rw [addrs, ← placed_entries lo, List.map_map] at hn
  exact List.inj_on_of_nodup_map hn hb hc rfl

/-- A pointer to a block reads that block. -/
theorem subtree_at (hn : (addrs t).Nodup) (hb : b ∈ entries t) :
    ∃ l r, subtree (·.isAt b.addr) t = .node b l r := by
  cases h : subtree (·.isAt b.addr) t with
  | nil =>
    have := subtree_eq_nil_iff.mp h b hb
    simp [MemoryBlock.isAt] at this
  | node c l r =>
    obtain ⟨hc, hp⟩ := subtree_mem h
    have : c = b := entry_unique hn hc hb (by simpa [MemoryBlock.isAt] using hp)
    exact ⟨l, r, by rw [this]⟩

/-- What hangs below a block sits in the block's own range. -/
theorem placed_of_subtree {q : ℤ × MemoryBlock} (hn : (addrs t).Nodup) (hs : Shape k t)
    (hb : (x, b) ∈ placed lo t) (h : subtree (·.isAt b.addr) t = .node b l r)
    (hq : q ∈ placed x (.node b l r)) :
    q ∈ placed lo t ∧ ∃ j, b.size = 2 ^ j ∧ Shape j (.node b l r) := by
  induction t generalizing k lo with
  | nil => simp at hb
  | node c l' r' hl hr =>
    simp only [addrs_node, List.nodup_cons, List.nodup_append, List.mem_append] at hn
    obtain ⟨hc, hnl, hnr, hlr⟩ := hn
    simp only [placed_node, List.mem_cons, List.mem_append, Prod.mk.injEq] at hb
    by_cases hcb : c.addr = b.addr
    · rw [subtree_node_self (by simpa [MemoryBlock.isAt] using hcb)] at h
      simp only [BinaryTree.node.injEq] at h
      obtain ⟨rfl, rfl, rfl⟩ := h
      have hx : x = lo := by
        rcases hb with ⟨rfl, -⟩ | hb | hb
        · rfl
        · exact absurd (Or.inl (addr_mem (entries_of_placed hb))) hc
        · exact absurd (Or.inr (addr_mem (entries_of_placed hb))) hc
      subst hx
      exact ⟨hq, k, shape_size hs, hs⟩
    have hcf : MemoryBlock.isAt b.addr c = false := by simpa [MemoryBlock.isAt] using hcb
    obtain ⟨-, rfl, rfl⟩ | ⟨j, rfl, hj, hsl, hsr⟩ := shape_children hs
    · simp [subtree, hcf] at h
    rcases hb with ⟨-, rfl⟩ | hb | hb
    · exact absurd rfl hcb
    · obtain ⟨l₁, r₁, hsub⟩ := subtree_at hnl (entries_of_placed hb)
      rw [subtree_node_left hcf hsub] at h
      obtain ⟨hq', hshape⟩ := hl hnl hsl hb (hsub.trans h)
      exact ⟨by simp [hq'], hshape⟩
    · have hsub : subtree (·.isAt b.addr) l' = .nil := by
        rw [subtree_eq_nil_iff]
        intro d hd
        rw [MemoryBlock.isAt, beq_eq_false_iff_ne]
        exact fun he => hlr _ (addr_mem hd) _ (addr_mem (entries_of_placed hb)) he
      rw [subtree_node_right hcf hsub] at h
      obtain ⟨hq', hshape⟩ := hr hnr hsr hb h
      exact ⟨by simp [hq'], hshape⟩

/-- A block in the subtree of another has its range inside the other's. -/
theorem range_of_isInSubtree {y : ℤ} (hn : (addrs t).Nodup) (hs : Shape k t)
    (hb : (x, b) ∈ placed lo t) (hc : (y, c) ∈ placed lo t)
    (h : isInSubtree (subtree (·.isAt b.addr) t) c.addr = true) :
    x ≤ y ∧ y + c.size ≤ x + b.size := by
  obtain ⟨l, r, hsub⟩ := subtree_at hn (entries_of_placed hb)
  rw [hsub, isInSubtree_iff] at h
  obtain ⟨d, hd, hda⟩ := List.mem_map.mp h
  obtain ⟨z, hz⟩ := placed_of_entries x hd
  obtain ⟨hdt, j, hj, hshape⟩ := placed_of_subtree hn hs hb hsub hz
  obtain rfl := entry_unique hn (entries_of_placed hdt) (entries_of_placed hc) hda
  have hzy := placed_unique hn hdt hc
  have hrange := placed_range hshape hz
  simp only [Prod.mk.injEq, and_true] at hzy
  omega

end KernelSim
