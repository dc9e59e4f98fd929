import Mathlib.Data.Tree.Basic
import Mathlib.Data.List.Basic
import Mathlib.Data.List.Nodup

/-! Binary trees whose nodes are reached by a test on their values, as through a pointer. -/
namespace KeyedTree

universe u

variable {α : Type u} {p : α → Bool} {f : α → α} {t : BinaryTree α} {a : α}

/-- The values of a tree, each node before its left and right subtrees. -/
def entries : BinaryTree α → List α
  | .nil => []
  | .node a l r => a :: (entries l ++ entries r)

/-- The subtree at the first node passing the test; `nil` when there is none. -/
def subtree (p : α → Bool) : BinaryTree α → BinaryTree α
  | .nil => .nil
  | .node a l r =>
    if p a then .node a l r
    else match subtree p l with
      | .nil => subtree p r
      | .node b l' r' => .node b l' r'

/-- Apply `f` at the nodes passing the test. -/
def update (p : α → Bool) (f : α → α) : BinaryTree α → BinaryTree α
  | .nil => .nil
  | .node a l r => .node (if p a then f a else a) (update p f l) (update p f r)

/-- Drop the children of the nodes passing the test. -/
def prune (p : α → Bool) : BinaryTree α → BinaryTree α
  | .nil => .nil
  | .node a l r => if p a then .node a .nil .nil else .node a (prune p l) (prune p r)

@[simp] theorem entries_nil : entries (.nil : BinaryTree α) = [] := rfl

@[simp] theorem entries_node (a : α) (l r : BinaryTree α) :
    entries (.node a l r) = a :: (entries l ++ entries r) := rfl

theorem entries_update : entries (update p f t) =
    (entries t).map (fun a => if p a then f a else a) := by
  induction t with
  | nil => rfl
  | node a l r hl hr => simp [update, hl, hr]

theorem update_update {g : α → α} (hf : ∀ a, p (f a) = p a) :
    update p g (update p f t) = update p (g ∘ f) t := by
  induction t with
  | nil => rfl
  | node a l r hl hr =>
    simp only [update, hl, hr, BinaryTree.node.injEq, and_true]
    by_cases ha : p a <;> simp [ha, hf]

theorem update_eq_self (h : ∀ a ∈ entries t, p a = false) : update p f t = t := by
  induction t with
  | nil => rfl
  | node a l r hl hr =>
    simp only [entries_node, List.mem_cons, List.mem_append] at h
    simp [update, h a (Or.inl rfl), hl (fun b hb => h b (.inr (.inl hb))),
      hr (fun b hb => h b (.inr (.inr hb)))]

theorem entries_prune_sublist : (entries (prune p t)).Sublist (entries t) := by
  induction t with
  | nil => exact List.Sublist.refl _
  | node a l r hl hr =>
    simp only [prune]
    split
    · simp
    · exact (hl.append hr).cons_cons a

theorem subtree_node_self {l r : BinaryTree α} (ha : p a = true) :
    subtree p (.node a l r) = .node a l r := by simp [subtree, ha]

theorem subtree_node_left {b : α} {l r l' r' : BinaryTree α} (ha : p a = false)
    (hl : subtree p l = .node b l' r') : subtree p (.node a l r) = .node b l' r' := by
  simp [subtree, ha, hl]

theorem subtree_node_right {l r : BinaryTree α} (ha : p a = false) (hl : subtree p l = .nil) :
    subtree p (.node a l r) = subtree p r := by
  simp [subtree, ha, hl]

theorem subtree_mem {l r : BinaryTree α} (h : subtree p t = .node a l r) :
    a ∈ entries t ∧ p a = true := by
  induction t with
  | nil => simp [subtree] at h
  | node b l' r' hl hr =>
    simp only [subtree] at h
    split at h
    · cases h
      simp_all
    · split at h
      · have := hr h
        simp_all
      · rename_i heq
        have := hl (heq.trans h)
        simp_all

theorem subtree_eq_nil_iff : subtree p t = .nil ↔ ∀ a ∈ entries t, p a = false := by
  induction t with
  | nil => simp [subtree]
  | node a l r hl hr =>
    simp only [subtree]
    split
    · simp_all
    · split
      · rename_i heq
        have := hl.mp heq
        simp_all
        grind
      · rename_i heq
        have : ¬ ∀ a ∈ entries l, p a = false := fun h => by simp [hl.mpr h] at heq
        simp_all
        grind

end KeyedTree
