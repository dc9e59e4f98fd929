import KernelSim.Library.KeyedTree

/-! The nodes of a binary tree by the paths of child pointers that lead to them. -/
namespace KeyedTree

universe u v

variable {α : Type u} {κ : Type v} {key : α → κ} {t l r : BinaryTree α} {a b : α}
  {path path' : List Bool}

/-- The node at the end of a path; `true` follows the left pointer. -/
def nodeAt : BinaryTree α → List Bool → Option α
  | .nil, _ => none
  | .node a _ _, [] => some a
  | .node _ l r, isLeft :: path => nodeAt (if isLeft then l else r) path

@[simp] theorem nodeAt_nil : nodeAt (.nil : BinaryTree α) path = none := by
  cases path <;> rfl

@[simp] theorem nodeAt_root : nodeAt (.node a l r) [] = some a := rfl

@[simp] theorem nodeAt_left : nodeAt (.node a l r) (true :: path) = nodeAt l path := rfl

@[simp] theorem nodeAt_right : nodeAt (.node a l r) (false :: path) = nodeAt r path := rfl

theorem mem_of_nodeAt (h : nodeAt t path = some a) : a ∈ entries t := by
  induction t generalizing path with
  | nil => simp at h
  | node b l r hl hr =>
    rw [entries_node, List.mem_cons, List.mem_append]
    cases path with
    | nil => exact Or.inl (Option.some.inj h).symm
    | cons isLeft path =>
      cases isLeft with
      | true => exact Or.inr (Or.inl (hl h))
      | false => exact Or.inr (Or.inr (hr h))

/-- With distinct keys, two paths to one key are the same path. -/
theorem nodeAt_unique (hn : ((entries t).map key).Nodup) (h : nodeAt t path = some a)
    (h' : nodeAt t path' = some b) (hk : key a = key b) : path = path' := by
  induction t generalizing path path' with
  | nil => simp at h
  | node c l r hl hr =>
    simp only [entries_node, List.map_cons, List.map_append, List.nodup_cons, List.nodup_append,
      List.mem_append] at hn
    obtain ⟨hc, hnl, hnr, hlr⟩ := hn
    have hkey : ∀ {u : BinaryTree α} {q d}, nodeAt u q = some d → key d ∈ (entries u).map key :=
      fun h => List.mem_map_of_mem (mem_of_nodeAt h)
    cases path with
    | nil =>
      obtain rfl : c = a := Option.some.inj h
      cases path' with
      | nil => rfl
      | cons isLeft path' =>
        cases isLeft with
        | true => exact absurd (Or.inl (hk ▸ hkey h')) hc
        | false => exact absurd (Or.inr (hk ▸ hkey h')) hc
    | cons isLeft path =>
      cases path' with
      | nil =>
        obtain rfl : c = b := Option.some.inj h'
        cases isLeft with
        | true => exact absurd (Or.inl (hk ▸ hkey h)) hc
        | false => exact absurd (Or.inr (hk ▸ hkey h)) hc
      | cons isLeft' path' =>
        cases isLeft with
        | true =>
          cases isLeft' with
          | true => rw [hl hnl h h']
          | false => exact absurd hk (hlr _ (hkey h) _ (hkey h'))
        | false =>
          cases isLeft' with
          | true => exact absurd hk.symm (hlr _ (hkey h') _ (hkey h))
          | false => rw [hr hnr h h']

end KeyedTree
