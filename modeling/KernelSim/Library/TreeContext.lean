import KernelSim.Library.KeyedTree
import Mathlib.Data.List.Induction

/-! A place in a binary tree: the subtree there and the frames between it and the root. -/
namespace KeyedTree

universe u v

variable {α : Type u} {κ : Type v} {p : α → Bool} {g : α → α} {key : α → κ} {a : α}
  {t l r : BinaryTree α}

/-- One level above a place: on which side it hangs, the node it hangs from, its sibling. -/
structure Frame (α : Type u) where
  isLeft : Bool
  value : α
  sibling : BinaryTree α

def Frame.fill (f : Frame α) (t : BinaryTree α) : BinaryTree α :=
  if f.isLeft then .node f.value t f.sibling else .node f.value f.sibling t

/-- The whole tree, from the innermost frame outwards. -/
def plug : List (Frame α) → BinaryTree α → BinaryTree α
  | [], t => t
  | f :: fs, t => plug fs (f.fill t)

variable {fs gs : List (Frame α)} {f : Frame α}

@[simp] theorem plug_nil : plug [] t = t := rfl

@[simp] theorem plug_cons : plug (f :: fs) t = plug fs (f.fill t) := rfl

theorem plug_append : plug (fs ++ gs) t = plug gs (plug fs t) := by
  induction fs generalizing t with
  | nil => rfl
  | cons f fs ih => exact ih

/-- Every place of a tree, with the subtree there. -/
def places : BinaryTree α → List (List (Frame α) × BinaryTree α)
  | .nil => [([], .nil)]
  | .node a l r => ([], .node a l r) ::
    ((places l).map (fun place => (place.1 ++ [⟨true, a, r⟩], place.2)) ++
      (places r).map fun place => (place.1 ++ [⟨false, a, l⟩], place.2))

theorem places_self (t : BinaryTree α) : ([], t) ∈ places t := by
  cases t with
  | nil => exact List.mem_singleton.mpr rfl
  | node a l r => exact List.mem_cons_self

theorem mem_places {s : BinaryTree α} : (fs, s) ∈ places t ↔ t = plug fs s := by
  constructor
  · intro h
    induction t generalizing fs with
    | nil =>
      cases List.mem_singleton.mp h
      rfl
    | node a l r hl hr =>
      rcases List.mem_cons.mp h with heq | h
      · cases heq
        rfl
      rcases List.mem_append.mp h with h | h <;> obtain ⟨⟨gs, u⟩, hin, heq⟩ := List.mem_map.mp h <;>
        cases heq <;> rw [plug_append]
      · rw [← hl hin]
        rfl
      · rw [← hr hin]
        rfl
  · rintro rfl
    induction fs using List.reverseRecOn with
    | nil => exact places_self s
    | append_singleton gs f ih =>
      obtain ⟨isLeft, a, sibling⟩ := f
      rw [plug_append]
      cases isLeft with
      | true =>
        exact List.mem_cons_of_mem _ (List.mem_append_left _ (List.mem_map.mpr ⟨_, ih, rfl⟩))
      | false =>
        exact List.mem_cons_of_mem _ (List.mem_append_right _ (List.mem_map.mpr ⟨_, ih, rfl⟩))

/-- The values outside a place. -/
def outside (fs : List (Frame α)) : List α := fs.flatMap fun f => f.value :: entries f.sibling

theorem entries_fill_perm (f : Frame α) (t : BinaryTree α) :
    (entries (f.fill t)).Perm (entries t ++ f.value :: entries f.sibling) := by
  unfold Frame.fill
  split
  · exact List.perm_middle.symm
  · exact (List.perm_append_comm :
      (f.value :: entries f.sibling ++ entries t).Perm (entries t ++ f.value :: entries f.sibling))

theorem entries_plug_perm : (entries (plug fs t)).Perm (entries t ++ outside fs) := by
  induction fs generalizing t with
  | nil => simp [outside]
  | cons f fs ih =>
    have h := ih.trans ((entries_fill_perm f t).append_right (outside fs))
    simpa [outside] using h

theorem mem_entries_plug : a ∈ entries (plug fs t) ↔ a ∈ entries t ∨ a ∈ outside fs := by
  rw [entries_plug_perm.mem_iff, List.mem_append]

/-- Every subtree found by a test is found at a place. -/
theorem exists_plug (h : subtree p t = .node a l r) : ∃ fs, t = plug fs (.node a l r) := by
  induction t with
  | nil => simp [subtree] at h
  | node b l' r' hl hr =>
    by_cases hb : p b
    · rw [subtree_node_self hb] at h
      exact ⟨[], h⟩
    have hbf : p b = false := by simpa using hb
    cases hleft : subtree p l' with
    | nil =>
      rw [subtree_node_right hbf hleft] at h
      obtain ⟨fs, hfs⟩ := hr h
      refine ⟨fs ++ [⟨false, b, l'⟩], ?_⟩
      rw [plug_append, ← hfs]
      rfl
    | node c l₁ r₁ =>
      rw [subtree_node_left hbf hleft] at h
      obtain ⟨fs, hfs⟩ := hl (hleft.trans h)
      refine ⟨fs ++ [⟨true, b, r'⟩], ?_⟩
      rw [plug_append, ← hfs]
      rfl

/-! A test that fails everywhere outside the place sees only the place. -/

theorem outside_cons : outside (f :: fs) = f.value :: entries f.sibling ++ outside fs := by
  simp [outside]

theorem subtree_fill (hf : p f.value = false) (hs : ∀ b ∈ entries f.sibling, p b = false) :
    subtree p (f.fill t) = subtree p t := by
  have hsib := subtree_eq_nil_iff.mpr hs
  unfold Frame.fill
  split
  · cases ht : subtree p t with
    | nil => rw [subtree_node_right hf ht, hsib]
    | node b l r => exact subtree_node_left hf ht
  · exact subtree_node_right hf hsib

theorem subtree_plug (h : ∀ b ∈ outside fs, p b = false) :
    subtree p (plug fs t) = subtree p t := by
  induction fs generalizing t with
  | nil => rfl
  | cons f fs ih =>
    simp only [outside_cons, List.cons_append, List.mem_cons, List.mem_append] at h
    rw [plug_cons, ih fun b hb => h b (Or.inr (Or.inr hb))]
    exact subtree_fill (h _ (Or.inl rfl)) fun b hb => h b (Or.inr (Or.inl hb))

/-- A test that passes at a frame's value and nowhere further out finds the frame. -/
theorem subtree_plug_frame (hv : p f.value = true) (h : ∀ b ∈ outside fs, p b = false) :
    subtree p (plug (f :: fs) t) = f.fill t := by
  rw [plug_cons, subtree_plug h]
  unfold Frame.fill
  split <;> exact subtree_node_self hv

theorem prune_eq_self (h : ∀ b ∈ entries t, p b = false) : prune p t = t := by
  induction t with
  | nil => rfl
  | node b l r hl hr =>
    simp only [entries_node, List.mem_cons, List.mem_append] at h
    simp [prune, h b (Or.inl rfl), hl fun c hc => h c (Or.inr (Or.inl hc)),
      hr fun c hc => h c (Or.inr (Or.inr hc))]

theorem prune_plug (h : ∀ b ∈ outside fs, p b = false) :
    prune p (plug fs t) = plug fs (prune p t) := by
  induction fs generalizing t with
  | nil => rfl
  | cons f fs ih =>
    simp only [outside_cons, List.cons_append, List.mem_cons, List.mem_append] at h
    rw [plug_cons, ih fun b hb => h b (Or.inr (Or.inr hb)), plug_cons]
    have hsib := prune_eq_self fun b hb => h b (Or.inr (Or.inl hb))
    have hval := h _ (Or.inl rfl)
    congr 1
    unfold Frame.fill
    split <;> simp [prune, hval, hsib]

theorem update_plug (h : ∀ b ∈ outside fs, p b = false) :
    update p g (plug fs t) = plug fs (update p g t) := by
  induction fs generalizing t with
  | nil => rfl
  | cons f fs ih =>
    simp only [outside_cons, List.cons_append, List.mem_cons, List.mem_append] at h
    rw [plug_cons, ih fun b hb => h b (Or.inr (Or.inr hb)), plug_cons]
    have hsib := (update_eq_self fun b hb => h b (Or.inr (Or.inl hb)) : update p g f.sibling = f.sibling)
    have hval := h _ (Or.inl rfl)
    congr 1
    unfold Frame.fill
    split <;> simp [update, hval, hsib]

/-- With distinct keys, the keys of a place do not occur outside it. -/
theorem outside_ne (hn : ((entries (plug fs t)).map key).Nodup) (ha : a ∈ entries t) :
    ∀ b ∈ outside fs, key b ≠ key a := by
  intro b hb he
  rw [(entries_plug_perm.map key).nodup_iff, List.map_append, List.nodup_append] at hn
  exact hn.2.2 _ (List.mem_map_of_mem ha) _ (List.mem_map_of_mem hb) he.symm

theorem nodup_inside (hn : ((entries (plug fs t)).map key).Nodup) :
    ((entries t).map key).Nodup := by
  rw [(entries_plug_perm.map key).nodup_iff, List.map_append, List.nodup_append] at hn
  exact hn.1

theorem length_le_numNodes : fs.length ≤ (plug fs t).numNodes := by
  have h : ∀ t : BinaryTree α, (entries t).length = t.numNodes := by
    intro t
    induction t with
    | nil => rfl
    | node b l r hl hr => simp [hl, hr]
  rw [← h, entries_plug_perm.length_eq, List.length_append]
  have : fs.length ≤ (outside fs).length := by
    induction fs with
    | nil => simp
    | cons f fs ih =>
      simp only [outside_cons, List.length_append, List.length_cons]
      omega
  omega

end KeyedTree
