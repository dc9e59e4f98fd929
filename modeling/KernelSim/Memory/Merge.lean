import KernelSim.Library.TreeContext
import KernelSim.Memory.Operations

/-! Merging seen from the freed block: level by level, the buddy and the parent. -/
namespace KernelSim
open KeyedTree

/-- Merging upwards from the block at a place. -/
def mergeUp : List (Frame MemoryBlock) → MemoryTree → MemoryTree
  | [], t => t
  | f :: fs, t =>
    if canMerge f.sibling then mergeUp fs (.node f.value .nil .nil) else plug (f :: fs) t

/-- The blocks that merging upwards hands back to `malloc`. -/
def absorbed : List (Frame MemoryBlock) → MemoryTree → List MemoryBlock
  | [], _ => []
  | f :: fs, t =>
    if canMerge f.sibling then
      entries t ++ entries f.sibling ++ absorbed fs (.node f.value .nil .nil)
    else []

variable {fs : List (Frame MemoryBlock)} {f : Frame MemoryBlock} {t l r : MemoryTree}
  {b c : MemoryBlock} {parent : Option ℕ} {seg : Segment} {pid time : ℤ} {fuel a : ℕ}

theorem linked_of_fill (h : Linked parent (f.fill t)) :
    f.value.parent = parent ∧ Linked (some f.value.addr) t := by
  unfold Frame.fill at h
  split at h
  · exact ⟨h.1, h.2.1⟩
  · exact ⟨h.1, h.2.2⟩

theorem exists_linked_of_plug (h : Linked parent (plug fs t)) : ∃ parent', Linked parent' t := by
  induction fs generalizing t with
  | nil => exact ⟨parent, h⟩
  | cons f fs ih =>
    obtain ⟨parent', h⟩ := ih h
    exact ⟨_, (linked_of_fill h).2⟩

/-- The hole under a frame is linked to the frame's block. -/
theorem linked_of_plug (h : Linked parent (plug (f :: fs) t)) :
    Linked (some f.value.addr) t := by
  obtain ⟨_, h⟩ := (exists_linked_of_plug h : ∃ parent', Linked parent' (f.fill t))
  exact (linked_of_fill h).2

/-- The frame's sibling is the buddy of the block under the frame. -/
theorem buddyOf_fill (hne : ∀ c ∈ entries f.sibling, c.addr ≠ b.addr) :
    ∃ left right, f.fill (.node b l r) = .node f.value left right ∧
      buddyOf left right b.addr = f.sibling := by
  unfold Frame.fill
  split
  · exact ⟨_, _, rfl, by simp [buddyOf, pointsTo]⟩
  · refine ⟨_, _, rfl, ?_⟩
    cases hs : f.sibling with
    | nil => simp [buddyOf, pointsTo]
    | node c l' r' =>
      have := hne c (by simp [hs])
      simp [buddyOf, pointsTo, this]

/-- The address of a block at a place is not found outside it. -/
theorem outside_isAt (hn : (addrs (plug fs t)).Nodup) (hb : b ∈ entries t) :
    ∀ c ∈ outside fs, c.isAt b.addr = false := by
  intro c hc
  have := outside_ne hn hb c hc
  simpa [MemoryBlock.isAt] using this

/-- The address of a frame is not found further out. -/
theorem not_outside_of_frame (hn : (addrs (plug (f :: fs) t)).Nodup) :
    ∀ c ∈ outside fs, c.isAt f.value.addr = false := by
  rw [plug_cons] at hn
  apply outside_isAt hn
  rw [(entries_fill_perm f _).mem_iff]
  simp

/-- A pointer to the block of a frame reads that block and what is below it. -/
theorem subtree_at_frame (hn : (addrs (plug (f :: fs) t)).Nodup) :
    subtree (·.isAt f.value.addr) (plug (f :: fs) t) = f.fill t :=
  subtree_plug_frame (by simp [MemoryBlock.isAt]) (not_outside_of_frame hn)

/-- The climb along `parent` pointers is the climb through the frames. -/
theorem mergeBuddyBlocks_plug (hn : (addrs (plug fs (.node b l r))).Nodup)
    (hl : Linked none (plug fs (.node b l r))) (hf : fs.length ≤ fuel) :
    mergeBuddyBlocks fuel (plug fs (.node b l r)) b.addr = mergeUp fs (.node b l r) := by
  induction fs generalizing b l r fuel with
  | nil =>
    have hparent : b.parent = none := hl.1
    cases fuel with
    | zero => rfl
    | succ fuel =>
      simp [mergeBuddyBlocks, mergeUp, subtree, MemoryBlock.isAt, hparent]
  | cons f fs ih =>
    obtain ⟨fuel, rfl⟩ : ∃ m, fuel = m + 1 := ⟨fuel - 1, by simp at hf; omega⟩
    have hself : ∀ c ∈ outside (f :: fs), c.isAt b.addr = false :=
      outside_isAt hn (List.mem_cons_self : b ∈ entries (.node b l r))
    have hup := not_outside_of_frame hn
    have hsub : subtree (·.isAt b.addr) (plug (f :: fs) (.node b l r)) = .node b l r := by
      rw [subtree_plug hself]
      exact subtree_node_self (by simp [MemoryBlock.isAt])
    have hparent : b.parent = some f.value.addr := (linked_of_plug hl).1
    obtain ⟨left, right, hfill, hbuddy⟩ : ∃ left right,
        f.fill (.node b l r) = .node f.value left right ∧
          buddyOf left right b.addr = f.sibling := by
      apply buddyOf_fill
      intro c hc
      have := hself c (by simp [outside_cons, hc])
      simpa [MemoryBlock.isAt] using this
    have hsubParent : subtree (·.isAt f.value.addr) (plug (f :: fs) (.node b l r)) =
        .node f.value left right := by
      rw [subtree_at_frame hn, hfill]
    have hprune : prune (·.isAt f.value.addr) (plug (f :: fs) (.node b l r)) =
        plug fs (.node f.value .nil .nil) := by
      rw [plug_cons, prune_plug hup, hfill]
      simp [prune, MemoryBlock.isAt]
    simp only [mergeBuddyBlocks, hsub, hparent, hsubParent, hbuddy]
    by_cases hfree : canMerge f.sibling
    · rw [if_pos hfree, mergeUp, if_pos hfree, hprune]
      apply ih
      · rw [← hprune]
        exact hn.sublist addrs_prune_sublist
      · rw [← hprune]
        exact linked_prune hl
      · simp at hf
        omega
    · rw [if_neg hfree, mergeUp, if_neg hfree]

/-- Merging loses exactly the blocks it absorbs. -/
theorem mem_mergeUp_or_absorbed (h : c ∈ entries (plug fs t)) :
    c ∈ entries (mergeUp fs t) ∨ c ∈ absorbed fs t := by
  induction fs generalizing t with
  | nil => exact Or.inl h
  | cons f fs ih =>
    by_cases hfree : canMerge f.sibling
    · simp only [mergeUp, absorbed, hfree, if_true, List.mem_append]
      rw [plug_cons, mem_entries_plug, (entries_fill_perm f t).mem_iff] at h
      simp only [List.mem_append, List.mem_cons] at h
      rcases h with (h | rfl | h) | h
      · exact Or.inr (Or.inl (Or.inl h))
      · exact (ih (mem_entries_plug.mpr (Or.inl (by simp)))).imp id Or.inr
      · exact Or.inr (Or.inl (Or.inr h))
      · exact (ih (mem_entries_plug.mpr (Or.inr h))).imp id Or.inr
    · simp only [mergeUp, hfree]
      exact Or.inl h

theorem canMerge_leaf (h : canMerge t = true) : ∃ c, t = .node c .nil .nil ∧ c.allocated = 0 := by
  unfold canMerge at h
  split at h
  · exact ⟨_, rfl, by simpa using h⟩
  · cases h

/-- A merge absorbs what it starts from, its ancestors and unallocated blocks beside these. -/
theorem absorbed_cases (h : c ∈ absorbed fs t) :
    c ∈ entries t ∨ (∃ f ∈ fs, c = f.value) ∨ c.allocated = 0 := by
  induction fs generalizing t with
  | nil => simp [absorbed] at h
  | cons f fs ih =>
    by_cases hfree : canMerge f.sibling
    · simp only [absorbed, hfree, if_true, List.mem_append] at h
      rcases h with (h | h) | h
      · exact Or.inl h
      · obtain ⟨d, hd, hzero⟩ := canMerge_leaf hfree
        rw [hd] at h
        obtain rfl : c = d := by simpa using h
        exact Or.inr (Or.inr hzero)
      · rcases ih h with h | ⟨g, hg, heq⟩ | h
        · obtain rfl : c = f.value := by simpa using h
          exact Or.inr (Or.inl ⟨f, List.mem_cons_self, rfl⟩)
        · exact Or.inr (Or.inl ⟨g, List.mem_cons_of_mem _ hg, heq⟩)
        · exact Or.inr (Or.inr h)
    · simp [absorbed, hfree] at h

/-- What is plugged in sits below the block of every frame. -/
theorem mem_subtree_of_frame (hn : (addrs (plug fs t)).Nodup) (hf : f ∈ fs) (hb : b ∈ entries t) :
    b ∈ entries (subtree (·.isAt f.value.addr) (plug fs t)) := by
  obtain ⟨inner, outer, rfl⟩ := List.append_of_mem hf
  rw [plug_append] at hn ⊢
  rw [subtree_at_frame hn, (entries_fill_perm f _).mem_iff]
  exact List.mem_append_left _ (mem_entries_plug.mpr (Or.inl hb))

theorem isInSubtree_of_frame (hn : (addrs (plug fs t)).Nodup) (hf : f ∈ fs) (hb : b ∈ entries t) :
    isInSubtree (subtree (·.isAt f.value.addr) (plug fs t)) b.addr = true :=
  isInSubtree_iff.mpr (addr_mem (mem_subtree_of_frame hn hf hb))

/-- A release merges upwards from the place of the block it finds. -/
theorem deallocateMemory_plug (time : ℤ) (hw : WellFormed seg)
    (hplug : seg.root = plug fs (.node b l r))
    (h : getProcessMemorySegment seg.root (-1) pid = some b.addr) :
    (deallocateMemory seg pid time).1.root = mergeUp fs (.node b.release l r) := by
  obtain ⟨hnone, -⟩ | ⟨a, ha, -, -, hroot⟩ := deallocateMemory_cases seg pid time
  · rw [hnone] at h
    cases h
  rw [h, Option.some.injEq] at ha
  subst ha
  have hn := hw.nodup
  have hlinked := hw.linked
  rw [hplug] at hn hlinked
  have hself : ∀ c ∈ outside fs, c.isAt b.addr = false :=
    outside_isAt hn (List.mem_cons_self : b ∈ entries (.node b l r))
  have hbelow : ∀ c ∈ entries l ++ entries r, c.isAt b.addr = false := by
    have := nodup_inside hn
    simp only [entries_node, List.map_cons, List.nodup_cons, List.mem_map, not_exists,
      not_and] at this
    intro c hc
    simpa [MemoryBlock.isAt] using this.1 c hc
  have hupdate : update (·.isAt b.addr) MemoryBlock.release seg.root =
      plug fs (.node b.release l r) := by
    rw [hplug, update_plug hself]
    have hl : update (·.isAt b.addr) MemoryBlock.release l = l :=
      update_eq_self fun c hc => hbelow c (List.mem_append_left _ hc)
    have hr : update (·.isAt b.addr) MemoryBlock.release r = r :=
      update_eq_self fun c hc => hbelow c (List.mem_append_right _ hc)
    simp [update, MemoryBlock.isAt, hl, hr]
  have hn' : (addrs (plug fs (.node b.release l r))).Nodup := by
    rw [← hupdate, addrs_update fun c => (release_keeps c).1]
    exact hw.nodup
  have hl' : Linked none (plug fs (.node b.release l r)) := by
    rw [← hupdate]
    exact linked_update (fun c => ⟨(release_keeps c).2.2, (release_keeps c).1⟩) hw.linked
  rw [hroot, hupdate]
  exact mergeBuddyBlocks_plug hn' hl' length_le_numNodes

/-- A release of a block in the tree, from the place where the block sits. -/
theorem deallocateMemory_at (time : ℤ) (hw : WellFormed seg)
    (h : getProcessMemorySegment seg.root (-1) pid = some a) :
    ∃ fs b l r, seg.root = plug fs (.node b l r) ∧ b.addr = a ∧ b.processPid = pid ∧ pid ≠ -1 ∧
      (deallocateMemory seg pid time).1.root = mergeUp fs (.node b.release l r) := by
  obtain ⟨b, hb, rfl, hm⟩ := getProcessMemorySegment_some h
  have hm : pid ≠ -1 ∧ b.processPid = pid := by simpa [Matches] using hm
  obtain ⟨l, r, hsub⟩ := subtree_at hw.nodup hb
  obtain ⟨fs, hplug⟩ := exists_plug hsub
  exact ⟨fs, b, l, r, hplug, rfl, hm.2, hm.1, deallocateMemory_plug time hw hplug h⟩

/-- Which block is freed matters to what is absorbed only by itself. -/
theorem absorbed_release (h : c ∈ absorbed fs (.node b.release l r)) (hc : c.addr ≠ b.addr) :
    c ∈ absorbed fs (.node b l r) := by
  cases fs with
  | nil => exact h
  | cons f fs =>
    by_cases hfree : canMerge f.sibling
    · simp only [absorbed, hfree, if_true, List.mem_append, entries_node, List.mem_cons] at h ⊢
      rcases h with ((rfl | h) | h) | h
      · exact absurd rfl hc
      · exact Or.inl (Or.inl (Or.inr h))
      · exact Or.inl (Or.inr h)
      · exact Or.inr h
    · simp [absorbed, hfree] at h

/-- Besides the block released, a release loses only what its merge absorbs. -/
theorem mem_deallocateMemory (time : ℤ) (hw : WellFormed seg)
    (h : getProcessMemorySegment seg.root (-1) pid = some a) :
    ∃ fs b l r, seg.root = plug fs (.node b l r) ∧ b.addr = a ∧ b.processPid = pid ∧
      ∀ c ∈ entries seg.root, c.addr ≠ a → c ∉ absorbed fs (.node b l r) →
        c ∈ entries (deallocateMemory seg pid time).1.root := by
  obtain ⟨fs, b, l, r, hplug, rfl, hbp, -, hroot⟩ := deallocateMemory_at time hw h
  refine ⟨fs, b, l, r, hplug, rfl, hbp, ?_⟩
  intro c hc hca hab
  rw [hroot]
  refine (mem_mergeUp_or_absorbed ?_).resolve_right fun hc => hab (absorbed_release hc hca)
  rw [hplug, mem_entries_plug] at hc
  rw [mem_entries_plug]
  refine hc.imp_left fun hc => ?_
  simp only [entries_node, List.mem_cons, List.mem_append] at hc ⊢
  rcases hc with rfl | hc
  · exact absurd rfl hca
  · exact Or.inr hc

end KernelSim
