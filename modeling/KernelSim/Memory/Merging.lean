import KernelSim.Library.TreePath
import KernelSim.Memory.Release

/-! When a release leaves no ancestor divided over free memory. -/
namespace KernelSim
open KeyedTree Runs

/-- No live block in the tree. -/
def NoneLive (t : MemoryTree) : Prop := ∀ b ∈ entries t, ¬ b.live

/-- A release of `pid` finds `b`, with `fs` between it and the root. -/
def FoundAt (seg : Segment) (pid : ℤ) (fs : List (Frame MemoryBlock)) (b : MemoryBlock)
    (l r : MemoryTree) : Prop :=
  seg.root = plug fs (.node b l r) ∧ getProcessMemorySegment seg.root (-1) pid = some b.addr

/-- After a release no ancestor of the block is divided without a live block below it, and a tree
without live blocks is the node that `initialize_memory_Segment` made. -/
structure Merged (seg : Segment) (pid time : ℤ) : Prop where
  ancestor : ∀ below f above b l r c left right, FoundAt seg pid (below ++ f :: above) b l r →
    subtree (·.isAt f.value.addr) (deallocateMemory seg pid time).1.root = .node c left right →
    NoneLive (.node c left right) → left = .nil ∧ right = .nil
  last : (deallocateMemory seg pid time).2 = true → NoneLive (deallocateMemory seg pid time).1.root →
    ∃ c, (deallocateMemory seg pid time).1.root = .node c .nil .nil ∧ c.addr = 0 ∧ c.size = 1024

def MergesFreed (seg : Segment) : MemoryOp → Prop
  | .admission _ _ _ _ => True
  | .deallocation pid time => Merged seg pid time

/-- Where the buddies from the freed block up to below an ancestor can all be merged, and nothing
is live in the ancestor, on its other side or in its child on this side, its other child can be
merged as well. A freed root has no children, or a live block below it. -/
structure BuddiesFree (seg : Segment) (pid : ℤ) : Prop where
  climb : ∀ below f above b l r, FoundAt seg pid (below ++ f :: above) b l r →
    (∀ g ∈ below, canMerge g.sibling) → ¬ f.value.live → NoneLive f.sibling →
    (∀ g ∈ below.getLast?, ¬ g.value.live) → (below = [] → NoneLive l ∧ NoneLive r) → canMerge f.sibling
  root : ∀ b l r, FoundAt seg pid [] b l r → NoneLive l → NoneLive r → l = .nil ∧ r = .nil

def BuddiesMergeable (seg : Segment) : MemoryOp → Prop
  | .admission _ _ _ _ => True
  | .deallocation pid _ => BuddiesFree seg pid

/-- The root is where `initialize_memory_Segment` put it. -/
def RootInPlace (t : MemoryTree) : Prop := ∀ c, nodeAt t [] = some c → c.addr = 0

/-- What a climb through the frames leaves in the hole. -/
def climbed (fs : List (Frame MemoryBlock)) (t : MemoryTree) : MemoryTree :=
  fs.foldl (fun _ f => .node f.value .nil .nil) t

variable {seg seg' seg₁ : Segment} {op : MemoryOp} {pid time : ℤ} {a : ℕ}
  {fs below above : List (Frame MemoryBlock)} {f : Frame MemoryBlock} {b c : MemoryBlock}
  {t t' u l r left right : MemoryTree} {p : MemoryBlock → Bool} {g : MemoryBlock → MemoryBlock}

theorem climbed_leaf (h : fs ≠ []) : ∃ g ∈ fs.getLast?, climbed fs t = .node g.value .nil .nil := by
  obtain rfl | ⟨fs, g, rfl⟩ := fs.eq_nil_or_concat
  · exact absurd rfl h
  · exact ⟨g, by simp, by simp [climbed]⟩

theorem climbed_ne_nil : climbed fs (.node b l r) ≠ .nil := by
  obtain rfl | ⟨fs, g, rfl⟩ := fs.eq_nil_or_concat <;> simp [climbed]

/-! No operation moves the root. -/

theorem rootInPlace_update (hg : ∀ b, (g b).addr = b.addr) (h : RootInPlace t) :
    RootInPlace (update p g t) := by
  cases t with
  | nil => exact h
  | node b l r =>
    intro c hc
    obtain rfl := Option.some.inj hc
    split
    · exact (hg b).trans (h b rfl)
    · exact h b rfl

theorem rootInPlace_prune (h : RootInPlace t) : RootInPlace (prune p t) := by
  cases t with
  | nil => exact h
  | node b l r =>
    intro c hc
    apply h
    simp only [prune] at hc
    split at hc <;> exact hc

theorem rootInPlace_grows (hg : Grows t t') (hne : t ≠ .nil) (h : RootInPlace t) :
    RootInPlace t' := by
  cases t with
  | nil => exact absurd rfl hne
  | node b l r =>
    cases t' with
    | nil => exact hg.elim
    | node b' l' r' =>
      obtain ⟨rfl, -⟩ := hg
      exact h

theorem rootInPlace_deallocation (h : RootInPlace seg.root) :
    RootInPlace (deallocateMemory seg pid time).1.root := by
  obtain ⟨-, heq⟩ | ⟨a, -, -, -, hroot⟩ := deallocateMemory_cases seg pid time
  · rwa [heq]
  · rw [hroot]
    exact mergeBuddyBlocks_invariant (fun _ _ ht => rootInPlace_prune ht)
      (rootInPlace_update (fun b => (release_keeps b).1) h)

theorem rootInPlace_step (hw : WellFormed seg) (h : RootInPlace seg.root)
    (hs : op.apply seg = some seg') : RootInPlace seg'.root := by
  cases op with
  | deallocation pid time =>
    obtain rfl := Option.some.inj hs
    exact rootInPlace_deallocation h
  | admission id size pid time =>
    obtain ⟨seg₁, res, hfind, hres⟩ := admitProcess_search hw hs
    obtain ⟨j, -, -, hsearch⟩ := findBlock_some hfind
    have hfound := rootInPlace_grows (searches_grows hsearch) hw.nonempty h
    obtain ⟨-, rfl⟩ | ⟨a, -, rfl⟩ := hres
    · exact hfound
    · have hreserved : RootInPlace (reserveBlock seg₁ a id size time).root :=
        rootInPlace_update (fun _ => rfl) hfound
      unfold updateId
      split
      · exact rootInPlace_update (fun _ => rfl) hreserved
      · exact hreserved

/-! Where a climb stops and what it leaves. -/

/-- The climb passes every frame, or stops below the first one whose sibling cannot be merged. -/
theorem exists_stop (fs : List (Frame MemoryBlock)) : (∀ g ∈ fs, canMerge g.sibling) ∨
    ∃ below f above, fs = below ++ f :: above ∧ (∀ g ∈ below, canMerge g.sibling) ∧
      ¬ canMerge f.sibling := by
  induction fs with
  | nil => exact Or.inl (by simp)
  | cons f fs ih =>
    by_cases hf : canMerge f.sibling
    · obtain hall | ⟨below, g, above, rfl, hbelow, hg⟩ := ih
      · exact Or.inl (List.forall_mem_cons.mpr ⟨hf, hall⟩)
      · exact Or.inr ⟨f :: below, g, above, rfl, List.forall_mem_cons.mpr ⟨hf, hbelow⟩, hg⟩
    · exact Or.inr ⟨[], f, fs, rfl, by simp, hf⟩

theorem mergeUp_top (h : ∀ g ∈ fs, canMerge g.sibling) : mergeUp fs t = climbed fs t := by
  induction fs generalizing t with
  | nil => rfl
  | cons f fs ih =>
    obtain ⟨hf, hfs⟩ := List.forall_mem_cons.mp h
    rw [mergeUp, if_pos hf]
    exact ih hfs

theorem mergeUp_stop (hbelow : ∀ g ∈ below, canMerge g.sibling) (hf : ¬ canMerge f.sibling) :
    mergeUp (below ++ f :: above) t = plug (f :: above) (climbed below t) := by
  induction below generalizing t with
  | nil => exact if_neg hf
  | cons g below ih =>
    obtain ⟨hg, hbelow⟩ := List.forall_mem_cons.mp hbelow
    rw [List.cons_append, mergeUp, if_pos hg]
    exact ih hbelow

theorem noneLive_node : NoneLive (.node b l r) ↔ ¬ b.live ∧ NoneLive l ∧ NoneLive r := by
  simp [NoneLive, or_imp, forall_and]

theorem noneLive_fill : NoneLive (f.fill u) ↔ ¬ f.value.live ∧ NoneLive f.sibling ∧ NoneLive u := by
  unfold Frame.fill
  split
  · rw [noneLive_node, and_comm (a := NoneLive u)]
  · exact noneLive_node

/-- What is live under the frame where a climb stops. -/
theorem noneLive_stop_iff : NoneLive (f.fill (climbed below (.node b.release l r))) ↔
    ¬ f.value.live ∧ NoneLive f.sibling ∧ (∀ g ∈ below.getLast?, ¬ g.value.live) ∧
      (below = [] → NoneLive l ∧ NoneLive r) := by
  rw [noneLive_fill]
  by_cases hb : below = []
  · subst hb
    simp [climbed, noneLive_node, MemoryBlock.release]
  · obtain ⟨g, hg, hclimbed⟩ := climbed_leaf (t := .node b.release l r) hb
    rw [hclimbed, noneLive_node]
    simp [hb, Option.mem_def.mp hg, NoneLive]

theorem leaf_of_subtree (h : subtree p (.node b .nil .nil) = .node c left right) :
    left = .nil ∧ right = .nil := by
  by_cases hp : p b
  · rw [subtree_node_self hp, BinaryTree.node.injEq] at h
    exact ⟨h.2.1.symm, h.2.2.symm⟩
  · simp [subtree, hp] at h

/-- Under the condition something live is left where the climb stops. -/
theorem BuddiesFree.live_at_stop (h : BuddiesFree seg pid)
    (hat : FoundAt seg pid (below ++ f :: above) b l r)
    (hbelow : ∀ g ∈ below, canMerge g.sibling) (hf : ¬ canMerge f.sibling) :
    ∃ d ∈ entries (f.fill (climbed below (.node b.release l r))), d.live := by
  by_contra hnone
  have hidle : NoneLive (f.fill (climbed below (.node b.release l r))) :=
    fun d hd hlive => hnone ⟨d, hd, hlive⟩
  obtain ⟨hvalue, hsibling, hlast, hempty⟩ := noneLive_stop_iff.mp hidle
  exact hf (h.climb below f above b l r hat hbelow hvalue hsibling hlast hempty)

/-- The address of a frame passed by the climb is not found further out. -/
theorem not_outside_of_below (hn : (addrs (plug (below ++ f :: above) t)).Nodup)
    {g : Frame MemoryBlock} (hg : g ∈ below) :
    ∀ c ∈ outside (f :: above), c.isAt g.value.addr = false := by
  rw [plug_append] at hn
  apply outside_isAt hn
  rw [mem_entries_plug]
  exact Or.inr (List.mem_flatMap.mpr ⟨g, hg, List.mem_cons_self⟩)

/-- Under the condition a release merges up to the root, or stops below something live. -/
theorem BuddiesFree.released (time : ℤ) (hw : WellFormed seg) (h : BuddiesFree seg pid)
    (hat : FoundAt seg pid fs b l r) :
    (deallocateMemory seg pid time).1.root = climbed fs (.node b.release l r) ∨
      ∃ below stop above, fs = below ++ stop :: above ∧
        (deallocateMemory seg pid time).1.root =
          plug (stop :: above) (climbed below (.node b.release l r)) ∧
        ∃ d ∈ entries (stop.fill (climbed below (.node b.release l r))), d.live := by
  have hpost := deallocateMemory_plug time hw hat.1 hat.2
  obtain hall | ⟨below, stop, above, rfl, hbelow, hstop⟩ := exists_stop fs
  · exact Or.inl (hpost.trans (mergeUp_top hall))
  · exact Or.inr ⟨below, stop, above, rfl, hpost.trans (mergeUp_stop hbelow hstop),
      h.live_at_stop hat hbelow hstop⟩

theorem BuddiesFree.ancestor (time : ℤ) (hw : WellFormed seg) (h : BuddiesFree seg pid)
    (hat : FoundAt seg pid fs b l r) (hf : f ∈ fs)
    (hsub : subtree (·.isAt f.value.addr) (deallocateMemory seg pid time).1.root =
      .node c left right)
    (hidle : NoneLive (.node c left right)) : left = .nil ∧ right = .nil := by
  have hn := hw.nodup
  rw [hat.1] at hn
  have hw' : WellFormed (deallocateMemory seg pid time).1 := deallocateMemory_wellFormed hw
  have hn' := hw'.nodup
  obtain hpost | ⟨below, stop, above, rfl, hpost, d, hd, hlive⟩ := h.released time hw hat
  · obtain ⟨g, -, hleaf⟩ := climbed_leaf (t := .node b.release l r) (List.ne_nil_of_mem hf)
    rw [hpost, hleaf] at hsub
    exact leaf_of_subtree hsub
  rw [hpost] at hsub hn'
  rcases List.mem_append.mp hf with hf | hf
  · obtain ⟨g, -, hleaf⟩ := climbed_leaf (t := .node b.release l r) (List.ne_nil_of_mem hf)
    rw [subtree_plug (not_outside_of_below hn hf), hleaf] at hsub
    exact leaf_of_subtree hsub
  · have hd : d ∈ entries (.node c left right) := by
      rw [← hsub]
      rcases List.mem_cons.mp hf with rfl | hf
      · rw [subtree_at_frame hn']
        exact hd
      · rw [plug_cons] at hn' ⊢
        exact mem_subtree_of_frame hn' hf hd
    exact absurd hlive (hidle d hd)

theorem BuddiesFree.single (time : ℤ) (hw : WellFormed seg) (h : BuddiesFree seg pid)
    (hat : FoundAt seg pid fs b l r) (hidle : NoneLive (deallocateMemory seg pid time).1.root) :
    ∃ c, (deallocateMemory seg pid time).1.root = .node c .nil .nil := by
  obtain hpost | ⟨below, stop, above, rfl, hpost, d, hd, hlive⟩ := h.released time hw hat
  · by_cases hfs : fs = []
    · subst hfs
      rw [hpost] at hidle
      obtain ⟨-, hl, hr⟩ := noneLive_node.mp hidle
      obtain ⟨rfl, rfl⟩ := h.root b l r hat hl hr
      exact ⟨_, hpost⟩
    · obtain ⟨g, -, hleaf⟩ := climbed_leaf (t := .node b.release l r) hfs
      exact ⟨_, hpost.trans hleaf⟩
  · refine absurd hlive (hidle d ?_)
    rw [hpost, plug_cons, mem_entries_plug]
    exact Or.inl hd

theorem merged_of_buddiesFree (time : ℤ) (hw : WellFormed seg) (hroot : RootInPlace seg.root)
    (h : BuddiesFree seg pid) : Merged seg pid time where
  ancestor := fun _ _ _ _ _ _ _ _ _ hat hsub hidle =>
    h.ancestor time hw hat (List.mem_append_right _ List.mem_cons_self) hsub hidle
  last := by
    intro hok hidle
    obtain ⟨-, heq⟩ | ⟨a, ha, -⟩ := deallocateMemory_cases seg pid time
    · rw [heq] at hok
      cases hok
    obtain ⟨fs, b, l, r, hplug, rfl, -⟩ := deallocateMemory_at time hw ha
    obtain ⟨c, hc⟩ := h.single time hw ⟨hplug, ha⟩ hidle
    have hw' : WellFormed (deallocateMemory seg pid time).1 := deallocateMemory_wellFormed hw
    have hshape := hw'.shape
    have hroot' : RootInPlace (deallocateMemory seg pid time).1.root :=
      rootInPlace_deallocation hroot
    rw [hc] at hroot' hshape
    exact ⟨c, hc, hroot' c rfl, shape_size hshape⟩

theorem buddiesFree_of_merged (hw : WellFormed seg) (h : Merged seg pid time) :
    BuddiesFree seg pid where
  climb := by
    intro below f above b l r hat hbelow hvalue hsibling hlast hempty
    by_contra hf
    have hpost := deallocateMemory_plug time hw hat.1 hat.2
    rw [mergeUp_stop hbelow hf] at hpost
    have hw' : WellFormed (deallocateMemory seg pid time).1 := deallocateMemory_wellFormed hw
    have hn' := hw'.nodup
    have hidle : NoneLive (f.fill (climbed below (.node b.release l r))) :=
      noneLive_stop_iff.mpr ⟨hvalue, hsibling, hlast, hempty⟩
    have hchild : climbed below (.node b.release l r) ≠ .nil := climbed_ne_nil
    generalize climbed below (.node b.release l r) = u at hpost hidle hchild
    have hsub : subtree (·.isAt f.value.addr) (deallocateMemory seg pid time).1.root =
        f.fill u := by
      rw [hpost] at hn' ⊢
      exact subtree_at_frame hn'
    cases hside : f.isLeft with
    | true =>
      have hfill : f.fill u = .node f.value u f.sibling := by simp [Frame.fill, hside]
      rw [hfill] at hsub hidle
      exact hchild (h.ancestor below f above b l r _ _ _ hat hsub hidle).1
    | false =>
      have hfill : f.fill u = .node f.value f.sibling u := by simp [Frame.fill, hside]
      rw [hfill] at hsub hidle
      exact hchild (h.ancestor below f above b l r _ _ _ hat hsub hidle).2
  root := by
    intro b l r ⟨hplug, hfound⟩ hl hr
    have hpost : (deallocateMemory seg pid time).1.root = .node b.release l r :=
      deallocateMemory_plug time hw hplug hfound
    have hok : (deallocateMemory seg pid time).2 = true := by
      obtain ⟨hnone, -⟩ | ⟨a, -, hok, -⟩ := deallocateMemory_cases seg pid time
      · rw [hnone] at hfound
        cases hfound
      · exact hok
    have hidle : NoneLive (deallocateMemory seg pid time).1.root := by
      rw [hpost, noneLive_node]
      exact ⟨fun hlive => hlive rfl, hl, hr⟩
    obtain ⟨c, hc, -⟩ := h.last hok hidle
    rw [hpost, BinaryTree.node.injEq] at hc
    exact hc.2

/-- In every run, freed memory is merged at exactly the releases that find the buddies free. -/
theorem mergesFreed_iff (ops : List MemoryOp) :
    Throughout AnyStep initialSegment ops MergesFreed ↔
      Throughout AnyStep initialSegment ops BuddiesMergeable := by
  have hreach : ∀ {pre seg}, Trace AnyStep initialSegment pre seg →
      WellFormed seg ∧ RootInPlace seg.root := by
    intro pre seg htrace
    refine htrace.invariant (P := fun seg => WellFormed seg ∧ RootInPlace seg.root) ?_ ?_
    · intro s op t hs hstep
      exact ⟨apply_wellFormed hs.1 hstep.2, rootInPlace_step hs.1 hs.2 hstep.2⟩
    · refine ⟨wellFormed_initial, fun c hc => ?_⟩
      obtain rfl := Option.some.inj hc
      rfl
  constructor
  · intro h pre op seg seg' hpre htrace hstep
    have hmerges := h pre op seg seg' hpre htrace hstep
    cases op with
    | admission id size pid time => trivial
    | deallocation pid time => exact buddiesFree_of_merged (hreach htrace).1 hmerges
  · intro h pre op seg seg' hpre htrace hstep
    have hbuddies := h pre op seg seg' hpre htrace hstep
    cases op with
    | admission id size pid time => trivial
    | deallocation pid time =>
      exact merged_of_buddiesFree time (hreach htrace).1 (hreach htrace).2 hbuddies

/-- One process of 256 bytes: no buddy of its block is ever made. -/
def loneProcess : List MemoryOp := [.admission 1 256 101 0, .deallocation 101 1]

theorem loneProcess_not_merged : ¬ Throughout MemoryStep initialSegment loneProcess MergesFreed := by
  intro h
  have hrun : ∃ seg, execute Admissible MemoryOp.apply initialSegment [.admission 1 256 101 0] =
      some seg ∧ (deallocateMemory seg 101 1).2 = true ∧
      (∀ b ∈ entries (deallocateMemory seg 101 1).1.root, ¬ b.live) ∧
      (entries (deallocateMemory seg 101 1).1.root).length = 3 := ⟨_, rfl, by decide⟩
  obtain ⟨seg, hseg, hok, hidle, hlength⟩ := hrun
  have hmerged : Merged seg 101 1 :=
    h [.admission 1 256 101 0] (.deallocation 101 1) seg _ (List.prefix_refl _)
      (trace_of_execute hseg) ⟨trivial, rfl⟩
  obtain ⟨c, hc, -⟩ := hmerged.last hok hidle
  rw [hc] at hlength
  cases hlength

end KernelSim
