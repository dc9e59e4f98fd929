import KernelSim.Memory.BuddyShape
import KernelSim.Memory.Merge
import Mathlib.Data.List.Perm.Basic

/-! Who owns the blocks that `malloc` gave: the tree, `free`, or nobody any more. -/
namespace KernelSim
open KeyedTree Runs

/-- `destroy_memory_segment`: the blocks given to `free`, children first, each with the pid and the
size that are printed for it when it is allocated. -/
def destroyMemorySegment : MemoryTree → List (ℕ × Option (ℤ × ℤ))
  | .nil => []
  | .node b l r => destroyMemorySegment l ++ destroyMemorySegment r ++
      [(b.addr, if b.allocated > 0 then some (b.processPid, b.size) else none)]

/-- The blocks below one that a child pointer leads to. -/
def belowChild : MemoryTree → List ℕ
  | .nil => []
  | .node _ l r => addrs l ++ addrs r

/-- The blocks that `merge_buddy_blocks` cuts off without giving them to `free`. -/
def mergeLoses : ℕ → MemoryTree → ℕ → List ℕ
  | 0, _, _ => []
  | fuel + 1, root, block =>
    match subtree (·.isAt block) root with
    | .nil => []
    | .node b _ _ =>
      match b.parent with
      | none => []
      | some parent =>
        match subtree (·.isAt parent) root with
        | .nil => []
        | .node _ left right =>
          if canMerge (buddyOf left right block) then
            belowChild left ++ belowChild right ++
              mergeLoses fuel (prune (·.isAt parent) root) parent
          else []

/-- The blocks that a call cuts off without giving them to `free`. -/
def Segment.loses (seg : Segment) : MemoryCall → List ℕ
  | .deallocateMemory pid _ =>
    match getProcessMemorySegment seg.root (-1) pid with
    | none => []
    | some toDelete =>
      let root := (seg.write toDelete MemoryBlock.release).root
      mergeLoses root.numNodes root toDelete
  | _ => []

/-- Every block given to `free` by the time `clear_resources` has destroyed the segment. -/
def Arena.freedAtExit (arena : Arena) : List ℕ :=
  arena.freed ++ (destroyMemorySegment arena.segment.root).map Prod.fst

/-- A released block has no children, or a buddy that it cannot merge with. -/
def ReleasesLeaf (arena : Arena) : MemoryCall → Prop
  | .deallocateMemory pid _ => ∀ fs b l r, arena.segment.root = plug fs (.node b l r) →
      getProcessMemorySegment arena.segment.root (-1) pid = some b.addr →
      (l = .nil ∧ r = .nil) ∨ ∀ f ∈ fs.head?, ¬ canMerge f.sibling
  | _ => True

/-- Each block that `malloc` gave is in the tree, freed or lost, and in one of these only. -/
structure BlockLedger (arena : Arena) (lost : List ℕ) : Prop where
  wellFormed : WellFormed arena.segment
  balance : (addrs arena.segment.root ++ arena.freed ++ lost).Perm
    (List.range arena.segment.next)

/-- The steps of the memory manager. -/
abbrev ArenaStep : Arena → MemoryCall → Arena → Prop := Guarded (fun _ _ => True) Arena.call

variable {arena arena' : Arena} {call : MemoryCall} {seg seg' : Segment} {t t' l r : MemoryTree}
  {b : MemoryBlock} {fs : List (Frame MemoryBlock)} {f : Frame MemoryBlock} {a fuel next next' x : ℕ}
  {lost : List ℕ} {res : Option ℕ} {needed id size pid time : ℤ}

/-- Every block made is in the tree that the search leaves. -/
theorem searches_count (h : Searches needed t next t' next' res) (x : ℕ) :
    (addrs t').count x + (List.range next).count x =
      (addrs t).count x + (List.range next').count x := by
  have hmade : ∀ (b : MemoryBlock) child next,
      (addrs (createChild b child next).1).count x + (List.range next).count x =
        (addrs child).count x + (List.range (createChild b child next).2).count x := by
    intro b child next
    cases child with
    | nil => simp [createChild, blankBlock, List.range_succ, List.count_append, Nat.add_comm]
    | node c l r => rfl
  induction h with
  | null => rfl
  | refuse => rfl
  | here => rfl
  | @left b l r l' next next' a _ _ _ ih =>
    have := hmade b l next
    simp only [addrs_node, List.count_cons, List.count_append]
    omega
  | @right b l r l' r' next nextL next' res _ _ _ _ ihl ihr =>
    have := hmade b l next
    have := hmade b r nextL
    simp only [addrs_node, List.count_cons, List.count_append]
    omega

/-- Dropping the children of a block takes them out of the tree and nothing else. -/
theorem prune_count (hn : (addrs t).Nodup) (h : subtree (·.isAt a) t = .node b l r) (x : ℕ) :
    (addrs t).count x =
      (addrs (prune (·.isAt a) t)).count x + (addrs l).count x + (addrs r).count x := by
  obtain ⟨fs, rfl⟩ := exists_plug h
  have hat : b.isAt a = true := (subtree_mem h).2
  have hba : b.addr = a := by simpa [MemoryBlock.isAt] using hat
  have hself : ∀ e ∈ outside fs, e.isAt a = false := hba ▸ outside_isAt hn List.mem_cons_self
  have hplug : ∀ t, (addrs (plug fs t)).count x =
      (addrs t).count x + ((outside fs).map MemoryBlock.addr).count x := by
    intro t
    rw [addrs, (entries_plug_perm.map MemoryBlock.addr).count_eq, List.map_append,
      List.count_append]
    rfl
  rw [prune_plug hself, hplug, hplug]
  simp only [prune, hat, if_true, addrs_node, List.count_cons, List.count_append, addrs_nil,
    List.count_nil]
  omega

theorem count_child (t : MemoryTree) (x : ℕ) :
    (addrs t).count x = (freeChild t).count x + (belowChild t).count x := by
  cases t with
  | nil => rfl
  | node b l r => simp [freeChild, belowChild, List.count_cons, Nat.add_comm]

/-- A merge leaves each block in the tree, frees it or loses it. -/
theorem merge_count (hn : (addrs t).Nodup) (x : ℕ) : (addrs t).count x =
    (addrs (mergeBuddyBlocks fuel t a)).count x + (mergeFrees fuel t a).count x +
      (mergeLoses fuel t a).count x := by
  induction fuel generalizing t a with
  | zero => simp [mergeBuddyBlocks, mergeFrees, mergeLoses]
  | succ fuel ih =>
    unfold mergeBuddyBlocks mergeFrees mergeLoses
    cases hblock : subtree (·.isAt a) t with
    | nil => simp
    | node b _ _ =>
      dsimp only
      cases hparent : b.parent with
      | none => simp
      | some parent =>
        dsimp only
        cases hsub : subtree (·.isAt parent) t with
        | nil => simp
        | node p left right =>
          dsimp only
          by_cases hmerge : canMerge (buddyOf left right a)
          · have hrest := ih (t := prune (·.isAt parent) t) (a := parent)
              (hn.sublist addrs_prune_sublist)
            have hdropped := prune_count hn hsub x
            have hleft := count_child left x
            have hright := count_child right x
            simp only [if_pos hmerge, List.count_append]
            omega
          · simp [hmerge]

/-- One round of the climb from a block under a frame. -/
theorem climb_round (hn : (addrs (plug (f :: fs) (.node b l r))).Nodup)
    (hl : Linked none (plug (f :: fs) (.node b l r))) :
    subtree (·.isAt b.addr) (plug (f :: fs) (.node b l r)) = .node b l r ∧
      b.parent = some f.value.addr ∧
      prune (·.isAt f.value.addr) (plug (f :: fs) (.node b l r)) =
        plug fs (.node f.value .nil .nil) ∧
      ∃ left right, f.fill (.node b l r) = .node f.value left right ∧
        subtree (·.isAt f.value.addr) (plug (f :: fs) (.node b l r)) =
          .node f.value left right ∧
        buddyOf left right b.addr = f.sibling := by
  have hself : ∀ c ∈ outside (f :: fs), c.isAt b.addr = false :=
    outside_isAt hn (List.mem_cons_self : b ∈ entries (.node b l r))
  have hbuddy : ∀ c ∈ entries f.sibling, c.addr ≠ b.addr := by
    intro c hc
    have := hself c (by simp [outside_cons, hc])
    simpa [MemoryBlock.isAt] using this
  obtain ⟨left, right, hfill, hbuddy⟩ := buddyOf_fill (l := l) (r := r) hbuddy
  refine ⟨?_, (linked_of_plug hl).1, ?_, left, right, hfill, ?_, hbuddy⟩
  · rw [subtree_plug hself]
    exact subtree_node_self (by simp [MemoryBlock.isAt])
  · rw [plug_cons, prune_plug (not_outside_of_frame hn), hfill]
    simp [prune, MemoryBlock.isAt]
  · rw [subtree_at_frame hn, hfill]

/-- The first round loses what is below the block, and the rest of the climb is a merge of leaves. -/
theorem mergeLoses_cons (hn : (addrs (plug (f :: fs) (.node b l r))).Nodup)
    (hl : Linked none (plug (f :: fs) (.node b l r))) :
    mergeLoses (fuel + 1) (plug (f :: fs) (.node b l r)) b.addr =
      if canMerge f.sibling then
        addrs l ++ addrs r ++ mergeLoses fuel (plug fs (.node f.value .nil .nil)) f.value.addr
      else [] := by
  obtain ⟨hself, hparent, hprune, left, right, hfill, hsub, hbuddy⟩ := climb_round hn hl
  simp only [mergeLoses, hself, hparent, hsub, hbuddy, hprune]
  split
  · rename_i hfree
    obtain ⟨c, hc, -⟩ := canMerge_leaf hfree
    have hbelow : belowChild left ++ belowChild right = addrs l ++ addrs r := by
      unfold Frame.fill at hfill
      split at hfill
      · obtain ⟨-, rfl, rfl⟩ := (BinaryTree.node.injEq _ _ _ _ _ _).mp hfill
        simp [belowChild, hc]
      · obtain ⟨-, rfl, rfl⟩ := (BinaryTree.node.injEq _ _ _ _ _ _).mp hfill
        simp [belowChild, hc]
    rw [hbelow]
  · rfl

theorem mergeLoses_leaf (hn : (addrs (plug fs (.node b .nil .nil))).Nodup)
    (hl : Linked none (plug fs (.node b .nil .nil))) :
    mergeLoses fuel (plug fs (.node b .nil .nil)) b.addr = [] := by
  induction fs generalizing b fuel with
  | nil =>
    have hparent : b.parent = none := hl.1
    cases fuel with
    | zero => rfl
    | succ fuel => simp [mergeLoses, subtree, MemoryBlock.isAt, hparent]
  | cons f fs ih =>
    cases fuel with
    | zero => rfl
    | succ fuel =>
      obtain ⟨-, -, hprune, -⟩ := climb_round hn hl
      rw [mergeLoses_cons hn hl, ih]
      · simp
      · rw [← hprune]
        exact hn.sublist addrs_prune_sublist
      · rw [← hprune]
        exact linked_prune hl

/-- A merge loses nothing exactly when it starts from a leaf or stops at once. -/
theorem mergeLoses_eq_nil (hn : (addrs (plug fs (.node b l r))).Nodup)
    (hl : Linked none (plug fs (.node b l r))) (hfuel : fuel ≠ 0) :
    mergeLoses fuel (plug fs (.node b l r)) b.addr = [] ↔
      (l = .nil ∧ r = .nil) ∨ ∀ f ∈ fs.head?, ¬ canMerge f.sibling := by
  obtain ⟨fuel, rfl⟩ := Nat.exists_eq_succ_of_ne_zero hfuel
  cases fs with
  | nil =>
    have hparent : b.parent = none := hl.1
    simp [mergeLoses, subtree, MemoryBlock.isAt, hparent]
  | cons f fs =>
    obtain ⟨-, -, hprune, -⟩ := climb_round hn hl
    have hrest : mergeLoses fuel (plug fs (.node f.value .nil .nil)) f.value.addr = [] := by
      apply mergeLoses_leaf
      · rw [← hprune]
        exact hn.sublist addrs_prune_sublist
      · rw [← hprune]
        exact linked_prune hl
    have hnil : ∀ t : MemoryTree, addrs t = [] ↔ t = .nil := by
      intro t
      cases t <;> simp
    rw [mergeLoses_cons hn hl, hrest]
    by_cases hfree : canMerge f.sibling <;> simp [hfree, hnil]

/-- The write of a release, at the place of the block. -/
theorem release_plug (hn : (addrs (plug fs (.node b l r))).Nodup) :
    update (·.isAt b.addr) MemoryBlock.release (plug fs (.node b l r)) =
      plug fs (.node b.release l r) := by
  have hbelow : ∀ c ∈ entries l ++ entries r, c.isAt b.addr = false := by
    have := nodup_inside hn
    simp only [entries_node, List.map_cons, List.nodup_cons, List.mem_map, not_exists,
      not_and] at this
    intro c hc
    simpa [MemoryBlock.isAt] using this.1 c hc
  have hl : update (·.isAt b.addr) MemoryBlock.release l = l :=
    update_eq_self fun c hc => hbelow c (List.mem_append_left _ hc)
  have hr : update (·.isAt b.addr) MemoryBlock.release r = r :=
    update_eq_self fun c hc => hbelow c (List.mem_append_right _ hc)
  rw [update_plug (outside_isAt hn List.mem_cons_self)]
  simp [update, MemoryBlock.isAt, hl, hr]

/-- What a release loses, from the place of the block that it finds. -/
theorem loses_plug (time : ℤ) (hw : WellFormed seg) (hplug : seg.root = plug fs (.node b l r))
    (ha : getProcessMemorySegment seg.root (-1) pid = some b.addr) :
    seg.loses (.deallocateMemory pid time) = [] ↔
      (l = .nil ∧ r = .nil) ∨ ∀ f ∈ fs.head?, ¬ canMerge f.sibling := by
  have hw' := wellFormed_write b.addr release_keeps hw
  have hwrite : (seg.write b.addr MemoryBlock.release).root = plug fs (.node b.release l r) := by
    rw [Segment.write, hplug]
    exact release_plug (hplug ▸ hw.nodup)
  have hfuel : (seg.write b.addr MemoryBlock.release).root.numNodes ≠ 0 := by
    have hne := hw'.nonempty
    cases hroot : (seg.write b.addr MemoryBlock.release).root with
    | nil => exact absurd hroot hne
    | node c l r => simp [BinaryTree.numNodes]
  simp only [Segment.loses, ha]
  have hiff := mergeLoses_eq_nil (hwrite ▸ hw'.nodup) (hwrite ▸ hw'.linked) hfuel
  rwa [← hwrite] at hiff

theorem loses_eq_nil (hw : WellFormed arena.segment) :
    arena.segment.loses call = [] ↔ ReleasesLeaf arena call := by
  cases call with
  | allocateMemory id size time => simp [Segment.loses, ReleasesLeaf]
  | updateId id pid => simp [Segment.loses, ReleasesLeaf]
  | deallocateMemory pid time =>
    constructor
    · exact fun h fs b l r hplug ha => (loses_plug time hw hplug ha).mp h
    · intro h
      cases ha : getProcessMemorySegment arena.segment.root (-1) pid with
      | none => simp [Segment.loses, ha]
      | some a =>
        obtain ⟨b, hb, rfl, -⟩ := getProcessMemorySegment_some ha
        obtain ⟨l, r, hsub⟩ := subtree_at hw.nodup hb
        obtain ⟨fs, hplug⟩ := exists_plug hsub
        exact (loses_plug time hw hplug ha).mpr (h fs b l r hplug ha)

/-- What a release does to the blocks of the tree. -/
theorem deallocate_count (pid time : ℤ) (hw : WellFormed seg) (x : ℕ) : (addrs seg.root).count x =
    (addrs (deallocateMemory seg pid time).1.root).count x + (deallocateFrees seg pid).count x +
      (seg.loses (.deallocateMemory pid time)).count x := by
  obtain ⟨hnone, heq⟩ | ⟨a, ha, -, -, hroot⟩ := deallocateMemory_cases seg pid time
  · simp [heq, deallocateFrees, Segment.loses, hnone]
  · have hsame : addrs (update (·.isAt a) MemoryBlock.release seg.root) = addrs seg.root :=
      addrs_update fun c => (release_keeps c).1
    rw [hroot, deallocateFrees, Segment.loses, ha, ← hsame]
    exact merge_count (hsame ▸ hw.nodup) x

theorem allocate_count {ok : Bool} (hw : WellFormed seg)
    (h : allocateMemory seg id size time = some (seg', ok)) (x : ℕ) :
    (addrs seg'.root).count x + (List.range seg.next).count x =
      (addrs seg.root).count x + (List.range seg'.next).count x := by
  obtain ⟨seg₁, res, hfind, hres⟩ := allocateMemory_search hw h
  obtain ⟨j, -, -, hs⟩ := findBlock_some hfind
  have hcount := searches_count hs x
  obtain ⟨-, -, rfl⟩ | ⟨a, -, -, rfl⟩ := hres
  · exact hcount
  · have hsame : addrs (reserveBlock seg₁ a id size time).root = addrs seg₁.root :=
      write_addrs a fun _ => ⟨rfl, rfl, rfl⟩
    rw [hsame]
    exact hcount

theorem blockLedger_initial : BlockLedger Arena.initial [] := ⟨wellFormed_initial, List.Perm.refl _⟩

theorem BlockLedger.count (h : BlockLedger arena lost) (x : ℕ) :
    (addrs arena.segment.root).count x + arena.freed.count x + lost.count x =
      (List.range arena.segment.next).count x := by
  rw [← h.balance.count_eq, List.count_append, List.count_append]

/-- A call moves blocks from the tree to `free` or loses them, and adds those it makes. -/
theorem blockLedger_step (h : BlockLedger arena lost) (hs : ArenaStep arena call arena') :
    BlockLedger arena' (lost ++ arena.segment.loses call) := by
  have hw := h.wellFormed
  cases call with
  | allocateMemory id size time =>
    obtain ⟨⟨seg', ok⟩, hal, hc⟩ := Option.bind_eq_some_iff.mp hs.2
    obtain rfl := Option.some.inj hc
    refine ⟨allocateMemory_wellFormed hw hal, List.perm_iff_count.mpr fun x => ?_⟩
    have := h.count x
    have := allocate_count hw hal x
    simp only [Segment.loses, List.append_nil, List.count_append]
    omega
  | updateId id pid =>
    obtain rfl := Option.some.inj hs.2
    refine ⟨updateId_wellFormed id pid hw, ?_⟩
    have hsame : addrs (updateId arena.segment id pid).root = addrs arena.segment.root ∧
        (updateId arena.segment id pid).next = arena.segment.next := by
      unfold updateId
      split
      · exact ⟨write_addrs _ fun _ => ⟨rfl, rfl, rfl⟩, rfl⟩
      · exact ⟨rfl, rfl⟩
    simp only [Segment.loses, List.append_nil, hsame]
    exact h.balance
  | deallocateMemory pid time =>
    obtain rfl := Option.some.inj hs.2
    refine ⟨deallocateMemory_wellFormed hw, List.perm_iff_count.mpr fun x => ?_⟩
    have hnext : (deallocateMemory arena.segment pid time).1.next = arena.segment.next := by
      obtain ⟨-, heq⟩ | ⟨a, -, -, hnext, -⟩ := deallocateMemory_cases arena.segment pid time
      · rw [heq]
      · exact hnext
    have := h.count x
    have := deallocate_count pid time hw x
    simp only [hnext, List.count_append]
    omega

/-- A run keeps the ledger, and loses nothing exactly when all its releases are of leaves. -/
theorem blockLedger_run {calls : List MemoryCall} (h : Trace ArenaStep Arena.initial calls arena) :
    ∃ lost, BlockLedger arena lost ∧
      (lost = [] ↔ Throughout ArenaStep Arena.initial calls ReleasesLeaf) := by
  induction h with
  | refl => exact ⟨[], blockLedger_initial, by simp [throughout_nil]⟩
  | @snoc calls arena arena' call htrace hstep ih =>
    obtain ⟨lost, hledger, hiff⟩ := ih
    refine ⟨_, blockLedger_step hledger hstep, ?_⟩
    rw [htrace.throughout_snoc hstep, ← hiff, ← loses_eq_nil hledger.wellFormed,
      List.append_eq_nil_iff]

/-- Destroying the tree frees every block that is in it. -/
theorem destroy_perm (t : MemoryTree) : ((destroyMemorySegment t).map Prod.fst).Perm (addrs t) := by
  induction t with
  | nil => exact List.Perm.refl _
  | node b l r hl hr =>
    simp only [destroyMemorySegment, List.map_append, List.map_cons, List.map_nil, addrs_node]
    exact (List.perm_append_singleton _ _).trans ((hl.append hr).cons _)

/-- By the end every block has been freed at most once, and all of them have been exactly when
each release was of a leaf or merged with nothing. -/
theorem freedAtExit_exact {calls : List MemoryCall}
    (h : Trace ArenaStep Arena.initial calls arena) :
    arena.freedAtExit.Nodup ∧ (∀ a ∈ arena.freedAtExit, a < arena.segment.next) ∧
      ((∀ a < arena.segment.next, a ∈ arena.freedAtExit) ↔
        Throughout ArenaStep Arena.initial calls ReleasesLeaf) := by
  obtain ⟨lost, hledger, hiff⟩ := blockLedger_run h
  have hperm : (arena.freedAtExit ++ lost).Perm (List.range arena.segment.next) := by
    refine List.Perm.trans ?_ hledger.balance
    exact ((((destroy_perm _).append_left _).trans List.perm_append_comm)).append_right lost
  have hnodup : (arena.freedAtExit ++ lost).Nodup := hperm.nodup_iff.mpr List.nodup_range
  obtain ⟨hfreed, -, hapart⟩ := List.nodup_append.mp hnodup
  have hmem : ∀ a, a ∈ arena.freedAtExit ∨ a ∈ lost ↔ a < arena.segment.next := by
    intro a
    rw [← List.mem_append, hperm.mem_iff, List.mem_range]
  refine ⟨hfreed, fun a ha => (hmem a).mp (Or.inl ha), ?_⟩
  rw [← hiff]
  constructor
  · intro hall
    rw [List.eq_nil_iff_forall_not_mem]
    intro a ha
    exact hapart a (hall a ((hmem a).mp (Or.inr ha))) a ha rfl
  · rintro rfl a ha
    simpa using (hmem a).mpr ha

/-- A block of 512 handed out above a live block of 128, and given back beside a free one. -/
def coveredBlock : List MemoryCall :=
  [.allocateMemory 1 512 0, .updateId 1 101, .allocateMemory 2 128 0, .updateId 2 102,
    .allocateMemory 3 128 0, .updateId 3 103, .deallocateMemory 102 1, .allocateMemory 4 512 2,
    .updateId 4 104, .deallocateMemory 101 3, .deallocateMemory 104 4]

theorem freedAtExit_exact_covered :
    ∃ arena, execute (fun _ _ => True) Arena.call Arena.initial coveredBlock = some arena ∧
      arena.freedAtExit.Nodup ∧ ¬ Throughout ArenaStep Arena.initial coveredBlock ReleasesLeaf := by
  obtain ⟨arena, harena, a, ha, hlost⟩ : ∃ arena,
      execute (fun _ _ => True) Arena.call Arena.initial coveredBlock = some arena ∧
      ∃ a < arena.segment.next, a ∉ arena.freedAtExit := ⟨_, rfl, by decide⟩
  obtain ⟨hnodup, -, hiff⟩ := freedAtExit_exact (trace_of_execute harena)
  exact ⟨arena, harena, hnodup, fun hleaf => hlost (hiff.mpr hleaf a ha)⟩

end KernelSim
