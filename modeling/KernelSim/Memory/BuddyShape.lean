import KernelSim.Library.TreeContext
import KernelSim.Library.TreePath
import KernelSim.Memory.Operations

/-! The tree that the memory manager keeps is a buddy tree, whatever is asked of it in whatever
order, and holds no block that has been given to `free`. -/
namespace KernelSim
open KeyedTree Runs

/-- A call of one function of `memory_manager.c`. -/
inductive MemoryCall
  | allocateMemory (idFromFile processSize time : ℤ)
  | updateId (pidFromFile pid : ℤ)
  | deallocateMemory (pid time : ℤ)
  deriving DecidableEq, Repr

/-- What `free` is given when a child pointer is passed to it. -/
def freeChild : MemoryTree → List ℕ
  | .nil => []
  | .node b _ _ => [b.addr]

/-- The blocks that `merge_buddy_blocks` gives to `free`, in order. -/
def mergeFrees : ℕ → MemoryTree → ℕ → List ℕ
  | 0, _, _ => []
  | fuel + 1, root, block =>
    match subtree (·.isAt block) root with
    | .nil => []
    | .node b _ _ =>
      match b.parent with
      | none => []
      | some parent =>
        match subtree (·.isAt parent) root with
        | .nil => []
        | .node _ left right =>
          if canMerge (buddyOf left right block) then
            freeChild left ++ freeChild right ++
              mergeFrees fuel (prune (·.isAt parent) root) parent
          else []

/-- The blocks that a call of `deallocate_memory` gives to `free`. -/
def deallocateFrees (seg : Segment) (pid : ℤ) : List ℕ :=
  match getProcessMemorySegment seg.root (-1) pid with
  | none => []
  | some toDelete =>
    let root := (seg.write toDelete MemoryBlock.release).root
    mergeFrees root.numNodes root toDelete

/-- The memory segment and every block given to `free` so far. -/
structure Arena where
  segment : Segment
  freed : List ℕ

namespace Arena

def initial : Arena := { segment := initializeMemorySegment 1024 0, freed := [] }

/-- `none` when the call never returns. -/
def call (arena : Arena) : MemoryCall → Option Arena
  | .allocateMemory idFromFile processSize time => do
    let (segment, _) ← KernelSim.allocateMemory arena.segment idFromFile processSize time
    return { arena with segment }
  | .updateId pidFromFile pid =>
    some { arena with segment := KernelSim.updateId arena.segment pidFromFile pid }
  | .deallocateMemory pid time =>
    some {
      segment := (KernelSim.deallocateMemory arena.segment pid time).1
      freed := arena.freed ++ deallocateFrees arena.segment pid }

end Arena

/-- An `int` size up to `2 ^ 30`. -/
def Roundable (_ : Arena) : MemoryCall → Prop
  | .allocateMemory _ processSize _ => processSize ≤ 2 ^ 30
  | _ => True

/-- The buddy tree seen along its child pointers. -/
structure BuddyShape (arena : Arena) : Prop where
  size : ∀ path b, nodeAt arena.segment.root path = some b → ∃ k ≤ 10, b.size = 2 ^ k
  child : ∀ path isLeft b c, nodeAt arena.segment.root path = some b →
    nodeAt arena.segment.root (path ++ [isLeft]) = some c →
    2 * c.size = b.size ∧ c.parent = some b.addr
  onePath : ∀ path path' b c, nodeAt arena.segment.root path = some b →
    nodeAt arena.segment.root path' = some c → b.addr = c.addr → path = path'
  depth : ∀ path b, nodeAt arena.segment.root path = some b → path.length ≤ 10
  unfreed : ∀ path b, nodeAt arena.segment.root path = some b → b.addr ∉ arena.freed

/-- The search ends eleven calls deep, and so does every call in the state. -/
structure Terminates (arena : Arena) : Prop where
  search : ∀ needed, 1 ≤ needed →
    (traverseMemorySegment 11 arena.segment.root needed arena.segment.next).isSome = true
  call : ∀ c, Roundable arena c → (arena.call c).isSome = true

/-- What the calls preserve: freed blocks are out of the tree and their addresses in the past. -/
structure ArenaInv (arena : Arena) : Prop where
  wellFormed : WellFormed arena.segment
  unfreed : ∀ a ∈ arena.freed, a ∉ addrs arena.segment.root
  past : ∀ a ∈ arena.freed, a < arena.segment.next

variable {arena arena' : Arena} {c : MemoryCall} {seg seg' : Segment} {t l r : MemoryTree}
  {b d : MemoryBlock} {k fuel a : ℕ} {parent : Option ℕ} {path : List Bool} {isLeft : Bool}
  {id size pid time : ℤ}

/-- Each step down a path halves the size. -/
theorem shape_nodeAt (hs : Shape k t) (h : nodeAt t path = some b) :
    path.length ≤ k ∧ b.size = 2 ^ (k - path.length) := by
  induction path generalizing t k with
  | nil =>
    cases t with
    | nil => simp at h
    | node c l r =>
      obtain rfl : c = b := Option.some.inj h
      exact ⟨Nat.zero_le _, shape_size hs⟩
  | cons isLeft path ih =>
    cases t with
    | nil => simp at h
    | node c l r =>
      obtain ⟨-, rfl, rfl⟩ | ⟨j, rfl, -, hsl, hsr⟩ := shape_children hs
      · cases isLeft <;> simp at h
      have hchild : path.length ≤ j ∧ b.size = 2 ^ (j - path.length) := by
        cases isLeft with
        | true => exact ih hsl h
        | false => exact ih hsr h
      rw [List.length_cons, Nat.add_sub_add_right]
      exact ⟨Nat.succ_le_succ hchild.1, hchild.2⟩

theorem linked_nodeAt (hl : Linked parent t) (hb : nodeAt t path = some b)
    (hd : nodeAt t (path ++ [isLeft]) = some d) : d.parent = some b.addr := by
  induction path generalizing t parent with
  | nil =>
    cases t with
    | nil => simp at hb
    | node c l r =>
      obtain rfl : c = b := Option.some.inj hb
      cases isLeft with
      | true =>
        cases l with
        | nil => simp at hd
        | node e _ _ =>
          obtain rfl : e = d := Option.some.inj hd
          exact hl.2.1.1
      | false =>
        cases r with
        | nil => simp at hd
        | node e _ _ =>
          obtain rfl : e = d := Option.some.inj hd
          exact hl.2.2.1
  | cons isLeft' path ih =>
    cases t with
    | nil => simp at hb
    | node c l r =>
      cases isLeft' with
      | true => exact ih hl.2.1 hb hd
      | false => exact ih hl.2.2 hb hd

/-- What hangs below a block whose children are dropped is out of the tree. -/
theorem notMem_prune (hn : (addrs t).Nodup) (h : subtree (·.isAt a) t = .node b l r) :
    ∀ d ∈ entries l ++ entries r, d.addr ∉ addrs (prune (·.isAt a) t) := by
  obtain ⟨fs, rfl⟩ := exists_plug h
  have hat : b.isAt a = true := (subtree_mem h).2
  have hba : b.addr = a := by simpa [MemoryBlock.isAt] using hat
  have hout : ∀ {d}, d ∈ entries (.node b l r) → ∀ e ∈ outside fs, e.addr ≠ d.addr :=
    fun hd => outside_ne hn hd
  have hself : ∀ e ∈ outside fs, e.isAt a = false := by
    intro e he
    simpa [MemoryBlock.isAt, hba] using hout List.mem_cons_self e he
  have hinside : b.addr ∉ (entries l ++ entries r).map MemoryBlock.addr :=
    (List.nodup_cons.mp (nodup_inside hn)).1
  intro d hd hmem
  rw [prune_plug hself] at hmem
  obtain ⟨e, he, hed⟩ := List.mem_map.mp hmem
  rw [mem_entries_plug] at he
  rcases he with he | he
  · have heb : e = b := by simpa [prune, hat] using he
    rw [heb] at hed
    exact hinside (hed ▸ List.mem_map_of_mem hd)
  · exact hout (List.mem_cons_of_mem _ hd) e he hed

theorem freeChild_subset (h : a ∈ freeChild t) : ∃ b ∈ entries t, b.addr = a := by
  cases t with
  | nil => simp [freeChild] at h
  | node b l r =>
    obtain rfl : a = b.addr := by simpa [freeChild] using h
    exact ⟨b, List.mem_cons_self, rfl⟩

theorem merge_addrs_subset : ∀ a' ∈ addrs (mergeBuddyBlocks fuel t a), a' ∈ addrs t := by
  have hprune : ∀ u p, (∀ a' ∈ addrs u, a' ∈ addrs t) → ∀ a' ∈ addrs (prune p u), a' ∈ addrs t :=
    fun u p hu a' ha => hu a' (addrs_prune_sublist.subset ha)
  exact mergeBuddyBlocks_invariant hprune fun _ ha => ha

/-- A merge frees blocks of the tree, and none that is still there afterwards. -/
theorem mergeFrees_spec (hn : (addrs t).Nodup) : ∀ a' ∈ mergeFrees fuel t a,
    a' ∈ addrs t ∧ a' ∉ addrs (mergeBuddyBlocks fuel t a) := by
  induction fuel generalizing t a with
  | zero => simp [mergeFrees]
  | succ fuel ih =>
    unfold mergeFrees mergeBuddyBlocks
    cases hblock : subtree (·.isAt a) t with
    | nil => simp
    | node b _ _ =>
      dsimp only
      cases hparent : b.parent with
      | none => simp
      | some parent =>
        dsimp only
        cases hsub : subtree (·.isAt parent) t with
        | nil => simp
        | node p left right =>
          dsimp only
          by_cases hmerge : canMerge (buddyOf left right a)
          · rw [if_pos hmerge, if_pos hmerge]
            intro a' ha
            rw [List.mem_append] at ha
            rcases ha with ha | ha
            · obtain ⟨d, hd, rfl⟩ : ∃ d ∈ entries left ++ entries right, d.addr = a' := by
                rcases List.mem_append.mp ha with ha | ha
                · obtain ⟨d, hd, hda⟩ := freeChild_subset ha
                  exact ⟨d, List.mem_append_left _ hd, hda⟩
                · obtain ⟨d, hd, hda⟩ := freeChild_subset ha
                  exact ⟨d, List.mem_append_right _ hd, hda⟩
              obtain ⟨fs, hplug⟩ := exists_plug hsub
              refine ⟨?_, fun hmem => notMem_prune hn hsub d hd (merge_addrs_subset _ hmem)⟩
              rw [hplug]
              exact addr_mem (mem_entries_plug.mpr (Or.inl (List.mem_cons_of_mem _ hd)))
            · obtain ⟨hmem, hgone⟩ := ih (hn.sublist addrs_prune_sublist) a' ha
              exact ⟨addrs_prune_sublist.subset hmem, hgone⟩
          · rw [if_neg hmerge, if_neg hmerge]
            simp

theorem deallocateFrees_spec (pid time : ℤ) (hw : WellFormed seg) : ∀ a ∈ deallocateFrees seg pid,
    a ∈ addrs seg.root ∧ a ∉ addrs (deallocateMemory seg pid time).1.root := by
  obtain ⟨hnone, -⟩ | ⟨b, hb, -, -, hroot⟩ := deallocateMemory_cases seg pid time
  · simp [deallocateFrees, hnone]
  have hsame : addrs (update (·.isAt b) MemoryBlock.release seg.root) = addrs seg.root :=
    addrs_update fun c => (release_keeps c).1
  intro a ha
  rw [deallocateFrees, hb] at ha
  rw [hroot, ← hsame]
  exact mergeFrees_spec (hsame ▸ hw.nodup) a ha

theorem arenaInv_initial : ArenaInv Arena.initial where
  wellFormed := wellFormed_initial
  unfreed := by simp [Arena.initial]
  past := by simp [Arena.initial]

/-- The freed blocks stay out of a tree that only takes new addresses. -/
theorem ArenaInv.grow (h : ArenaInv arena) (hw : WellFormed seg')
    (hnext : arena.segment.next ≤ seg'.next)
    (haddrs : ∀ a ∈ addrs seg'.root, a ∈ addrs arena.segment.root ∨ arena.segment.next ≤ a) :
    ArenaInv { arena with segment := seg' } where
  wellFormed := hw
  unfreed := by
    intro a ha hmem
    have := h.past a ha
    rcases haddrs a hmem with hold | hnew
    · exact h.unfreed a ha hold
    · omega
  past := fun a ha => (h.past a ha).trans_le hnext

theorem write_addrs {f : MemoryBlock → MemoryBlock} (a : ℕ) (hf : KeepsStructure f) :
    addrs (seg.write a f).root = addrs seg.root := addrs_update fun b => (hf b).1

theorem arenaInv_call (h : ArenaInv arena) (hc : arena.call c = some arena') :
    ArenaInv arena' := by
  have hw := h.wellFormed
  cases c with
  | allocateMemory id size time =>
    simp only [Arena.call, Option.bind_eq_bind, Option.bind_eq_some_iff] at hc
    obtain ⟨⟨seg', ok⟩, hal, hc⟩ := hc
    obtain rfl := Option.some.inj hc
    refine h.grow (allocateMemory_wellFormed hw hal) ?_ ?_
    all_goals
      obtain ⟨seg₁, res, hfind, hres⟩ := allocateMemory_search hw hal
      obtain ⟨j, -, -, hs⟩ := findBlock_some hfind
      obtain ⟨hle, hmem, -⟩ := searches_allocates hs
    · rcases hres with ⟨-, -, rfl⟩ | ⟨a, -, -, rfl⟩
      · exact hle
      · exact hle
    · have hsame : addrs seg'.root = addrs seg₁.root := by
        rcases hres with ⟨-, -, rfl⟩ | ⟨a, -, -, rfl⟩
        · rfl
        · exact write_addrs a fun _ => ⟨rfl, rfl, rfl⟩
      rw [hsame]
      exact fun a ha => (hmem a ha).imp_right And.left
  | updateId id pid =>
    obtain rfl := Option.some.inj hc
    refine h.grow (updateId_wellFormed id pid hw) ?_ ?_
    · unfold updateId
      split <;> exact Nat.le_refl _
    · have hsame : addrs (updateId arena.segment id pid).root = addrs arena.segment.root := by
        unfold updateId
        split
        · exact write_addrs _ fun _ => ⟨rfl, rfl, rfl⟩
        · rfl
      rw [hsame]
      exact fun a ha => Or.inl ha
  | deallocateMemory pid time =>
    obtain rfl := Option.some.inj hc
    have hnext : (deallocateMemory arena.segment pid time).1.next = arena.segment.next := by
      obtain ⟨-, heq⟩ | ⟨a, -, -, hnext, -⟩ := deallocateMemory_cases arena.segment pid time
      · rw [heq]
      · exact hnext
    have hsub : ∀ a ∈ addrs (deallocateMemory arena.segment pid time).1.root,
        a ∈ addrs arena.segment.root := by
      obtain ⟨-, heq⟩ | ⟨b, -, -, -, hroot⟩ := deallocateMemory_cases arena.segment pid time
      · rw [heq]
        exact fun _ ha => ha
      · intro a ha
        rw [hroot] at ha
        have := merge_addrs_subset a ha
        rwa [addrs_update fun c => (release_keeps c).1] at this
    have hspec := deallocateFrees_spec pid time hw
    refine ⟨deallocateMemory_wellFormed hw, ?_, ?_⟩
    · intro a ha hmem
      rcases List.mem_append.mp ha with ha | ha
      · exact h.unfreed a ha (hsub a hmem)
      · exact (hspec a ha).2 hmem
    · show ∀ a ∈ _, a < (deallocateMemory arena.segment pid time).1.next
      rw [hnext]
      intro a ha
      rcases List.mem_append.mp ha with ha | ha
      · exact h.past a ha
      · exact hw.fresh a (hspec a ha).1

theorem ArenaInv.buddyShape (h : ArenaInv arena) : BuddyShape arena := by
  have hshape : ∀ {path b}, nodeAt arena.segment.root path = some b →
      path.length ≤ 10 ∧ b.size = 2 ^ (10 - path.length) := fun hb =>
    shape_nodeAt h.wellFormed.shape hb
  refine ⟨?_, ?_, ?_, fun _ _ hb => (hshape hb).1, ?_⟩
  · exact fun path b hb => ⟨10 - path.length, Nat.sub_le _ _, (hshape hb).2⟩
  · intro path isLeft b d hb hd
    obtain ⟨hlen, hsize⟩ := hshape hd
    rw [List.length_append, List.length_singleton] at hlen hsize
    refine ⟨?_, linked_nodeAt h.wellFormed.linked hb hd⟩
    rw [hsize, (hshape hb).2, ← pow_succ']
    congr 1
    omega
  · exact fun path path' b d hb hd hk => nodeAt_unique h.wellFormed.nodup hb hd hk
  · exact fun path b hb hfreed => h.unfreed _ hfreed (addr_mem (mem_of_nodeAt hb))

theorem ArenaInv.terminates (h : ArenaInv arena) : Terminates arena where
  search := by
    intro needed hn
    obtain ⟨t, next, res, hsearch⟩ :=
      traverse_isSome arena.segment.next h.wellFormed.shape (show 10 < 11 by omega) hn
    rw [hsearch]
    rfl
  call := by
    intro c hc
    cases c with
    | allocateMemory id size time =>
      obtain ⟨seg₁, res, hfind⟩ := findBlock_isSome h.wellFormed hc
      cases res with
      | none => simp [Arena.call, allocateMemory_refused id time h.wellFormed hfind]
      | some a => simp [Arena.call, allocateMemory_found id time h.wellFormed hfind]
    | updateId id pid => rfl
    | deallocateMemory pid time => rfl

/-- Every run of the memory manager, from 1024 free bytes, keeps a buddy tree and can go on. -/
theorem buddyShape_always (calls : List MemoryCall) :
    Always (Guarded Roundable Arena.call) Arena.initial calls
      fun arena => BuddyShape arena ∧ Terminates arena := by
  intro pre arena _ htrace
  have hinv : ArenaInv arena :=
    htrace.invariant (fun _ _ _ hi hs => arenaInv_call hi hs.2) arenaInv_initial
  exact ⟨hinv.buddyShape, hinv.terminates⟩

end KernelSim
