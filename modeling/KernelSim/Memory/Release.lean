import KernelSim.Memory.Merge
import KernelSim.Memory.Overlap

/-! A release takes away the block of its process and no other live block, however far it merges. -/
namespace KernelSim
open KeyedTree Runs

/-- A live block as the rest of the program sees it. -/
structure LiveBlock where
  start : ℤ
  stop : ℤ
  size : ℤ
  allocated : ℤ
  idFromFile : ℤ
  processPid : ℤ
  deriving DecidableEq, Repr

def liveBlock (range : ℤ × ℤ) (b : MemoryBlock) : LiveBlock :=
  { start := range.1
    stop := range.2
    size := b.size
    allocated := b.allocated
    idFromFile := b.idFromFile
    processPid := b.processPid }

def liveBlocks (seg : Segment) : Set LiveBlock :=
  { v | ∃ b ∈ entries seg.root, b.live ∧ v = liveBlock (getBlockAddress seg.root b.addr) b }

/-- Admissions and releases with whatever arguments. -/
abbrev AnyStep : Segment → MemoryOp → Segment → Prop := Guarded (fun _ _ => True) MemoryOp.apply

/-- Live blocks with ranges apart, at least a byte each, and a pid of their own. -/
structure Exclusive (seg : Segment) : Prop where
  apart : NoOverlap seg
  charged : Charged seg.root
  pids : ∀ b ∈ entries seg.root, ∀ c ∈ entries seg.root, b.live → c.live →
    b.processPid = c.processPid → b.addr = c.addr

/-- The block of `pid` shares no byte with another live block. -/
def ReleaseClear (seg : Segment) (pid : ℤ) : Prop :=
  ∀ b ∈ entries seg.root, ∀ c ∈ entries seg.root, b.live → c.live → b.processPid = pid →
    b.addr ≠ c.addr → Disjoint (addressRange seg b) (addressRange seg c)

variable {seg seg' : Segment} {pid time x : ℤ} {a : ℕ} {b c : MemoryBlock} {v : LiveBlock}
  {q : ℤ × MemoryBlock}

theorem wellFormed_reachable (h : Reachable AnyStep initialSegment seg) : WellFormed seg :=
  h.invariant (fun _ _ _ hw hs => apply_wellFormed hw hs.2) wellFormed_initial

theorem liveBlock_placed (hw : WellFormed seg) (hb : (x, b) ∈ placed 0 seg.root) :
    liveBlock (getBlockAddress seg.root b.addr) b = liveBlock (x, x + b.size - 1) b := by
  rw [getBlockAddress_eq hw.shape hw.nodup hb]

theorem mem_liveBlocks (hw : WellFormed seg) : v ∈ liveBlocks seg ↔
    ∃ q ∈ lives 0 seg.root, v = liveBlock (q.1, q.1 + q.2.size - 1) q.2 := by
  constructor
  · rintro ⟨b, hb, hlive, rfl⟩
    obtain ⟨x, hx⟩ := placed_of_entries 0 hb
    exact ⟨(x, b), mem_lives.mpr ⟨hx, hlive⟩, liveBlock_placed hw hx⟩
  · rintro ⟨⟨x, b⟩, hq, rfl⟩
    obtain ⟨hx, hlive⟩ := mem_lives.mp hq
    exact ⟨b, entries_of_placed hx, hlive, (liveBlock_placed hw hx).symm⟩

/-- Of two blocks with ranges apart, none sits below the other. -/
theorem not_isInSubtree (hw : WellFormed seg) (hb : b ∈ entries seg.root) (hc : c ∈ entries seg.root)
    (h : Disjoint (addressRange seg b) (addressRange seg c)) :
    isInSubtree (subtree (·.isAt b.addr) seg.root) c.addr = false := by
  obtain ⟨x, hx⟩ := placed_of_entries 0 hb
  obtain ⟨y, hy⟩ := placed_of_entries 0 hc
  rw [← Bool.not_eq_true]
  intro hin
  have hrange := range_of_isInSubtree hw.nodup hw.shape hx hy hin
  have hpos := (placed_range hw.shape hy).2.2
  rw [addressRange_eq hw hx, addressRange_eq hw hy, Set.disjoint_left] at h
  exact @h y ⟨by omega, by omega⟩ ⟨by omega, by omega⟩

/-- The block that a release finds is live and is the one of the pid. -/
theorem found_for_release (ha : getProcessMemorySegment seg.root (-1) pid = some a) :
    ∃ b ∈ entries seg.root, b.addr = a ∧ b.live ∧ b.processPid = pid := by
  obtain ⟨b, hb, hba, hm⟩ := getProcessMemorySegment_some ha
  have hm : pid ≠ -1 ∧ b.processPid = pid := by simpa [Matches] using hm
  refine ⟨b, hb, hba, ?_, hm.2⟩
  rw [MemoryBlock.live, hm.2]
  exact hm.1

/-- The merge after a release absorbs no other live block. -/
theorem released_spares (time : ℤ) (hw : WellFormed seg) (hcharged : Charged seg.root)
    (hclear : ReleaseClear seg pid) (ha : getProcessMemorySegment seg.root (-1) pid = some a)
    (hc : c ∈ entries seg.root) (hlive : c.live) (hne : c.addr ≠ a) :
    c ∈ entries (deallocateMemory seg pid time).1.root := by
  obtain ⟨fs, b, l, r, hplug, rfl, hpid, hkept⟩ := mem_deallocateMemory time hw ha
  obtain ⟨d, -, -, hld, hdpid⟩ := found_for_release ha
  have hlb : b.live := by
    rw [MemoryBlock.live, hpid, ← hdpid]
    exact hld
  have hb : b ∈ entries seg.root := by
    rw [hplug, mem_entries_plug]
    exact Or.inl List.mem_cons_self
  have hapart := hclear b hb c hc hlb hlive hpid hne.symm
  have hn : (addrs (plug fs (.node b l r))).Nodup := hplug ▸ hw.nodup
  apply hkept c hc hne
  intro habs
  rcases absorbed_cases habs with hbelow | ⟨f, hf, rfl⟩ | hzero
  · have hout := not_isInSubtree hw hb hc hapart
    have hself : subtree (·.isAt b.addr) seg.root = .node b l r := by
      rw [hplug, subtree_plug (outside_isAt hn List.mem_cons_self)]
      exact subtree_node_self (by simp [MemoryBlock.isAt])
    rw [hself, ← Bool.not_eq_true, isInSubtree_iff] at hout
    exact hout (addr_mem hbelow)
  · have hout := not_isInSubtree hw hc hb hapart.symm
    rw [hplug, isInSubtree_of_frame hn hf List.mem_cons_self] at hout
    cases hout
  · have := hcharged c hc hlive
    omega

/-- After a release the live blocks are those of before without the one found. -/
theorem mem_lives_released (time : ℤ) (hw : WellFormed seg) (hcharged : Charged seg.root)
    (hclear : ReleaseClear seg pid)
    (ha : getProcessMemorySegment seg.root (-1) pid = some a) :
    q ∈ lives 0 (deallocateMemory seg pid time).1.root ↔ q ∈ lives 0 seg.root ∧ q.2.addr ≠ a := by
  constructor
  · intro hq
    refine ⟨deallocateMemory_lives hq, fun heq => ?_⟩
    obtain ⟨hplaced, hlive⟩ := mem_lives.mp hq
    rcases deallocateMemory_entries (entries_of_placed hplaced) with ⟨-, hne⟩ | ⟨c, -, hc⟩
    · exact hne (heq ▸ ha)
    · rw [hc] at hlive
      exact hlive rfl
  · rintro ⟨hq, hne⟩
    obtain ⟨hplaced, hlive⟩ := mem_lives.mp hq
    obtain ⟨y, hy⟩ := placed_of_entries 0
      (released_spares time hw hcharged hclear ha (entries_of_placed hplaced) hlive hne)
    have hy' : (y, q.2) ∈ lives 0 (deallocateMemory seg pid time).1.root :=
      mem_lives.mpr ⟨hy, hlive⟩
    have hold := (mem_lives.mp (deallocateMemory_lives hy')).1
    have : (y, q.2) = q := placed_unique hw.nodup hold hplaced
    exact this ▸ hy'

theorem liveBlocks_released (time : ℤ) (hw : WellFormed seg) (hcharged : Charged seg.root)
    (hpids : ∀ b ∈ entries seg.root, ∀ c ∈ entries seg.root, b.live → c.live →
      b.processPid = c.processPid → b.addr = c.addr)
    (hclear : ReleaseClear seg pid)
    (ha : getProcessMemorySegment seg.root (-1) pid = some a) :
    ∃ v ∈ liveBlocks seg, v.processPid = pid ∧
      liveBlocks (deallocateMemory seg pid time).1 = liveBlocks seg \ {v} := by
  obtain ⟨b, hb, rfl, hlive, hpid⟩ := found_for_release ha
  obtain ⟨x, hplaced⟩ := placed_of_entries 0 hb
  have hheld : liveBlock (x, x + b.size - 1) b ∈ liveBlocks seg :=
    (mem_liveBlocks hw).mpr ⟨(x, b), mem_lives.mpr ⟨hplaced, hlive⟩, rfl⟩
  refine ⟨_, hheld, hpid, ?_⟩
  ext v
  rw [mem_liveBlocks (deallocateMemory_wellFormed hw), Set.mem_sdiff, mem_liveBlocks hw,
    Set.mem_singleton_iff]
  constructor
  · rintro ⟨q, hq, rfl⟩
    obtain ⟨hq, hne⟩ := (mem_lives_released time hw hcharged hclear ha).mp hq
    refine ⟨⟨q, hq, rfl⟩, fun heq => hne ?_⟩
    have hsame : q.2.processPid = b.processPid := congrArg LiveBlock.processPid heq
    exact hpids q.2 (entries_of_placed (mem_lives.mp hq).1) b hb (mem_lives.mp hq).2 hlive hsame
  · rintro ⟨⟨q, hq, rfl⟩, hne⟩
    refine ⟨q, (mem_lives_released time hw hcharged hclear ha).mpr ⟨hq, fun heq => hne ?_⟩, rfl⟩
    have hqb := entry_unique hw.nodup (entries_of_placed (mem_lives.mp hq).1) hb heq
    obtain ⟨y, c⟩ := q
    obtain rfl : c = b := hqb
    rw [Prod.mk.inj (placed_unique hw.nodup (mem_lives.mp hq).1 hplaced) |>.1]

/-- A release finds nothing for a pid that holds nothing. -/
theorem notFound_for_release (h : getProcessMemorySegment seg.root (-1) pid = none) :
    ∀ v ∈ liveBlocks seg, v.processPid ≠ pid := by
  rintro v ⟨b, hb, hlive, rfl⟩ hpid
  have hpid : b.processPid = pid := hpid
  exact getProcessMemorySegment_eq_none.mp h b hb (Or.inr ⟨hpid ▸ hlive, hpid⟩)

/-- A release succeeds for exactly the pids that hold memory, and gives back what they hold. -/
theorem deallocateMemory_exact (h : Reachable AnyStep initialSegment seg) (hx : Exclusive seg)
    (pid time : ℤ) :
    ((deallocateMemory seg pid time).2 = true ↔ ∃ v ∈ liveBlocks seg, v.processPid = pid) ∧
    ((deallocateMemory seg pid time).2 = false → (deallocateMemory seg pid time).1 = seg) ∧
    ((deallocateMemory seg pid time).2 = true → ∃ v ∈ liveBlocks seg, v.processPid = pid ∧
      liveBlocks (deallocateMemory seg pid time).1 = liveBlocks seg \ {v}) := by
  have hw := wellFormed_reachable h
  have hclear : ReleaseClear seg pid := fun b hb c hc hlb hlc _ => hx.apart b hb c hc hlb hlc
  obtain ⟨hnone, heq⟩ | ⟨a, ha, hok, -⟩ := deallocateMemory_cases seg pid time
  · rw [heq]
    refine ⟨⟨by simp, ?_⟩, fun _ => rfl, by simp⟩
    rintro ⟨v, hv, hpid⟩
    exact absurd hpid (notFound_for_release hnone v hv)
  · obtain ⟨v, hv, hpid, hset⟩ := liveBlocks_released time hw hx.charged hx.pids hclear ha
    exact ⟨⟨fun _ => ⟨v, hv, hpid⟩, fun _ => hok⟩, by simp [hok], fun _ => ⟨v, hv, hpid, hset⟩⟩

/-- Two processes of 100 and 50 bytes, and the release of the first. -/
theorem deallocateMemory_exact_first : ∃ seg,
    execute (fun _ _ => True) MemoryOp.apply initialSegment
      [.admission 1 100 101 0, .admission 2 50 102 0] = some seg ∧
    ∃ v ∈ liveBlocks seg, v.processPid = 101 ∧
      liveBlocks (deallocateMemory seg 101 3).1 = liveBlocks seg \ {v} := by
  obtain ⟨seg, hseg, hcharged, hpids, hapart, hok⟩ : ∃ seg,
      execute (fun _ _ => True) MemoryOp.apply initialSegment
        [.admission 1 100 101 0, .admission 2 50 102 0] = some seg ∧
      (∀ b ∈ entries seg.root, b.live → 1 ≤ b.allocated) ∧
      (∀ b ∈ entries seg.root, ∀ c ∈ entries seg.root, b.live → c.live →
        b.processPid = c.processPid → b.addr = c.addr) ∧
      (∀ q ∈ lives 0 seg.root, ∀ q' ∈ lives 0 seg.root, q.2.addr ≠ q'.2.addr →
        q.1 + q.2.size ≤ q'.1 ∨ q'.1 + q'.2.size ≤ q.1) ∧
      (deallocateMemory seg 101 3).2 = true := ⟨_, rfl, by decide⟩
  have hreach : Reachable AnyStep initialSegment seg := ⟨_, trace_of_execute hseg⟩
  have hx : Exclusive seg :=
    ⟨(noOverlap_iff_apart (wellFormed_reachable hreach)).mpr hapart, hcharged, hpids⟩
  exact ⟨seg, hseg, (deallocateMemory_exact hreach hx 101 3).2.2 hok⟩

end KernelSim
