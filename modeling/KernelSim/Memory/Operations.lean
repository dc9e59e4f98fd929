import KernelSim.Library.Runs
import KernelSim.Memory.Coverage

/-! Admissions and releases: what one call does to a well-formed segment. -/
namespace KernelSim
open KeyedTree

/-- What the generator asks of the memory manager. -/
inductive MemoryOp
  /-- `allocate_memory` and, when it succeeds, `update_id` -/
  | admission (idFromFile processSize pid time : ℤ)
  | deallocation (pid time : ℤ)
  deriving DecidableEq, Repr

def admitProcess (seg : Segment) (idFromFile processSize pid time : ℤ) : Option Segment := do
  let (seg, granted) ← allocateMemory seg idFromFile processSize time
  return if granted then updateId seg idFromFile pid else seg

def MemoryOp.apply (seg : Segment) : MemoryOp → Option Segment
  | .admission idFromFile processSize pid time => admitProcess seg idFromFile processSize pid time
  | .deallocation pid time => some (deallocateMemory seg pid time).1

variable {seg seg' : Segment} {t t' : MemoryTree} {b c : MemoryBlock} {a a' : ℕ}
  {id pid size time x n : ℤ} {fuel j : ℕ}

/-- What `get_Process_Memory_Segment` looks for. -/
def Matches (id pid : ℤ) (b : MemoryBlock) : Prop :=
  (id ≠ -1 ∧ b.idFromFile = id) ∨ (pid ≠ -1 ∧ b.processPid = pid)

theorem getProcessMemorySegment_some (h : getProcessMemorySegment t id pid = some a) :
    ∃ b ∈ entries t, b.addr = a ∧ Matches id pid b := by
  induction t with
  | nil => simp [getProcessMemorySegment] at h
  | node b l r hl hr =>
    simp only [getProcessMemorySegment] at h
    split at h
    · rename_i hm
      exact ⟨b, by simp, by simpa using h, hm⟩
    · split at h
      · rename_i heq
        obtain ⟨c, hc, hca⟩ := hl (heq.trans h)
        exact ⟨c, by simp [hc], hca⟩
      · obtain ⟨c, hc, hca⟩ := hr h
        exact ⟨c, by simp [hc], hca⟩

theorem getProcessMemorySegment_eq_none :
    getProcessMemorySegment t id pid = none ↔ ∀ b ∈ entries t, ¬ Matches id pid b := by
  induction t with
  | nil => simp [getProcessMemorySegment]
  | node b l r hl hr =>
    simp only [getProcessMemorySegment, entries_node, List.mem_cons, List.mem_append]
    split
    · rename_i hm
      simp only [reduceCtorEq, false_iff]
      exact fun h => h b (Or.inl rfl) hm
    · rename_i hm
      split
      · rename_i heq
        simp only [reduceCtorEq, false_iff]
        intro h
        rw [hl.mpr fun c hc => h c (Or.inr (Or.inl hc))] at heq
        cases heq
      · rename_i heq
        have hleft := hl.mp heq
        rw [hr]
        constructor
        · rintro h c (rfl | hc | hc)
          · exact hm
          · exact hleft c hc
          · exact h c hc
        · exact fun h c hc => h c (Or.inr (Or.inr hc))

/-- With one match in the tree, the lookup finds it. -/
theorem getProcessMemorySegment_unique (hb : b ∈ entries t) (hm : Matches id pid b)
    (hu : ∀ c ∈ entries t, Matches id pid c → c.addr = b.addr) :
    getProcessMemorySegment t id pid = some b.addr := by
  cases h : getProcessMemorySegment t id pid with
  | none => exact absurd hm (getProcessMemorySegment_eq_none.mp h b hb)
  | some a =>
    obtain ⟨c, hc, rfl, hcm⟩ := getProcessMemorySegment_some h
    rw [hu c hc hcm]

/-- Merging is a series of prunings, so it keeps whatever pruning keeps. -/
theorem mergeBuddyBlocks_invariant {P : MemoryTree → Prop}
    (hprune : ∀ t p, P t → P (prune p t)) (h : P t) : P (mergeBuddyBlocks fuel t a) := by
  induction fuel generalizing t a with
  | zero => exact h
  | succ fuel ih =>
    simp only [mergeBuddyBlocks]
    repeat' split
    all_goals first | exact h | exact ih (hprune _ _ h)

/-! The search from the root of a well-formed segment. -/

theorem wellFormed_initial : WellFormed (initializeMemorySegment 1024 0) where
  nonempty := by simp [initializeMemorySegment]
  shape := by simp [initializeMemorySegment, blankBlock, Shape]
  linked := by simp [initializeMemorySegment, blankBlock, Linked]
  nodup := by simp [initializeMemorySegment]
  fresh := by simp [initializeMemorySegment, blankBlock]

theorem doublePower_none (h : 2 ^ 30 < x)
    (hn : (∃ i ≤ 30, n = 2 ^ i) ∨ n = -2 ^ 31 ∨ n = 0) : doublePower fuel n x = none := by
  induction fuel generalizing n with
  | zero => rfl
  | succ fuel ih =>
    have hlt : n < x := by
      rcases hn with ⟨i, hi, rfl⟩ | rfl | rfl
      · have : (2 : ℤ) ^ i ≤ 2 ^ 30 := pow_le_pow_right₀ (by omega) hi
        omega
      · omega
      · omega
    rw [doublePower, if_pos hlt]
    apply ih
    rcases hn with ⟨i, hi, rfl⟩ | rfl | rfl
    · obtain rfl | hi : i = 30 ∨ i < 30 := by omega
      · exact Or.inr (Or.inl (by decide))
      · refine Or.inl ⟨i + 1, hi, ?_⟩
        have hle : (2 : ℤ) ^ (i + 1) ≤ 2 ^ 30 := pow_le_pow_right₀ (by omega) hi
        have h0 : (0 : ℤ) < 2 ^ (i + 1) := pow_pos (by omega) _
        rw [← pow_succ, wrap32]
        exact Int.bmod_eq_of_le_mul_two (by omega) (by omega)
    · exact Or.inr (Or.inr (by decide))
    · exact Or.inr (Or.inr (by decide))

/-- Past `2 ^ 30` the doubling overflows to 0 and the loop never ends. -/
theorem highestPowerOf2_none (h : 2 ^ 30 < x) : highestPowerOf2 x = none := by
  rw [highestPowerOf2, if_neg (by omega)]
  exact doublePower_none h (Or.inl ⟨0, by omega, rfl⟩)

/-- A rounding that ends gives a power of two that is large enough. -/
theorem highestPowerOf2_some (h : highestPowerOf2 x = some n) :
    x ≤ 2 ^ 30 ∧ ∃ j, n = 2 ^ j ∧ x ≤ 2 ^ j ∧ ∀ m < j, (2 : ℤ) ^ m < x := by
  have hx : x ≤ 2 ^ 30 := by
    by_contra hx
    rw [highestPowerOf2_none (not_le.mp hx)] at h
    cases h
  obtain ⟨j, hj, hxj, hmin⟩ := highestPowerOf2_eq hx
  rw [hj, Option.some.injEq] at h
  exact ⟨hx, j, h.symm, hxj, hmin⟩

theorem findBlock_some {res : Option ℕ} (h : findBlock seg size = some (seg', res)) :
    ∃ j, highestPowerOf2 size = some (2 ^ j) ∧ seg'.memoryLog = seg.memoryLog ∧
      Searches (2 ^ j) seg.root seg.next seg'.root seg'.next res := by
  simp only [findBlock, Option.bind_eq_bind, Option.bind_eq_some_iff] at h
  obtain ⟨n, hn, ⟨root, next, found⟩, ht, h⟩ := h
  simp only [Option.pure_def, Option.some.injEq, Prod.mk.injEq] at h
  obtain ⟨rfl, rfl⟩ := h
  obtain ⟨-, j, rfl, -⟩ := highestPowerOf2_some hn
  exact ⟨j, hn, rfl, traverse_searches ht⟩

/-- A request whose size can be rounded is always answered. -/
theorem findBlock_isSome (hw : WellFormed seg) (hx : size ≤ 2 ^ 30) :
    ∃ seg' res, findBlock seg size = some (seg', res) := by
  obtain ⟨j, hj, -⟩ := highestPowerOf2_eq hx
  have hfuel : 10 < searchFuel seg.root := by
    have hs := hw.shape
    have hne := hw.nonempty
    cases ht : seg.root with
    | nil => exact absurd ht hne
    | node b l r =>
      rw [ht] at hs
      simp [searchFuel, shape_size hs]
  have hpos : (1 : ℤ) ≤ 2 ^ j := one_le_pow₀ (by omega)
  obtain ⟨root, next, res, ht⟩ := traverse_isSome seg.next hw.shape hfuel hpos
  exact ⟨{ seg with root, next }, res, by
    simp only [findBlock, hj, ht, Option.bind_eq_bind, Option.bind_some]; rfl⟩

theorem searches_wellFormed {needed : ℤ} {next' : ℕ} {res : Option ℕ} (hw : WellFormed seg)
    (hn : 1 ≤ needed) (h : Searches needed seg.root seg.next t' next' res) :
    WellFormed { seg with root := t', next := next' } where
  nonempty := by
    have hg := searches_grows h
    have hne := hw.nonempty
    intro ht'
    subst ht'
    cases hr : seg.root <;> rw [hr] at hg hne
    · exact hne rfl
    · exact hg
  shape := searches_shape h hn hw.shape
  linked := searches_linked h hw.linked
  nodup := (searches_allocates h).2.2 hw.nodup hw.fresh
  fresh := by
    obtain ⟨hle, hmem, -⟩ := searches_allocates h
    intro a ha
    rcases hmem a ha with h | h
    · exact (hw.fresh a h).trans_le hle
    · exact h.2

theorem findBlock_wellFormed {res : Option ℕ} (hw : WellFormed seg)
    (h : findBlock seg size = some (seg', res)) : WellFormed seg' := by
  obtain ⟨j, -, -, hs⟩ := findBlock_some h
  have hpos : (1 : ℤ) ≤ 2 ^ j := one_le_pow₀ (by omega)
  have := searches_wellFormed hw hpos hs
  exact ⟨this.1, this.2, this.3, this.4, this.5⟩

/-- No more than the whole segment is ever handed out. -/
theorem size_le_of_found (hw : WellFormed seg) (h : findBlock seg size = some (seg', some a)) :
    size ≤ 1024 := by
  obtain ⟨j, hj, -, hs⟩ := findBlock_some h
  obtain ⟨b, hb, -, -, hsize⟩ := searches_found hs
  obtain ⟨-, i, hi, hle, -⟩ := highestPowerOf2_some hj
  obtain ⟨x, hx⟩ := placed_of_entries 0 hb
  have hrange := placed_range (findBlock_wellFormed hw h).shape hx
  have : (2 : ℤ) ^ 10 = 1024 := rfl
  omega

/-! Writes keep a segment well formed when they leave its structure alone. -/

/-- `f` writes no field that the tree's structure rests on. -/
def KeepsStructure (f : MemoryBlock → MemoryBlock) : Prop :=
  ∀ b, (f b).addr = b.addr ∧ (f b).size = b.size ∧ (f b).parent = b.parent

theorem wellFormed_write {f : MemoryBlock → MemoryBlock} (a : ℕ) (hf : KeepsStructure f)
    (hw : WellFormed seg) : WellFormed (seg.write a f) where
  nonempty := update_ne_nil hw.nonempty
  shape := shape_update (fun b => (hf b).2.1) hw.shape
  linked := linked_update (fun b => ⟨(hf b).2.2, (hf b).1⟩) hw.linked
  nodup := by
    rw [Segment.write, addrs_update fun b => (hf b).1]
    exact hw.nodup
  fresh := by
    rw [Segment.write, addrs_update fun b => (hf b).1]
    exact hw.fresh

theorem wellFormed_log {event : MemoryEvent} (hw : WellFormed seg) :
    WellFormed (seg.logMemoryEvent event) := ⟨hw.1, hw.2, hw.3, hw.4, hw.5⟩

theorem wellFormed_merge (fuel a : ℕ) (hw : WellFormed seg) :
    WellFormed { seg with root := mergeBuddyBlocks fuel seg.root a } := by
  have hprune : ∀ t p, WellFormed { seg with root := t } →
      WellFormed { seg with root := prune p t } := by
    intro t p h
    exact ⟨prune_ne_nil h.1, shape_prune h.2, linked_prune h.3,
      h.4.sublist addrs_prune_sublist,
      fun a ha => h.5 a (addrs_prune_sublist.subset ha)⟩
  exact mergeBuddyBlocks_invariant hprune hw

theorem release_keeps : KeepsStructure MemoryBlock.release := fun _ => ⟨rfl, rfl, rfl⟩

/-- A block no live process holds carries nothing of one that held it before. -/
def Clean (t : MemoryTree) : Prop := ∀ b ∈ entries t, ¬ b.live → b.Blank

/-- What an admission writes into the block it was given. -/
def MemoryBlock.hold (id size pid : ℤ) (b : MemoryBlock) : MemoryBlock :=
  { b with idFromFile := id, allocated := size, processPid := pid }

theorem hold_keeps (id size pid : ℤ) : KeepsStructure (MemoryBlock.hold id size pid) := fun _ => ⟨rfl, rfl, rfl⟩

theorem grows_clean (hg : Grows t t') (hc : Clean t) : Clean t' := by
  intro b hb hlive
  rcases grows_entries hg hb with h | h
  · exact hc b h hlive
  · exact h

theorem grows_ids (hg : Grows t t') (hc : Clean t) (hid : id ≠ -1)
    (hids : ∀ b ∈ entries t, b.live → b.idFromFile ≠ id) :
    ∀ b ∈ entries t', b.idFromFile ≠ id := by
  intro b hb
  by_cases hlive : b.live
  · rcases grows_entries hg hb with h | h
    · exact hids b h hlive
    · rw [h.2.1]
      exact hid.symm
  · rw [(grows_clean hg hc b hb hlive).2.1]
    exact hid.symm

/-- `update_id` leaves the tree alone, or writes the pid into a block with the id. -/
theorem updateId_cases (seg : Segment) (id pid : ℤ) : updateId seg id pid = seg ∨
    ∃ b ∈ entries seg.root, id ≠ -1 ∧ b.idFromFile = id ∧
      updateId seg id pid = seg.write b.addr fun b => { b with processPid := pid } := by
  unfold updateId
  split
  · rename_i found hfound
    obtain ⟨b, hb, rfl, hm⟩ := getProcessMemorySegment_some hfound
    have hm : id ≠ -1 ∧ b.idFromFile = id := by simpa [Matches] using hm
    exact Or.inr ⟨b, hb, hm.1, hm.2, rfl⟩
  · exact Or.inl rfl

/-- `update_id` finds the block that was just reserved. -/
theorem updateId_reserved (hb : b ∈ entries seg.root)
    (hid : id ≠ -1) (hids : ∀ c ∈ entries seg.root, c.idFromFile ≠ id) :
    (updateId (reserveBlock seg b.addr id size time) id pid).root =
      update (·.isAt b.addr) (MemoryBlock.hold id size pid) seg.root := by
  let reserve : MemoryBlock → MemoryBlock := fun b => { b with idFromFile := id, allocated := size }
  have hroot : (reserveBlock seg b.addr id size time).root =
      update (·.isAt b.addr) reserve seg.root := rfl
  have hentries : ∀ c ∈ entries (update (·.isAt b.addr) reserve seg.root),
      Matches id (-1) c → c.addr = b.addr := by
    intro c hc hm
    rcases written_or_kept hc with ⟨d, -, hda, rfl⟩ | ⟨hc, -⟩
    · exact hda
    · simp only [Matches, ne_eq, not_true_eq_false, false_and, or_false] at hm
      exact absurd hm.2 (hids c hc)
  have hreserved : reserve b ∈ entries (update (·.isAt b.addr) reserve seg.root) := by
    rw [entries_update]
    exact List.mem_map.mpr ⟨b, hb, by simp [MemoryBlock.isAt]⟩
  have hfound := getProcessMemorySegment_unique hreserved (Or.inl ⟨hid, rfl⟩) hentries
  simp only [updateId, hroot, hfound, Segment.write]
  exact update_update fun _ => rfl

/-- The segment that `main` initializes is never replaced. -/
theorem allocateMemory_eq (id size time : ℤ) (hw : WellFormed seg) :
    allocateMemory seg id size time = allocateIn seg id size time := by
  have hne := hw.nonempty
  unfold allocateMemory
  split
  · contradiction
  · rfl

/-- A request is a search, and the reservation of what it finds. -/
theorem allocateMemory_search {ok : Bool} (hw : WellFormed seg)
    (h : allocateMemory seg id size time = some (seg', ok)) :
    ∃ seg₁ res, findBlock seg size = some (seg₁, res) ∧
      (res = none ∧ ok = false ∧ seg' = seg₁ ∨
        ∃ a, res = some a ∧ ok = true ∧ seg' = reserveBlock seg₁ a id size time) := by
  rw [allocateMemory_eq id size time hw] at h
  simp only [allocateIn, Option.bind_eq_bind, Option.bind_eq_some_iff] at h
  obtain ⟨⟨seg₁, res⟩, hfind, h⟩ := h
  refine ⟨seg₁, res, hfind, ?_⟩
  cases res with
  | none =>
    simp only [Option.pure_def, Option.some.injEq, Prod.mk.injEq] at h
    exact Or.inl ⟨rfl, h.2.symm, h.1.symm⟩
  | some a =>
    simp only [Option.pure_def, Option.some.injEq, Prod.mk.injEq] at h
    exact Or.inr ⟨a, rfl, h.2.symm, h.1.symm⟩

theorem allocateMemory_found {seg₁ : Segment} (id time : ℤ) (hw : WellFormed seg)
    (h : findBlock seg size = some (seg₁, some a)) :
    allocateMemory seg id size time = some (reserveBlock seg₁ a id size time, true) := by
  rw [allocateMemory_eq id size time hw]
  simp only [allocateIn, h, Option.bind_eq_bind, Option.bind_some, Option.pure_def]

theorem allocateMemory_refused {seg₁ : Segment} (id time : ℤ) (hw : WellFormed seg)
    (h : findBlock seg size = some (seg₁, none)) :
    allocateMemory seg id size time = some (seg₁, false) := by
  rw [allocateMemory_eq id size time hw]
  simp only [allocateIn, h, Option.bind_eq_bind, Option.bind_some, Option.pure_def]

theorem reserveBlock_wellFormed (a : ℕ) (id size time : ℤ) (hw : WellFormed seg) :
    WellFormed (reserveBlock seg a id size time) :=
  wellFormed_log (wellFormed_write a (fun _ => ⟨rfl, rfl, rfl⟩) hw)

/-- The range logged for a reservation is where the block sits. -/
theorem reserveBlock_log (id size time : ℤ) (hw : WellFormed seg) (hb : (x, b) ∈ placed 0 seg.root) :
    (reserveBlock seg b.addr id size time).memoryLog = seg.memoryLog ++ [{
      time, allocate := true, bytes := size, processId := id
      start := x, stop := x + b.size - 1 }] := by
  let reserve : MemoryBlock → MemoryBlock := fun b => { b with idFromFile := id, allocated := size }
  have hw' := wellFormed_write (f := reserve) b.addr (fun _ => ⟨rfl, rfl, rfl⟩) hw
  have hplaced : (x, reserve b) ∈ placed 0 (seg.write b.addr reserve).root := by
    rw [Segment.write, placed_update (f := reserve) fun _ => rfl]
    exact List.mem_map.mpr ⟨(x, b), hb, by simp [MemoryBlock.isAt]⟩
  have hreserved := getBlockAddress_eq hw'.shape hw'.nodup hplaced
  have haddr : getBlockAddress (seg.write b.addr reserve).root b.addr = (x, x + b.size - 1) :=
    hreserved
  show seg.memoryLog ++ [MemoryEvent.mk time true size id
    (getBlockAddress (seg.write b.addr reserve).root b.addr).1
    (getBlockAddress (seg.write b.addr reserve).root b.addr).2] = _
  rw [haddr]

theorem updateId_wellFormed (id pid : ℤ) (hw : WellFormed seg) :
    WellFormed (updateId seg id pid) := by
  unfold updateId
  split
  · exact wellFormed_write _ (fun _ => ⟨rfl, rfl, rfl⟩) hw
  · exact hw

theorem allocateMemory_wellFormed {ok : Bool} (hw : WellFormed seg)
    (h : allocateMemory seg id size time = some (seg', ok)) : WellFormed seg' := by
  obtain ⟨seg₁, res, hfind, ⟨-, -, rfl⟩ | ⟨a, -, -, rfl⟩⟩ := allocateMemory_search hw h
  · exact findBlock_wellFormed hw hfind
  · exact reserveBlock_wellFormed a id size time (findBlock_wellFormed hw hfind)

/-- An admission is a request, and the stamping of what it was given. -/
theorem admitProcess_search (hw : WellFormed seg)
    (h : admitProcess seg id size pid time = some seg') :
    ∃ seg₁ res, findBlock seg size = some (seg₁, res) ∧
      (res = none ∧ seg' = seg₁ ∨
        ∃ a, res = some a ∧ seg' = updateId (reserveBlock seg₁ a id size time) id pid) := by
  simp only [admitProcess, Option.bind_eq_bind, Option.bind_eq_some_iff] at h
  obtain ⟨⟨seg₂, granted⟩, hal, h⟩ := h
  have h : (if granted = true then updateId seg₂ id pid else seg₂) = seg' := Option.some.inj h
  obtain ⟨seg₁, res, hfind, ⟨rfl, rfl, rfl⟩ | ⟨a, rfl, rfl, rfl⟩⟩ := allocateMemory_search hw hal
  · exact ⟨seg₂, none, hfind, Or.inl ⟨rfl, h.symm⟩⟩
  · exact ⟨seg₁, some a, hfind, Or.inr ⟨a, rfl, h.symm⟩⟩

theorem admitProcess_isSome (id pid time : ℤ) (hw : WellFormed seg) (hx : size ≤ 2 ^ 30) :
    ∃ seg', admitProcess seg id size pid time = some seg' := by
  obtain ⟨seg₁, res, hfind⟩ := findBlock_isSome hw hx
  cases res with
  | none => simp [admitProcess, allocateMemory_refused id time hw hfind]
  | some a => simp [admitProcess, allocateMemory_found id time hw hfind]

theorem admitProcess_wellFormed (hw : WellFormed seg)
    (h : admitProcess seg id size pid time = some seg') : WellFormed seg' := by
  obtain ⟨seg₁, res, hfind, ⟨-, rfl⟩ | ⟨a, -, rfl⟩⟩ := admitProcess_search hw h
  · exact findBlock_wellFormed hw hfind
  · exact updateId_wellFormed id pid
      (reserveBlock_wellFormed a id size time (findBlock_wellFormed hw hfind))

/-- An admission either leaves the tree its search made, or also fills the block found. -/
theorem admitProcess_cases (hw : WellFormed seg) (hc : Clean seg.root) (hid : id ≠ -1)
    (hids : ∀ b ∈ entries seg.root, b.live → b.idFromFile ≠ id)
    (h : admitProcess seg id size pid time = some seg') :
    ∃ seg₁ res, findBlock seg size = some (seg₁, res) ∧ seg'.next = seg₁.next ∧
      ((res = none ∧ seg'.root = seg₁.root) ∨
        ∃ a, res = some a ∧
          seg'.root = update (·.isAt a) (MemoryBlock.hold id size pid) seg₁.root) := by
  obtain ⟨seg₁, res, hfind, ⟨rfl, rfl⟩ | ⟨a, rfl, rfl⟩⟩ := admitProcess_search hw h
  · exact ⟨seg', none, hfind, rfl, Or.inl ⟨rfl, rfl⟩⟩
  · obtain ⟨j, -, -, hsearch⟩ := findBlock_some hfind
    refine ⟨seg₁, _, hfind, ?_⟩
    obtain ⟨b, hb, rfl, -⟩ := searches_found hsearch
    have hg := searches_grows hsearch
    refine ⟨?_, Or.inr ⟨b.addr, rfl,
      updateId_reserved hb hid (grows_ids hg hc hid hids)⟩⟩
    simp only [updateId]
    split <;> rfl

/-- After a grant the live blocks are those of before and the block granted. -/
theorem mem_lives_hold (hn : (addrs t).Nodup) (hb : (x, b) ∈ placed 0 t) (hlive : ¬ b.live)
    (hpid : pid ≠ -1) {q : ℤ × MemoryBlock} :
    q ∈ lives 0 (update (·.isAt b.addr) (MemoryBlock.hold id size pid) t) ↔
      q = (x, b.hold id size pid) ∨ q ∈ lives 0 t := by
  have hbm := entries_of_placed hb
  simp only [mem_lives, placed_update fun c => (hold_keeps id size pid c).2.1,
    List.mem_map]
  constructor
  · rintro ⟨⟨⟨y, c⟩, hc, rfl⟩, hq⟩
    by_cases hcb : c.addr = b.addr
    · obtain rfl := entry_unique hn (entries_of_placed hc) hbm hcb
      refine Or.inl ?_
      rw [placed_unique hn hc hb]
      simp [MemoryBlock.isAt]
    · have : c.isAt b.addr = false := by simpa [MemoryBlock.isAt] using hcb
      simp only [this, Bool.false_eq_true, if_false] at hq ⊢
      exact Or.inr ⟨hc, hq⟩
  · rintro (rfl | ⟨hq, hql⟩)
    · exact ⟨⟨(x, b), hb, by simp [MemoryBlock.isAt]⟩, hpid⟩
    · have hqb : q.2.isAt b.addr = false := by
        rw [MemoryBlock.isAt, beq_eq_false_iff_ne]
        intro he
        obtain heq := entry_unique hn (entries_of_placed hq) hbm he
        exact hlive (heq ▸ hql)
      exact ⟨⟨q, hq, by simp [hqb]⟩, hql⟩

/-- A release finds no block, or resets one and merges from there. -/
theorem deallocateMemory_cases (seg : Segment) (pid time : ℤ) :
    (getProcessMemorySegment seg.root (-1) pid = none ∧
      deallocateMemory seg pid time = (seg, false)) ∨
    ∃ a, getProcessMemorySegment seg.root (-1) pid = some a ∧
      (deallocateMemory seg pid time).2 = true ∧
      (deallocateMemory seg pid time).1.next = seg.next ∧
      (deallocateMemory seg pid time).1.root =
        mergeBuddyBlocks (update (·.isAt a) MemoryBlock.release seg.root).numNodes
          (update (·.isAt a) MemoryBlock.release seg.root) a := by
  unfold deallocateMemory
  cases h : getProcessMemorySegment seg.root (-1) pid with
  | none => exact Or.inl ⟨rfl, rfl⟩
  | some a =>
    refine Or.inr ⟨a, rfl, rfl, ?_, ?_⟩
    · dsimp only
      split <;> rfl
    · dsimp only
      split <;> rfl

/-- A release never makes a block live. -/
theorem deallocateMemory_lives {q : ℤ × MemoryBlock}
    (h : q ∈ lives 0 (deallocateMemory seg pid time).1.root) : q ∈ lives 0 seg.root := by
  obtain ⟨-, heq⟩ | ⟨a, -, -, -, hroot⟩ := deallocateMemory_cases seg pid time
  · rwa [heq] at h
  rw [hroot, mem_lives] at h
  obtain ⟨hq, hlive⟩ := h
  have hprune : ∀ t p, (∀ q ∈ placed 0 t,
      q ∈ placed 0 (update (·.isAt a) MemoryBlock.release seg.root)) → ∀ q ∈ placed 0 (prune p t),
      q ∈ placed 0 (update (·.isAt a) MemoryBlock.release seg.root) :=
    fun t p ht q hq => ht q (placed_prune_sublist.subset hq)
  have hupdate := mergeBuddyBlocks_invariant hprune (fun q hq => hq) q hq
  rw [placed_update fun c => (release_keeps c).2.1] at hupdate
  obtain ⟨⟨y, c⟩, hc, rfl⟩ := List.mem_map.mp hupdate
  by_cases hca : c.isAt a
  · simp [hca, MemoryBlock.release] at hlive
  · simp only [hca, Bool.false_eq_true, if_false] at hlive ⊢
    exact mem_lives.mpr ⟨hc, hlive⟩

/-- A release resets the block it finds and keeps or drops the others. -/
theorem deallocateMemory_entries (h : b ∈ entries (deallocateMemory seg pid time).1.root) :
    (b ∈ entries seg.root ∧ getProcessMemorySegment seg.root (-1) pid ≠ some b.addr) ∨
      ∃ c ∈ entries seg.root, b = c.release := by
  obtain ⟨hnone, heq⟩ | ⟨a, ha, -, -, hroot⟩ := deallocateMemory_cases seg pid time
  · rw [heq] at h
    exact Or.inl ⟨h, by simp [hnone]⟩
  rw [hroot] at h
  have hprune : ∀ t p, (∀ b ∈ entries t,
      b ∈ entries (update (·.isAt a) MemoryBlock.release seg.root)) → ∀ b ∈ entries (prune p t),
      b ∈ entries (update (·.isAt a) MemoryBlock.release seg.root) :=
    fun t p ht b hb => ht b (entries_prune_sublist.subset hb)
  have hupdate := mergeBuddyBlocks_invariant hprune (fun b hb => hb) b h
  rcases written_or_kept hupdate with ⟨c, hc, -, rfl⟩ | ⟨hb, hne⟩
  · exact Or.inr ⟨c, hc, rfl⟩
  · rw [ha]
    exact Or.inl ⟨hb, fun he => hne (Option.some.inj he).symm⟩

theorem deallocateMemory_wellFormed (hw : WellFormed seg) :
    WellFormed (deallocateMemory seg pid time).1 := by
  obtain ⟨-, heq⟩ | ⟨a, -, -, hnext, hroot⟩ := deallocateMemory_cases seg pid time
  · rwa [heq]
  have hw' := wellFormed_merge (update (·.isAt a) MemoryBlock.release seg.root).numNodes a
    (wellFormed_write a release_keeps hw)
  exact ⟨hroot ▸ hw'.1, hroot ▸ hw'.2, hroot ▸ hw'.3, hroot ▸ hw'.4, by
    rw [hroot, hnext]
    exact hw'.5⟩

/-- Whatever is asked of it, the memory manager keeps its tree well formed. -/
theorem apply_wellFormed {op : MemoryOp} (hw : WellFormed seg) (h : op.apply seg = some seg') :
    WellFormed seg' := by
  cases op with
  | admission id size pid time => exact admitProcess_wellFormed hw h
  | deallocation pid time =>
    cases h
    exact deallocateMemory_wellFormed hw

end KernelSim
