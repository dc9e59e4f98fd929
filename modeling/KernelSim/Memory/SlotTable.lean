import KernelSim.Library.FirstFit
import KernelSim.Library.Simulation
import KernelSim.Memory.LiveSet
import Mathlib.Data.Nat.Log

/-! What the memory manager is for: a table of the blocks handed out, each at the lowest slot with
free ends. The buddy tree implements it. -/
namespace KernelSim
open KeyedTree Dyadic FirstFit Runs Simulation

/-- The blocks held, and the lines of `memory.log`. -/
structure SlotTable where
  blocks : List LiveBlock
  log : List MemoryEvent
  deriving DecidableEq, Repr

def LiveBlock.covers (y : ℤ) (v : LiveBlock) : Bool := v.start ≤ y ∧ y ≤ v.stop

/-- The width of the slot that `size` bytes get. -/
def slotWidth (size : ℤ) : ℤ := 2 ^ Nat.clog 2 size.toNat

namespace SlotTable

def empty : SlotTable := { blocks := [], log := [] }

/-- No block held covers an end byte of the slot at `x`. -/
def endsFree (table : SlotTable) (n x : ℤ) : Bool :=
  table.blocks.all fun v => !v.covers x && !v.covers (x + n - 1)

/-- The lowest slot with free ends goes to the process, if there is one. -/
def request (table : SlotTable) (id size pid time : ℤ) : SlotTable × Bool :=
  let n := slotWidth size
  match firstSlot 1024 n (table.endsFree n) with
  | some x =>
    ({ blocks := { start := x, stop := x + n - 1, size := n, allocated := size,
                   idFromFile := id, processPid := pid } :: table.blocks
       log := table.log ++ [{ time, allocate := true, bytes := size, processId := id,
                              start := x, stop := x + n - 1 }] }, true)
  | none => (table, false)

/-- The process gives back what it holds, if it holds anything. -/
def release (table : SlotTable) (pid time : ℤ) : SlotTable × Bool :=
  match table.blocks.find? (·.processPid == pid) with
  | some v =>
    ({ blocks := table.blocks.filter (·.processPid != pid)
       log := table.log ++ [{ time, allocate := false, bytes := v.allocated,
                              processId := v.idFromFile, start := v.start, stop := v.stop }] }, true)
  | none => (table, false)

def step (table : SlotTable) : MemoryOp → SlotTable × Bool
  | .admission id size pid time => table.request id size pid time
  | .deallocation pid time => table.release pid time

/-- Requests for a byte at least under an id and a pid that no block has, and releases of blocks
that share no byte with another. -/
def Proper (table : SlotTable) : MemoryOp → Prop
  | .admission id size pid _ => 1 ≤ size ∧ size ≤ 2 ^ 30 ∧ id ≠ -1 ∧ 0 < pid ∧
      ∀ v ∈ table.blocks, v.idFromFile ≠ id ∧ v.processPid ≠ pid
  | .deallocation pid _ => ∀ v ∈ table.blocks, ∀ w ∈ table.blocks, v.processPid = pid → w ≠ v →
      v.stop < w.start ∨ w.stop < v.start

instance : ∀ table op, Decidable (Proper table op)
  | table, .admission id size pid _ => inferInstanceAs
      (Decidable (1 ≤ size ∧ size ≤ 2 ^ 30 ∧ id ≠ -1 ∧ 0 < pid ∧
        ∀ v ∈ table.blocks, v.idFromFile ≠ id ∧ v.processPid ≠ pid))
  | table, .deallocation pid _ => inferInstanceAs
      (Decidable (∀ v ∈ table.blocks, ∀ w ∈ table.blocks, v.processPid = pid → w ≠ v →
        v.stop < w.start ∨ w.stop < v.start))

end SlotTable

/-- The call on the segment, with the flag it returns; `none` when it never returns. -/
def MemoryOp.call (seg : Segment) : MemoryOp → Segment × Option Bool
  | .admission id size pid time =>
    match allocateMemory seg id size time with
    | some (seg', granted) => (if granted then updateId seg' id pid else seg', some granted)
    | none => (seg, none)
  | .deallocation pid time =>
    ((deallocateMemory seg pid time).1, some (deallocateMemory seg pid time).2)

/-- The segment holds what the table holds and has logged what the table has logged. -/
structure Implements (seg : Segment) (table : SlotTable) : Prop where
  sound : SegmentSound seg
  blocks : ∀ v, v ∈ liveBlocks seg ↔ v ∈ table.blocks
  log : seg.memoryLog = table.log

variable {seg seg' : Segment} {table : SlotTable} {op : MemoryOp} {id size pid time n x y : ℤ}
  {v w : LiveBlock}

theorem LiveBlock.covers_iff : v.covers y = true ↔ v.start ≤ y ∧ y ≤ v.stop := by
  simp [LiveBlock.covers]

theorem slotWidth_pos (size : ℤ) : 0 < slotWidth size := pow_pos (by omega) _

/-- The doubling loop ends at the least power of two that the request fits into. -/
theorem highestPowerOf2_slotWidth (hlo : 1 ≤ size) (hhi : size ≤ 2 ^ 30) :
    highestPowerOf2 size = some (slotWidth size) := by
  obtain ⟨j, hj, hle, hmin⟩ := highestPowerOf2_eq hhi
  obtain ⟨m, rfl⟩ := Int.eq_ofNat_of_zero_le (show 0 ≤ size by omega)
  have hfits : m ≤ 2 ^ j := by exact_mod_cast hle
  have hclog : Nat.clog 2 m = j := by
    apply le_antisymm (Nat.clog_le_of_le_pow hfits)
    by_contra hlt
    have hm : m ≤ 2 ^ Nat.clog 2 m := Nat.le_pow_clog (by omega) m
    have := hmin _ (not_le.mp hlt)
    have : (2 : ℕ) ^ Nat.clog 2 m < m := by exact_mod_cast this
    omega
  rw [hj, slotWidth, Int.toNat_natCast, hclog]

namespace Implements

theorem busy_iff (h : Implements seg table) :
    Busy 0 seg.root y ↔ ∃ v ∈ table.blocks, v.covers y = true := by
  rw [busy_iff_range h.sound.wellFormed]
  constructor
  · rintro ⟨r, ⟨b, hb, hlive, rfl⟩, hy⟩
    exact ⟨_, (h.blocks _).mp ⟨b, hb, hlive, rfl⟩, LiveBlock.covers_iff.mpr hy⟩
  · rintro ⟨v, hv, hy⟩
    obtain ⟨b, hb, hlive, rfl⟩ := (h.blocks v).mpr hv
    exact ⟨_, ⟨b, hb, hlive, rfl⟩, LiveBlock.covers_iff.mp hy⟩

theorem openSlot_iff (h : Implements seg table) :
    OpenSlot n 0 10 seg.root x ↔ Slot 0 1024 n x ∧ table.endsFree n x := by
  simp only [OpenSlot, h.busy_iff, SlotTable.endsFree, List.all_eq_true, Bool.and_eq_true,
    Bool.not_eq_true', not_exists, not_and, Bool.not_eq_true]
  constructor
  · rintro ⟨hslot, hlow, hhigh⟩
    exact ⟨hslot, fun v hv => ⟨hlow v hv, hhigh v hv⟩⟩
  · rintro ⟨hslot, hends⟩
    exact ⟨hslot, fun v hv => (hends v hv).1, fun v hv => (hends v hv).2⟩

theorem firstSlot_of_firstOpen (h : Implements seg table) (hn : 0 < n)
    (hx : FirstOpen n 0 10 seg.root x) : firstSlot 1024 n (table.endsFree n) = some x := by
  rw [firstSlot_eq_some hn]
  exact ⟨h.openSlot_iff.mp hx.1, fun y hs ho => hx.2 y (h.openSlot_iff.mpr ⟨hs, ho⟩)⟩

theorem firstSlot_of_full (h : Implements seg table) (hn : 0 < n)
    (hfull : ∀ y, ¬ OpenSlot n 0 10 seg.root y) :
    firstSlot 1024 n (table.endsFree n) = none := by
  rw [firstSlot_eq_none hn]
  intro y hy
  rw [← Bool.not_eq_true]
  exact fun ho => hfull y (h.openSlot_iff.mpr ⟨hy, ho⟩)

theorem admissible (h : Implements seg table)
    (hok : table.Proper (.admission id size pid time)) :
    Admissible seg (.admission id size pid time) := by
  obtain ⟨hone, -, hid, hpid, hfresh⟩ := hok
  refine ⟨hone, hid, hpid, fun b hb hlive => ?_⟩
  exact hfresh _ ((h.blocks _).mp ⟨b, hb, hlive, rfl⟩)

theorem pid_unique (h : Implements seg table) (hv : v ∈ liveBlocks seg) (hw : w ∈ liveBlocks seg)
    (hpid : v.processPid = w.processPid) : v = w := by
  obtain ⟨b, hb, hlb, rfl⟩ := hv
  obtain ⟨c, hc, hlc, rfl⟩ := hw
  have haddr := h.sound.pids b hb c hc hlb hlc hpid
  rw [entry_unique h.sound.wellFormed.nodup hb hc haddr]

theorem initial : Implements initialSegment SlotTable.empty where
  sound := segmentSound_initial
  blocks := by
    intro v
    simp only [SlotTable.empty, List.not_mem_nil, iff_false]
    rintro ⟨b, hb, hlive, -⟩
    have := segmentSound_initial.charged b hb hlive
    simp only [initializeMemorySegment, entries_node, entries_nil, List.append_nil,
      List.mem_singleton] at hb
    subst hb
    exact absurd this (by decide)
  log := rfl

end Implements

theorem updateId_log (seg : Segment) (id pid : ℤ) :
    (updateId seg id pid).memoryLog = seg.memoryLog := by
  unfold updateId
  split <;> rfl

/-- A request that finds no block is refused by the table too. -/
theorem refused_implements {seg₁ : Segment} (h : Implements seg table)
    (hok : table.Proper (.admission id size pid time))
    (hfind : findBlock seg size = some (seg₁, none)) :
    table.request id size pid time = (table, false) ∧ Implements seg₁ table := by
  have hround := highestPowerOf2_slotWidth hok.1 hok.2.1
  have hal := allocateMemory_refused id time h.sound.wellFormed hfind
  have happly : (MemoryOp.admission id size pid time).apply seg = some seg₁ := by
    simp [MemoryOp.apply, admitProcess, hal]
  have hstep : MemoryStep seg (.admission id size pid time) seg₁ := ⟨h.admissible hok, happly⟩
  obtain ⟨j, hj, hlog, hs⟩ := findBlock_some hfind
  have hfull := (searches_first 0 hs h.sound.wellFormed.nonempty h.sound.wellFormed.shape
    (Or.inr h.sound.charged)).2 rfl
  rw [Option.some.inj (hj.symm.trans hround)] at hfull
  constructor
  · simp only [SlotTable.request, h.firstSlot_of_full (slotWidth_pos size) hfull]
  · refine ⟨segmentSound_step h.sound hstep, ?_, hlog.trans h.log⟩
    obtain ⟨n, hn, ⟨x, hx, -⟩ | ⟨-, hsame⟩⟩ := liveBlocks_admission h.sound hstep
    · rw [Option.some.inj (hn.symm.trans hround)] at hx
      exact absurd hx.1 (hfull x)
    · rw [hsame]
      exact h.blocks

/-- A request that finds a block finds it at the slot that the table picks. -/
theorem granted_implements {seg₁ : Segment} {a : ℕ} (h : Implements seg table)
    (hok : table.Proper (.admission id size pid time))
    (hfind : findBlock seg size = some (seg₁, some a)) :
    (table.request id size pid time).2 = true ∧
      Implements (updateId (reserveBlock seg₁ a id size time) id pid)
        (table.request id size pid time).1 := by
  have hround := highestPowerOf2_slotWidth hok.1 hok.2.1
  have hw₁ := findBlock_wellFormed h.sound.wellFormed hfind
  have hal := allocateMemory_found id time h.sound.wellFormed hfind
  have hstep : MemoryStep seg (.admission id size pid time)
      (updateId (reserveBlock seg₁ a id size time) id pid) :=
    ⟨h.admissible hok, by simp [MemoryOp.apply, admitProcess, hal]⟩
  obtain ⟨n, x, b, hn, -, hb, rfl, rfl, -, hfirst⟩ :=
    findBlock_first h.sound.wellFormed h.sound.charged hfind
  obtain hwidth := Option.some.inj (hn.symm.trans hround)
  have hslot := h.firstSlot_of_firstOpen (slotWidth_pos size) (hwidth ▸ hfirst)
  simp only [SlotTable.request, hslot, true_and]
  refine ⟨segmentSound_step h.sound hstep, ?_, ?_⟩
  · obtain ⟨m, hm, ⟨z, hz, hsame⟩ | ⟨hfull, -⟩⟩ := liveBlocks_admission h.sound hstep
    · obtain rfl := Option.some.inj (hm.symm.trans hn)
      obtain rfl := hz.unique hfirst
      intro v
      rw [hsame, Set.mem_insert_iff, h.blocks, List.mem_cons, hwidth]
    · rw [Option.some.inj (hm.symm.trans hn)] at hfull
      exact absurd hfirst.1 (hfull x)
  · obtain ⟨-, -, hlog, -⟩ := findBlock_some hfind
    rw [updateId_log, reserveBlock_log id size time hw₁ hb, hlog, h.log, hwidth]

theorem call_admission (h : Implements seg table)
    (hok : table.Proper (.admission id size pid time)) :
    ((MemoryOp.admission id size pid time).call seg).2 = some (table.step (.admission id size pid time)).2 ∧
      Implements ((MemoryOp.admission id size pid time).call seg).1
        (table.step (.admission id size pid time)).1 := by
  obtain ⟨seg₁, res, hfind⟩ := findBlock_isSome h.sound.wellFormed hok.2.1
  cases res with
  | none =>
    obtain ⟨hrefused, himpl⟩ := refused_implements h hok hfind
    have hal := allocateMemory_refused id time h.sound.wellFormed hfind
    simpa only [MemoryOp.call, hal, SlotTable.step, hrefused, Bool.false_eq_true, if_false,
      true_and] using himpl
  | some a =>
    obtain ⟨hgranted, himpl⟩ := granted_implements h hok hfind
    have hal := allocateMemory_found id time h.sound.wellFormed hfind
    simpa only [MemoryOp.call, hal, SlotTable.step, hgranted, if_true, true_and] using himpl

/-- A release that is proper in the table is clear in the segment. -/
theorem releaseClear_of_proper (h : Implements seg table)
    (hok : table.Proper (.deallocation pid time)) : ReleaseClear seg pid := by
  intro b hb c hc hlb hlc hpid hne
  have hv := (h.blocks _).mp ⟨b, hb, hlb, rfl⟩
  have hw := (h.blocks _).mp ⟨c, hc, hlc, rfl⟩
  have hother : liveBlock (getBlockAddress seg.root c.addr) c ≠
      liveBlock (getBlockAddress seg.root b.addr) b := fun heq =>
    hne (h.sound.pids b hb c hc hlb hlc (congrArg LiveBlock.processPid heq).symm)
  have hapart := hok _ hv _ hw hpid hother
  rw [addressRange, addressRange, Set.disjoint_left]
  rintro y ⟨hy1, hy2⟩ ⟨hy3, hy4⟩
  simp only [liveBlock] at hapart
  omega

/-- A release logs the block that it finds, which is the one of the process. -/
theorem released_log {a : ℕ} (hw : WellFormed seg)
    (ha : getProcessMemorySegment seg.root (-1) pid = some a) (time : ℤ) :
    ∃ v ∈ liveBlocks seg, v.processPid = pid ∧
      (deallocateMemory seg pid time).1.memoryLog = seg.memoryLog ++
        [{ time, allocate := false, bytes := v.allocated, processId := v.idFromFile,
           start := v.start, stop := v.stop }] := by
  obtain ⟨b, hb, rfl, hlive, hpid⟩ := found_for_release ha
  obtain ⟨l, r, hsub⟩ := subtree_at hw.nodup hb
  refine ⟨_, ⟨b, hb, hlive, rfl⟩, hpid, ?_⟩
  unfold deallocateMemory
  simp only [ha, hsub]
  rfl

theorem call_deallocation (h : Implements seg table)
    (hok : table.Proper (.deallocation pid time)) :
    ((MemoryOp.deallocation pid time).call seg).2 = some (table.step (.deallocation pid time)).2 ∧
      Implements ((MemoryOp.deallocation pid time).call seg).1
        (table.step (.deallocation pid time)).1 := by
  have hw := h.sound.wellFormed
  have hsound : SegmentSound (deallocateMemory seg pid time).1 := segmentSound_deallocation h.sound
  simp only [MemoryOp.call, SlotTable.step, SlotTable.release]
  obtain ⟨hnone, heq⟩ | ⟨a, ha, hok', -⟩ := deallocateMemory_cases seg pid time
  · have hfind : table.blocks.find? (·.processPid == pid) = none := by
      rw [List.find?_eq_none]
      intro v hv
      simpa using notFound_for_release hnone v ((h.blocks v).mpr hv)
    rw [hfind, heq]
    exact ⟨rfl, h⟩
  · obtain ⟨v, hv, hpid, hset⟩ := liveBlocks_released time hw h.sound.charged h.sound.pids
      (releaseClear_of_proper h hok) ha
    obtain ⟨w, hw', hwpid, hlog⟩ := released_log hw ha time
    obtain rfl := h.pid_unique hv hw' (hpid.trans hwpid.symm)
    have hfind : table.blocks.find? (·.processPid == pid) = some v := by
      cases hf : table.blocks.find? (·.processPid == pid) with
      | none =>
        have := List.find?_eq_none.mp hf v ((h.blocks v).mp hv)
        simp [hpid] at this
      | some u =>
        have hu := (h.blocks u).mpr (List.mem_of_find?_eq_some hf)
        have hupid : u.processPid = pid := by simpa using List.find?_some hf
        rw [h.pid_unique hu hv (hupid.trans hpid.symm)]
    rw [hfind, hok']
    refine ⟨rfl, hsound, ?_, ?_⟩
    · intro u
      rw [hset, Set.mem_sdiff, Set.mem_singleton_iff, h.blocks, List.mem_filter]
      refine and_congr_right fun hu => ?_
      rw [bne_iff_ne, not_iff_not]
      constructor
      · rintro rfl
        exact hpid
      · exact fun hupid => h.pid_unique ((h.blocks u).mpr hu) hv (hupid.trans hpid.symm)
    · rw [hlog, h.log]

theorem call_implements (seg : Segment) (table : SlotTable) (op : MemoryOp)
    (h : Implements seg table) (hok : table.Proper op) :
    (op.call seg).2 = some (table.step op).2 ∧ Implements (op.call seg).1 (table.step op).1 := by
  cases op with
  | admission id size pid time => exact call_admission h hok
  | deallocation pid time => exact call_deallocation h hok

/-- The buddy tree is the slot table: under proper calls every flag returned, every line logged and
every block held is the table's, whatever else is left in the tree. -/
theorem memory_refines_slotTable (ops : List MemoryOp)
    (hok : Allowed SlotTable.Proper SlotTable.step SlotTable.empty ops) :
    answers MemoryOp.call initialSegment ops =
        (answers SlotTable.step SlotTable.empty ops).map some ∧
      (after MemoryOp.call initialSegment ops).memoryLog =
        (after SlotTable.step SlotTable.empty ops).log ∧
      ∀ v, v ∈ liveBlocks (after MemoryOp.call initialSegment ops) ↔
        v ∈ (after SlotTable.step SlotTable.empty ops).blocks := by
  obtain ⟨hanswers, himpl⟩ := run_of_allowed call_implements hok Implements.initial
  exact ⟨hanswers, himpl.log, himpl.blocks⟩

/-- Blocks of 128, 64 and 256 bytes, the second given back and its place taken again. -/
def reusedPlace : List MemoryOp :=
  [.admission 1 100 101 0, .admission 2 50 102 1, .admission 3 200 103 1, .deallocation 102 4,
    .admission 4 64 104 5, .admission 5 600 105 6]

theorem memory_refines_slotTable_reused :
    answers MemoryOp.call initialSegment reusedPlace =
        [some true, some true, some true, some true, some true, some false] ∧
      (after MemoryOp.call initialSegment reusedPlace).memoryLog =
        (after SlotTable.step SlotTable.empty reusedPlace).log ∧
      ∀ v, v ∈ liveBlocks (after MemoryOp.call initialSegment reusedPlace) ↔
        v ∈ (after SlotTable.step SlotTable.empty reusedPlace).blocks :=
  memory_refines_slotTable reusedPlace (by decide)

end KernelSim
