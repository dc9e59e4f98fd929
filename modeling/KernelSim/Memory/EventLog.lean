import KernelSim.Memory.Markers

/-! `memory.log` tells where each process's memory was, the same when it is freed as when it was
allocated. -/
namespace KernelSim
open KeyedTree Runs

/-- The event is an allocation for the process `id`. -/
def MemoryEvent.allocates (id : ℤ) (e : MemoryEvent) : Bool := e.allocate && e.processId == id

/-- The event reports what the block `b` holds, at the address `x`. -/
structure MemoryEvent.Reports (e : MemoryEvent) (x : ℤ) (b : MemoryBlock) : Prop where
  bytes : e.bytes = b.allocated
  start : e.start = x
  stop : e.stop = x + b.size - 1

/-- The range is the least aligned one, of a power-of-two length, that the bytes fit into. -/
def MemoryEvent.FitsRange (e : MemoryEvent) : Prop :=
  0 ≤ e.start ∧ e.start ≤ e.stop ∧ e.stop ≤ 1023 ∧
    ∃ k : ℕ, e.stop - e.start + 1 = 2 ^ k ∧ max 1 e.bytes ≤ 2 ^ k ∧
      (∀ j : ℕ, max 1 e.bytes ≤ 2 ^ j → k ≤ j) ∧ (2 ^ k : ℤ) ∣ e.start

/-- Every 'freed' record comes after exactly one 'allocated' record of its process, with the same
bytes at the same addresses, and every record's range fits its bytes. -/
structure LogConsistent (log : List MemoryEvent) : Prop where
  freed : ∀ before e, before ++ [e] <+: log → e.allocate = false →
    before.countP (MemoryEvent.allocates e.processId) = 1 ∧
    ∀ a ∈ before, a.allocates e.processId = true →
      a.bytes = e.bytes ∧ a.start = e.start ∧ a.stop = e.stop
  ranges : ∀ e ∈ log, e.FitsRange

/-- Ids that have not been allocated for, and pids that no block carries. -/
def Unused (seg : Segment) : MemoryOp → Prop
  | .admission id _ pid _ => id ≠ -1 ∧ 0 < pid ∧
      (∀ e ∈ seg.memoryLog, e.allocates id = false) ∧ ∀ b ∈ entries seg.root, b.processPid ≠ pid
  | .deallocation _ _ => True

/-- The allocations logged, and the one that each live block came from. -/
structure Recorded (seg : Segment) : Prop extends LogConsistent seg.memoryLog where
  wellFormed : WellFormed seg
  clean : Clean seg.root
  once : ∀ id, seg.memoryLog.countP (MemoryEvent.allocates id) ≤ 1
  held : ∀ q ∈ lives 0 seg.root, q.2.idFromFile ≠ -1 ∧
    (∃ e ∈ seg.memoryLog, e.allocates q.2.idFromFile = true) ∧
    ∀ e ∈ seg.memoryLog, e.allocates q.2.idFromFile = true → e.Reports q.1 q.2

variable {seg seg' seg₁ : Segment} {op : MemoryOp} {id size pid time x lo : ℤ} {a k : ℕ}
  {b : MemoryBlock} {t : MemoryTree} {log : List MemoryEvent} {e : MemoryEvent}

theorem logConsistent_nil : LogConsistent [] := ⟨by simp, by simp⟩

theorem logConsistent_snoc (h : LogConsistent log) (hr : e.FitsRange)
    (hf : e.allocate = false → log.countP (MemoryEvent.allocates e.processId) = 1 ∧
      ∀ a ∈ log, a.allocates e.processId = true →
        a.bytes = e.bytes ∧ a.start = e.start ∧ a.stop = e.stop) :
    LogConsistent (log ++ [e]) := by
  constructor
  · intro before f hpre hfree
    rcases List.prefix_concat_iff.mp hpre with heq | hpre
    · obtain ⟨rfl, heq⟩ := List.append_inj' heq rfl
      obtain rfl : f = e := by simpa using heq
      exact hf hfree
    · exact h.freed before f hpre hfree
  · intro f hmem
    rcases List.mem_append.mp hmem with hmem | hmem
    · exact h.ranges f hmem
    · rw [List.mem_singleton.mp hmem]
      exact hr

/-- A range starts at a multiple of its length. -/
theorem placed_aligned (hs : Shape k t) (hlo : (2 ^ k : ℤ) ∣ lo) (h : (x, b) ∈ placed lo t) :
    ∃ j : ℕ, b.size = 2 ^ j ∧ (2 ^ j : ℤ) ∣ x := by
  induction t generalizing k lo with
  | nil => simp at h
  | node c l r hl hr =>
    have hsize := shape_size hs
    simp only [placed_node, List.mem_cons, List.mem_append, Prod.mk.injEq] at h
    rcases h with ⟨rfl, rfl⟩ | h
    · exact ⟨k, hsize, hlo⟩
    obtain ⟨-, rfl, rfl⟩ | ⟨j, rfl, hj, hsl, hsr⟩ := shape_children hs
    · simp at h
    have hhalf : (2 ^ j : ℤ) ∣ lo := (pow_dvd_pow 2 (Nat.le_succ j)).trans hlo
    rcases h with h | h
    · exact hl hsl hhalf h
    · rw [hj] at h
      exact hr hsr (Int.dvd_add hhalf (Int.dvd_refl _)) h

/-- The record of a block whose size is the rounded request. -/
theorem fitsRange_of_placed (hw : WellFormed seg) (hb : (x, b) ∈ placed 0 seg.root)
    (hround : highestPowerOf2 e.bytes = some b.size) (hstart : e.start = x)
    (hstop : e.stop = x + b.size - 1) : e.FitsRange := by
  obtain ⟨hlo, hhi, hpos⟩ := placed_range hw.shape hb
  obtain ⟨j, hj, hdvd⟩ := placed_aligned hw.shape (dvd_zero _) hb
  obtain ⟨-, i, hi, hle, hmin⟩ := highestPowerOf2_some hround
  obtain rfl : i = j := by
    rw [hj] at hi
    exact (pow_right_injective₀ (by omega) (by omega) hi.symm : i = j)
  have hone : (1 : ℤ) ≤ 2 ^ i := one_le_pow₀ (by omega)
  refine ⟨by omega, by omega, by omega, i, by omega, max_le hone hle, ?_, hstart ▸ hdvd⟩
  intro m hm
  by_contra hlt
  have := hmin m (by omega)
  omega

/-- Where the block found for a request sits, and what size it has. -/
theorem findBlock_placed (h : findBlock seg size = some (seg₁, some a)) :
    ∃ x b, (x, b) ∈ placed 0 seg₁.root ∧ b.addr = a ∧ ¬ b.live ∧
      highestPowerOf2 size = some b.size := by
  obtain ⟨j, hj, -, hs⟩ := findBlock_some h
  obtain ⟨b, hb, haddr, hlive, hsize⟩ := searches_found hs
  obtain ⟨x, hx⟩ := placed_of_entries 0 hb
  exact ⟨x, b, hx, haddr, hlive, hsize ▸ hj⟩

/-- An admission logs the block it is given, if it is given one. -/
theorem admitProcess_log (hw : WellFormed seg) (h : admitProcess seg id size pid time = some seg') :
    ∃ seg₁ res, findBlock seg size = some (seg₁, res) ∧
      ((res = none ∧ seg'.memoryLog = seg.memoryLog) ∨
        ∃ x b, res = some b.addr ∧ (x, b) ∈ placed 0 seg₁.root ∧ ¬ b.live ∧
          highestPowerOf2 size = some b.size ∧
          seg'.memoryLog = seg.memoryLog ++ [{
            time, allocate := true, bytes := size, processId := id
            start := x, stop := x + b.size - 1 }]) := by
  obtain ⟨seg₁, res, hfind, ⟨rfl, rfl⟩ | ⟨a, rfl, rfl⟩⟩ := admitProcess_search hw h
  · obtain ⟨j, -, hlog, -⟩ := findBlock_some hfind
    exact ⟨seg', none, hfind, Or.inl ⟨rfl, hlog⟩⟩
  · obtain ⟨j, -, hlog, -⟩ := findBlock_some hfind
    have hw₁ := findBlock_wellFormed hw hfind
    obtain ⟨x, b, hb, rfl, hlive, hround⟩ := findBlock_placed hfind
    refine ⟨seg₁, _, hfind, Or.inr ⟨x, b, rfl, hb, hlive, hround, ?_⟩⟩
    have hsame : (updateId (reserveBlock seg₁ b.addr id size time) id pid).memoryLog =
        (reserveBlock seg₁ b.addr id size time).memoryLog := by
      rw [updateId]
      split <;> rfl
    rw [hsame, ← hlog]
    exact reserveBlock_log id size time hw₁ hb

/-- A release logs the live block that it finds. -/
theorem deallocateMemory_log (hw : WellFormed seg) (pid time : ℤ) :
    (deallocateMemory seg pid time).1.memoryLog = seg.memoryLog ∨
      ∃ q ∈ lives 0 seg.root, (deallocateMemory seg pid time).1.memoryLog = seg.memoryLog ++ [{
        time, allocate := false, bytes := q.2.allocated, processId := q.2.idFromFile
        start := q.1, stop := q.1 + q.2.size - 1 }] := by
  unfold deallocateMemory
  cases h : getProcessMemorySegment seg.root (-1) pid with
  | none => exact Or.inl rfl
  | some a =>
    right
    obtain ⟨b, hb, rfl, hm⟩ := getProcessMemorySegment_some h
    have hlive : b.live := by
      rcases hm with ⟨hne, -⟩ | ⟨hne, heq⟩
      · exact absurd rfl hne
      · exact heq.trans_ne hne
    obtain ⟨x, hx⟩ := placed_of_entries 0 hb
    obtain ⟨l, r, hsub⟩ := subtree_at hw.nodup hb
    refine ⟨(x, b), mem_lives.mpr ⟨hx, hlive⟩, ?_⟩
    simp only [hsub, getBlockAddress_eq hw.shape hw.nodup hx]
    rfl

/-- A search that hands out nothing leaves the records and the live blocks. -/
theorem recorded_refused (h : Recorded seg) (hw : WellFormed seg')
    (hfind : findBlock seg size = some (seg₁, none)) (hroot : seg'.root = seg₁.root)
    (hlog : seg'.memoryLog = seg.memoryLog) : Recorded seg' := by
  obtain ⟨j, -, -, hs⟩ := findBlock_some hfind
  have hg := searches_grows hs
  refine ⟨hlog ▸ h.toLogConsistent, hw, ?_, ?_, ?_⟩
  · rw [hroot]
    exact grows_clean hg h.clean
  · rw [hlog]
    exact h.once
  · rw [hlog, hroot, grows_lives 0 hg]
    exact h.held

/-- The block handed out is recorded as it is placed. -/
theorem recorded_granted (h : Recorded seg) (hw : WellFormed seg')
    (hop : Unused seg (.admission id size pid time))
    (hfind : findBlock seg size = some (seg₁, some b.addr)) (hb : (x, b) ∈ placed 0 seg₁.root)
    (hlive : ¬ b.live) (hround : highestPowerOf2 size = some b.size)
    (hroot : seg'.root = update (·.isAt b.addr) (MemoryBlock.hold id size pid) seg₁.root)
    (hlog : seg'.memoryLog = seg.memoryLog ++ [{
      time, allocate := true, bytes := size, processId := id
      start := x, stop := x + b.size - 1 }]) : Recorded seg' := by
  obtain ⟨hid, hpid, hnew, -⟩ := hop
  obtain ⟨j, -, -, hs⟩ := findBlock_some hfind
  have hg := searches_grows hs
  have hw₁ := findBlock_wellFormed h.wellFormed hfind
  have hzero : seg.memoryLog.countP (MemoryEvent.allocates id) = 0 :=
    List.countP_eq_zero.mpr fun e he => by simp [hnew e he]
  have hlives : ∀ q, q ∈ lives 0 seg'.root ↔
      q = (x, b.hold id size pid) ∨ q ∈ lives 0 seg.root := by
    intro q
    rw [hroot, mem_lives_hold hw₁.nodup hb hlive (by omega), grows_lives 0 hg]
  refine ⟨?_, hw, ?_, ?_, ?_⟩
  · rw [hlog]
    exact logConsistent_snoc h.toLogConsistent
      (fitsRange_of_placed hw₁ hb hround rfl rfl) nofun
  · rw [hroot]
    intro c hc hcl
    rcases written_or_kept hc with ⟨d, -, -, rfl⟩ | ⟨hc, -⟩
    · exact absurd (show pid ≠ -1 by omega) hcl
    · exact grows_clean hg h.clean c hc hcl
  · intro id'
    rw [hlog, List.countP_append]
    by_cases heq : id' = id
    · subst heq
      rw [hzero, Nat.zero_add]
      exact List.countP_le_length
    · have hother : ¬ id = id' := Ne.symm heq
      simpa [MemoryEvent.allocates, hother] using h.once id'
  · intro q hq
    rw [hlog]
    rcases (hlives q).mp hq with rfl | hq
    · refine ⟨hid, ⟨_, List.mem_append_right _ List.mem_cons_self, ?_⟩, ?_⟩
      · simp [MemoryEvent.allocates, MemoryBlock.hold]
      · intro e he hall
        rcases List.mem_append.mp he with he | he
        · exact absurd hall (by simp [MemoryBlock.hold, hnew e he])
        · rw [List.mem_singleton.mp he]
          exact ⟨rfl, rfl, rfl⟩
    · obtain ⟨hne, ⟨e, he, hall⟩, hreports⟩ := h.held q hq
      have hother : id ≠ q.2.idFromFile := by
        rintro rfl
        simp [hnew e he] at hall
      refine ⟨hne, ⟨e, List.mem_append_left _ he, hall⟩, ?_⟩
      intro f hf hfall
      rcases List.mem_append.mp hf with hf | hf
      · exact hreports f hf hfall
      · rw [List.mem_singleton.mp hf] at hfall
        simp [MemoryEvent.allocates, hother] at hfall

/-- The record of a release agrees with the allocation of the block released. -/
theorem recorded_deallocation (h : Recorded seg) (pid time : ℤ) :
    Recorded (deallocateMemory seg pid time).1 := by
  have hw : WellFormed (deallocateMemory seg pid time).1 := deallocateMemory_wellFormed h.wellFormed
  have hclean : Clean (deallocateMemory seg pid time).1.root := by
    intro b hb hlive
    rcases deallocateMemory_entries hb with ⟨hb, -⟩ | ⟨c, -, rfl⟩
    · exact h.clean b hb hlive
    · exact ⟨rfl, rfl, rfl⟩
  have hheld : ∀ q ∈ lives 0 (deallocateMemory seg pid time).1.root, q ∈ lives 0 seg.root :=
    fun q hq => deallocateMemory_lives hq
  rcases deallocateMemory_log h.wellFormed pid time with hlog | ⟨q, hq, hlog⟩
  · refine ⟨hlog ▸ h.toLogConsistent, hw, hclean, ?_, ?_⟩
    · rw [hlog]
      exact h.once
    · rw [hlog]
      exact fun q hq => h.held q (hheld q hq)
  · obtain ⟨-, ⟨a, ha, hall⟩, hreports⟩ := h.held q hq
    have hsame := hreports a ha hall
    refine ⟨?_, hw, hclean, ?_, ?_⟩
    · rw [hlog]
      have hfits := h.ranges a ha
      refine logConsistent_snoc h.toLogConsistent ?_ fun _ => ⟨?_, ?_⟩
      · unfold MemoryEvent.FitsRange at hfits ⊢
        rwa [hsame.bytes, hsame.start, hsame.stop] at hfits
      · have hpos : 0 < seg.memoryLog.countP (MemoryEvent.allocates q.2.idFromFile) :=
          List.countP_pos_iff.mpr ⟨a, ha, hall⟩
        have := h.once q.2.idFromFile
        dsimp only
        omega
      · intro e he hall
        obtain ⟨hbytes, hstart, hstop⟩ := hreports e he hall
        exact ⟨hbytes, hstart, hstop⟩
    · intro id
      rw [hlog, List.countP_append]
      simpa [MemoryEvent.allocates] using h.once id
    · intro q' hq'
      rw [hlog]
      obtain ⟨hne, ⟨e, he, hall⟩, hreports⟩ := h.held q' (hheld q' hq')
      refine ⟨hne, ⟨e, List.mem_append_left _ he, hall⟩, ?_⟩
      intro f hf hfall
      rcases List.mem_append.mp hf with hf | hf
      · exact hreports f hf hfall
      · rw [List.mem_singleton.mp hf] at hfall
        simp [MemoryEvent.allocates] at hfall

theorem recorded_step (h : Recorded seg) (hstep : Guarded Unused MemoryOp.apply seg op seg') :
    Recorded seg' := by
  obtain ⟨hop, happ⟩ := hstep
  cases op with
  | deallocation pid time =>
    cases happ
    exact recorded_deallocation h pid time
  | admission id size pid time =>
    have hids : ∀ b ∈ entries seg.root, b.live → b.idFromFile ≠ id := by
      rintro b hb hlive rfl
      obtain ⟨x, hx⟩ := placed_of_entries 0 hb
      obtain ⟨-, ⟨e, he, hall⟩, -⟩ := h.held _ (mem_lives.mpr ⟨hx, hlive⟩)
      simp [hop.2.2.1 e he] at hall
    have hw := admitProcess_wellFormed h.wellFormed happ
    obtain ⟨seg₁, res, hfind, -, hroot⟩ := admitProcess_cases h.wellFormed h.clean hop.1 hids happ
    obtain ⟨seg₂, res', hfind', hlog⟩ := admitProcess_log h.wellFormed happ
    obtain ⟨rfl, rfl⟩ : seg₁ = seg₂ ∧ res = res' := by simpa [hfind] using hfind'
    rcases hlog with ⟨rfl, hlog⟩ | ⟨x, b, rfl, hb, hlive, hround, hlog⟩
    · rcases hroot with ⟨-, hroot⟩ | ⟨a, hne, -⟩
      · exact recorded_refused h hw hfind hroot hlog
      · cases hne
    · rcases hroot with ⟨hne, -⟩ | ⟨a, ha, hroot⟩
      · cases hne
      · obtain rfl : b.addr = a := Option.some.inj ha
        exact recorded_granted h hw hop hfind hb hlive hround hroot hlog

theorem recorded_initial : Recorded initialSegment := by
  have hlives : lives 0 initialSegment.root = [] := rfl
  refine ⟨logConsistent_nil, wellFormed_initial, segmentSound_initial.clean, ?_, ?_⟩
  · intro id
    exact Nat.zero_le _
  · simp [hlives]

/-- The log is consistent in every run, however the tree is split and merged in it. -/
theorem logConsistent_always (ops : List MemoryOp) :
    Always (Guarded Unused MemoryOp.apply) initialSegment ops
      fun seg => LogConsistent seg.memoryLog := by
  intro pre seg _ htrace
  have hinv : Recorded seg :=
    htrace.invariant (fun _ _ _ h hstep => recorded_step h hstep) recorded_initial
  exact hinv.toLogConsistent

end KernelSim
