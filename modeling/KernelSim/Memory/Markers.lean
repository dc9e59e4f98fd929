import KernelSim.Memory.Overlap

/-! Three fields say whether a block is in use, and the search, `update_id` and the merge each
read a different one. -/
namespace KernelSim
open KeyedTree Dyadic Runs

variable {seg seg' seg₁ : Segment} {op : MemoryOp} {id size pid time x y : ℤ} {a : ℕ}

/-- Any size the reader can deliver that can be rounded, under an id and a pid not in use. -/
def Readable (seg : Segment) : MemoryOp → Prop
  | .admission id size pid _ => -2 ^ 31 ≤ size ∧ size ≤ 2 ^ 30 ∧ id ≠ -1 ∧ 0 < pid ∧
      ∀ b ∈ entries seg.root, b.live → b.idFromFile ≠ id ∧ b.processPid ≠ pid
  | .deallocation _ _ => True

instance : ∀ seg op, Decidable (Readable seg op)
  | seg, .admission id size pid _ => inferInstanceAs
      (Decidable (-2 ^ 31 ≤ size ∧ size ≤ 2 ^ 30 ∧ id ≠ -1 ∧ 0 < pid ∧
        ∀ b ∈ entries seg.root, b.live → b.idFromFile ≠ id ∧ b.processPid ≠ pid))
  | _, .deallocation _ _ => isTrue trivial

abbrev ReaderStep : Segment → MemoryOp → Segment → Prop := Guarded Readable MemoryOp.apply

/-- The markers `process_pid`, `id_from_file` and `allocated` agree on every block. -/
def MarkersAgree (seg : Segment) : Prop :=
  ∀ b ∈ entries seg.root,
    (b.processPid ≠ -1 ↔ b.idFromFile ≠ -1) ∧ (b.idFromFile ≠ -1 ↔ b.allocated ≠ 0)

/-- Zero bytes are asked for only while no byte of the segment is free. -/
def ZeroOnlyWhenFull (seg : Segment) : MemoryOp → Prop
  | .admission _ size _ _ => size = 0 → ∀ y, 0 ≤ y → y < 1024 → Busy 0 seg.root y
  | .deallocation _ _ => True

theorem markersAgree_clean (h : MarkersAgree seg) : Clean seg.root := by
  intro b hb hlive
  obtain ⟨h1, h2⟩ := h b hb
  have hpid : b.processPid = -1 := not_not.mp hlive
  have hid : b.idFromFile = -1 := by
    by_contra hne
    exact hlive (h1.mpr hne)
  refine ⟨hpid, hid, ?_⟩
  by_contra hne
  exact h2.mpr hne hid

theorem markersAgree_blank {b : MemoryBlock} (h : b.Blank) :
    (b.processPid ≠ -1 ↔ b.idFromFile ≠ -1) ∧ (b.idFromFile ≠ -1 ↔ b.allocated ≠ 0) := by
  simp [h.1, h.2.1, h.2.2]

/-- A byte search succeeds exactly while some byte is free. -/
theorem byte_found_iff (hw : WellFormed seg) (hsize : size = 0) {res : Option ℕ}
    (h : findBlock seg size = some (seg₁, res)) :
    res ≠ none ↔ ∃ y, 0 ≤ y ∧ y < 1024 ∧ ¬ Busy 0 seg.root y := by
  obtain ⟨j, hj, -, hs⟩ := findBlock_some h
  subst hsize
  obtain rfl : j = 0 := by
    have : highestPowerOf2 0 = some 1 := rfl
    rw [this, Option.some.injEq] at hj
    exact (pow_right_injective₀ (by omega) (by omega) hj.symm : j = 0)
  obtain ⟨hfound, hnone⟩ := searches_first 0 hs hw.nonempty hw.shape (Or.inl rfl)
  constructor
  · intro hres
    obtain ⟨a, rfl⟩ := Option.ne_none_iff_exists'.mp hres
    obtain ⟨x, b, -, -, -, -, ⟨hslot, hfree, -⟩, -⟩ := hfound a rfl
    have hle := hslot.le (by omega)
    obtain ⟨_, _, hend⟩ := hslot
    exact ⟨x, hle, by omega, hfree⟩
  · rintro ⟨y, hy0, hy, hfree⟩ hres
    refine hnone hres y ⟨⟨y.toNat, by simp [hy0], by omega⟩, hfree, ?_⟩
    simpa using hfree

theorem markersAgree_refused (hm : MarkersAgree seg)
    (hfind : findBlock seg size = some (seg₁, none)) (hroot : seg'.root = seg₁.root) :
    MarkersAgree seg' := by
  obtain ⟨j, -, -, hs⟩ := findBlock_some hfind
  intro b hb
  rw [hroot] at hb
  rcases grows_entries (searches_grows hs) hb with hb | hb
  · exact hm b hb
  · exact markersAgree_blank hb

theorem markersAgree_granted (hm : MarkersAgree seg)
    (hfind : findBlock seg size = some (seg₁, some a)) (hsize : size ≠ 0) (hid : id ≠ -1)
    (hpid : pid ≠ -1)
    (hroot : seg'.root = update (·.isAt a) (MemoryBlock.hold id size pid) seg₁.root) :
    MarkersAgree seg' := by
  obtain ⟨j, -, -, hs⟩ := findBlock_some hfind
  intro b hb
  rw [hroot] at hb
  rcases written_or_kept hb with ⟨c, -, -, rfl⟩ | ⟨hb, -⟩
  · simp [MemoryBlock.hold, hid, hpid, hsize]
  · rcases grows_entries (searches_grows hs) hb with hb | hb
    · exact hm b hb
    · exact markersAgree_blank hb

theorem markersAgree_deallocation (hm : MarkersAgree seg) :
    MarkersAgree (deallocateMemory seg pid time).1 := by
  intro b hb
  rcases deallocateMemory_entries hb with ⟨hb, -⟩ | ⟨c, -, rfl⟩
  · exact hm b hb
  · exact markersAgree_blank ⟨rfl, rfl, rfl⟩

/-- The guard keeps the markers in agreement. -/
theorem markersAgree_step (hw : WellFormed seg) (hm : MarkersAgree seg)
    (hzero : ZeroOnlyWhenFull seg op) (h : ReaderStep seg op seg') :
    WellFormed seg' ∧ MarkersAgree seg' := by
  obtain ⟨hok, happ⟩ := h
  cases op with
  | deallocation pid time =>
    cases happ
    exact ⟨deallocateMemory_wellFormed hw, markersAgree_deallocation hm⟩
  | admission id size pid time =>
    obtain ⟨-, -, hid, hpid, hfresh⟩ := hok
    have hc := markersAgree_clean hm
    have hids : ∀ b ∈ entries seg.root, b.live → b.idFromFile ≠ id :=
      fun b hb hl => (hfresh b hb hl).1
    refine ⟨admitProcess_wellFormed hw happ, ?_⟩
    obtain ⟨seg₁, res, hfind, -, ⟨rfl, hroot⟩ | ⟨a, rfl, hroot⟩⟩ :=
      admitProcess_cases hw hc hid hids happ
    · exact markersAgree_refused hm hfind hroot
    · refine markersAgree_granted hm hfind ?_ hid (by omega) hroot
      intro hsize
      obtain ⟨y, hy0, hy, hfree⟩ := (byte_found_iff hw hsize hfind).mp (by simp)
      exact hfree (hzero hsize y hy0 hy)

/-- A granted request for no bytes leaves a held block with `allocated == 0`. -/
theorem markers_broken (hw : WellFormed seg) (hm : MarkersAgree seg)
    (hzero : ¬ ZeroOnlyWhenFull seg op) (h : ReaderStep seg op seg') : ¬ MarkersAgree seg' := by
  obtain ⟨hok, happ⟩ := h
  cases op with
  | deallocation pid time => exact absurd trivial hzero
  | admission id size pid time =>
    obtain ⟨-, -, hid, hpid, hfresh⟩ := hok
    simp only [ZeroOnlyWhenFull, not_forall] at hzero
    obtain ⟨hsize, y, hy0, hy, hfree⟩ := hzero
    have hids : ∀ b ∈ entries seg.root, b.live → b.idFromFile ≠ id :=
      fun b hb hl => (hfresh b hb hl).1
    obtain ⟨seg₁, res, hfind, -, ⟨rfl, -⟩ | ⟨a, rfl, hroot⟩⟩ :=
      admitProcess_cases hw (markersAgree_clean hm) hid hids happ
    · exact absurd rfl ((byte_found_iff hw hsize hfind).mpr ⟨y, hy0, hy, hfree⟩)
    obtain ⟨j, -, -, hs⟩ := findBlock_some hfind
    obtain ⟨b, hb, rfl, -⟩ := searches_found hs
    intro hagree
    have hheld : b.hold id size pid ∈ entries seg'.root := by
      rw [hroot, entries_update]
      exact List.mem_map.mpr ⟨b, hb, by simp [MemoryBlock.isAt]⟩
    exact (hagree _ hheld).2.mp hid hsize

/-- The three markers agree in every state of exactly the runs that ask for zero bytes only
while the segment is full. -/
theorem markersAgree_iff_zeroOnlyWhenFull (ops : List MemoryOp) :
    Always ReaderStep initialSegment ops MarkersAgree ↔
      Throughout ReaderStep initialSegment ops ZeroOnlyWhenFull := by
  have hinit : WellFormed initialSegment ∧ MarkersAgree initialSegment := by
    refine ⟨wellFormed_initial, ?_⟩
    intro b hb
    simp only [initializeMemorySegment, entries_node, entries_nil, List.append_nil,
      List.mem_singleton] at hb
    exact markersAgree_blank (hb ▸ blankBlock_blank)
  exact always_iff_throughout hinit (fun _ hs => hs.2)
    (fun _ _ _ hs hc hr => markersAgree_step hs.1 hs.2 hc hr)
    (fun _ _ _ hs hc hr => markers_broken hs.1 hs.2 hc hr)

/-- A process of no bytes gets a byte whose `allocated` says it is free. -/
theorem zeroBytes_markers_disagree :
    ¬ Always ReaderStep initialSegment [.admission 1 0 101 1] MarkersAgree := by
  intro h
  have hrun : ∃ seg, execute Readable MemoryOp.apply initialSegment [.admission 1 0 101 1] =
      some seg ∧ ∃ b ∈ entries seg.root, b.idFromFile ≠ -1 ∧ b.allocated = 0 :=
    ⟨_, rfl, by decide⟩
  obtain ⟨seg, hseg, b, hb, hid, hal⟩ := hrun
  exact (h _ seg (List.prefix_refl _) (trace_of_execute hseg) b hb).2.mp hid hal

end KernelSim
