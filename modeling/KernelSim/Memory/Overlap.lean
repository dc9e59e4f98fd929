import KernelSim.Memory.Operations
import Mathlib.Data.Int.ConditionallyCompleteOrder
import Mathlib.Order.CompletePartialOrder
import Mathlib.Order.Interval.Set.Disjoint

/-! When two processes are given overlapping memory. -/
namespace KernelSim
open KeyedTree Dyadic Runs

variable {seg seg' seg₁ : Segment} {op : MemoryOp} {x y size : ℤ} {b c : MemoryBlock} {a : ℕ}

/-- Requests for at least a byte, under an id and a pid that no live block holds. -/
def Admissible (seg : Segment) : MemoryOp → Prop
  | .admission id size pid _ => 1 ≤ size ∧ id ≠ -1 ∧ 0 < pid ∧
      ∀ b ∈ entries seg.root, b.live → b.idFromFile ≠ id ∧ b.processPid ≠ pid
  | .deallocation _ _ => True

instance : ∀ seg op, Decidable (Admissible seg op)
  | seg, .admission id size pid _ => inferInstanceAs
      (Decidable (1 ≤ size ∧ id ≠ -1 ∧ 0 < pid ∧
        ∀ b ∈ entries seg.root, b.live → b.idFromFile ≠ id ∧ b.processPid ≠ pid))
  | _, .deallocation _ _ => isTrue trivial

/-- The steps of the memory manager under such requests. -/
abbrev MemoryStep : Segment → MemoryOp → Segment → Prop := Guarded Admissible MemoryOp.apply

/-- `TOTAL_MEMORY_SIZE` bytes, all free. -/
abbrev initialSegment : Segment := initializeMemorySegment 1024 0

/-- The address range of a block, as the source computes it. -/
def addressRange (seg : Segment) (b : MemoryBlock) : Set ℤ :=
  Set.Icc (getBlockAddress seg.root b.addr).1 (getBlockAddress seg.root b.addr).2

def NoOverlap (seg : Segment) : Prop :=
  ∀ b ∈ entries seg.root, ∀ c ∈ entries seg.root, b.live → c.live → b.addr ≠ c.addr →
    Disjoint (addressRange seg b) (addressRange seg c)

/-- The search of an admission hands out no block with a live block above or below it. -/
def HandsOutClear (seg : Segment) : MemoryOp → Prop
  | .admission _ size _ _ => ∀ seg₁ a, findBlock seg size = some (seg₁, some a) →
      ∀ c ∈ entries seg₁.root, c.live → c.addr ≠ a →
        isInSubtree (subtree (·.isAt a) seg₁.root) c.addr = false ∧
        isInSubtree (subtree (·.isAt c.addr) seg₁.root) a = false
  | .deallocation _ _ => True

/-- In the lowest range of the rounded size whose two end bytes are free, every byte is free. -/
def EndsSuffice (seg : Segment) : MemoryOp → Prop
  | .admission _ size _ _ => ∀ n x, highestPowerOf2 size = some n →
      FirstOpen n 0 10 seg.root x → ∀ y, x ≤ y → y < x + n → ¬ Busy 0 seg.root y
  | .deallocation _ _ => True

/-- Live blocks with their ranges apart, as placed in the tree. -/
def Apart (t : MemoryTree) : Prop :=
  ∀ q ∈ lives 0 t, ∀ q' ∈ lives 0 t, q.2.addr ≠ q'.2.addr →
    q.1 + q.2.size ≤ q'.1 ∨ q'.1 + q'.2.size ≤ q.1

/-- What holds of the segment whether or not live ranges overlap. -/
structure SegmentSound (seg : Segment) : Prop where
  wellFormed : WellFormed seg
  clean : Clean seg.root
  charged : Charged seg.root
  pids : ∀ b ∈ entries seg.root, ∀ c ∈ entries seg.root, b.live → c.live →
    b.processPid = c.processPid → b.addr = c.addr

structure SegmentInv (seg : Segment) : Prop extends SegmentSound seg where
  apart : Apart seg.root

theorem segmentSound_initial : SegmentSound initialSegment := by
  have hblank : ∀ b ∈ entries initialSegment.root, b.Blank := by
    intro b hb
    simp only [initializeMemorySegment, entries_node, entries_nil, List.append_nil,
      List.mem_singleton] at hb
    exact hb ▸ blankBlock_blank
  exact ⟨wellFormed_initial, fun b hb _ => hblank b hb,
    fun b hb hlive => absurd (hblank b hb).1 hlive,
    fun b hb _ _ hlive => absurd (hblank b hb).1 hlive⟩

theorem segmentInv_initial : SegmentInv initialSegment where
  toSegmentSound := segmentSound_initial
  apart := by
    have : lives 0 initialSegment.root = [] := rfl
    simp [Apart, this]

theorem addressRange_eq (hw : WellFormed seg) (hb : (x, b) ∈ placed 0 seg.root) :
    addressRange seg b = Set.Icc x (x + b.size - 1) := by
  rw [addressRange, getBlockAddress_eq hw.shape hw.nodup hb]

theorem noOverlap_iff_apart (hw : WellFormed seg) : NoOverlap seg ↔ Apart seg.root := by
  have hrange : ∀ {q : ℤ × MemoryBlock}, q ∈ lives 0 seg.root → 0 < q.2.size :=
    fun hq => (placed_range hw.shape (mem_lives.mp hq).1).2.2
  constructor
  · intro h q hq q' hq' hne
    have hd := h q.2 (entries_of_placed (mem_lives.mp hq).1) q'.2
      (entries_of_placed (mem_lives.mp hq').1) (mem_lives.mp hq).2 (mem_lives.mp hq').2 hne
    rw [addressRange_eq hw (mem_lives.mp hq).1, addressRange_eq hw (mem_lives.mp hq').1,
      Set.disjoint_left] at hd
    have hpos := hrange hq
    have hpos' := hrange hq'
    by_contra hcross
    rcases le_total q.1 q'.1 with hle | hle
    · exact @hd q'.1 ⟨by omega, by omega⟩ ⟨by omega, by omega⟩
    · exact @hd q.1 ⟨by omega, by omega⟩ ⟨by omega, by omega⟩
  · intro h b hb c hc hlb hlc hne
    obtain ⟨x, hx⟩ := placed_of_entries 0 hb
    obtain ⟨y, hy⟩ := placed_of_entries 0 hc
    rw [addressRange_eq hw hx, addressRange_eq hw hy, Set.disjoint_left]
    rintro z ⟨hz1, hz2⟩ ⟨hz3, hz4⟩
    have := h (x, b) (mem_lives.mpr ⟨hx, hlb⟩) (y, c) (mem_lives.mpr ⟨hy, hlc⟩) hne
    dsimp only at this
    omega

/-- The found block, where it sits and why it was chosen. -/
theorem findBlock_first (hw : WellFormed seg) (hc : Charged seg.root)
    (h : findBlock seg size = some (seg₁, some a)) :
    ∃ (n x : ℤ) (b : MemoryBlock), highestPowerOf2 size = some n ∧ size ≤ n ∧ (x, b) ∈ placed 0 seg₁.root ∧
      b.addr = a ∧ b.size = n ∧ ¬ b.live ∧ FirstOpen n 0 10 seg.root x := by
  obtain ⟨j, hj, -, hs⟩ := findBlock_some h
  obtain ⟨hfound, -⟩ := searches_first 0 hs hw.nonempty hw.shape (Or.inr hc)
  obtain ⟨x, b, hb⟩ := hfound a rfl
  obtain ⟨-, i, hi, hle, -⟩ := highestPowerOf2_some hj
  exact ⟨2 ^ j, x, b, hj, hi ▸ hle, hb⟩

/-- What an admission does when its search succeeds. -/
theorem granted_lives {id pid : ℤ} (hw : WellFormed seg) (hc : Charged seg.root)
    (hpid : 0 < pid) (hfind : findBlock seg size = some (seg₁, some a))
    (hroot : seg'.root = update (·.isAt a) (MemoryBlock.hold id size pid) seg₁.root) :
    ∃ (n x : ℤ) (b : MemoryBlock), highestPowerOf2 size = some n ∧ size ≤ n ∧ b.size = n ∧ b.addr = a ∧
      FirstOpen n 0 10 seg.root x ∧ (∀ q ∈ lives 0 seg.root, q.2.addr ≠ a) ∧
      ∀ q, q ∈ lives 0 seg'.root ↔ q = (x, b.hold id size pid) ∨ q ∈ lives 0 seg.root := by
  obtain ⟨n, x, b, hn, hle, hb, rfl, hsize, hlive, hfirst⟩ := findBlock_first hw hc hfind
  obtain ⟨j, -, -, hs⟩ := findBlock_some hfind
  have hw₁ := findBlock_wellFormed hw hfind
  have hlives := grows_lives 0 (searches_grows hs)
  refine ⟨n, x, b, hn, hle, hsize, rfl, hfirst, ?_, ?_⟩
  · intro q hq he
    rw [← hlives, mem_lives] at hq
    have := entry_unique hw₁.nodup (entries_of_placed hq.1) (entries_of_placed hb) he
    exact hlive (this ▸ hq.2)
  · intro q
    rw [hroot, mem_lives_hold hw₁.nodup hb hlive (by omega), hlives]

theorem segmentSound_deallocation {pid time : ℤ} (hi : SegmentSound seg) :
    SegmentSound (deallocateMemory seg pid time).1 := by
  have hold : ∀ b ∈ entries (deallocateMemory seg pid time).1.root, b.live →
      b ∈ entries seg.root := by
    intro b hb hlive
    rcases deallocateMemory_entries hb with ⟨hb, -⟩ | ⟨c, -, rfl⟩
    · exact hb
    · exact absurd rfl hlive
  refine ⟨deallocateMemory_wellFormed hi.wellFormed, ?_, ?_, ?_⟩
  · intro b hb hlive
    rcases deallocateMemory_entries hb with ⟨hb, -⟩ | ⟨c, -, rfl⟩
    · exact hi.clean b hb hlive
    · exact ⟨rfl, rfl, rfl⟩
  · exact fun b hb hlive => hi.charged b (hold b hb hlive) hlive
  · exact fun b hb c hc hlb hlc => hi.pids b (hold b hb hlb) c (hold c hc hlc) hlb hlc

theorem segmentSound_refused (hi : SegmentSound seg) (hw : WellFormed seg')
    (hfind : findBlock seg size = some (seg₁, none)) (hroot : seg'.root = seg₁.root) :
    SegmentSound seg' := by
  obtain ⟨j, -, -, hs⟩ := findBlock_some hfind
  have hg := searches_grows hs
  have hold : ∀ b ∈ entries seg'.root, b.live → b ∈ entries seg.root := by
    intro b hb hlive
    rw [hroot] at hb
    rcases grows_entries hg hb with hb | hb
    · exact hb
    · exact absurd hb.1 hlive
  refine ⟨hw, ?_, ?_, ?_⟩
  · rw [hroot]
    exact grows_clean hg hi.clean
  · exact fun b hb hlive => hi.charged b (hold b hb hlive) hlive
  · exact fun b hb c hc hlb hlc => hi.pids b (hold b hb hlb) c (hold c hc hlc) hlb hlc

theorem segmentSound_granted {id pid time : ℤ} (hi : SegmentSound seg) (hw : WellFormed seg')
    (hok : Admissible seg (.admission id size pid time))
    (hfind : findBlock seg size = some (seg₁, some a))
    (hroot : seg'.root = update (·.isAt a) (MemoryBlock.hold id size pid) seg₁.root) :
    SegmentSound seg' := by
  obtain ⟨hone, -, hpid, hfresh⟩ := hok
  obtain ⟨j, -, -, hs⟩ := findBlock_some hfind
  have hg := searches_grows hs
  have hw₁ := findBlock_wellFormed hi.wellFormed hfind
  have hentries : ∀ c ∈ entries seg'.root, (∃ d ∈ entries seg₁.root, d.addr = a ∧
      c = MemoryBlock.hold id size pid d) ∨ (c ∈ entries seg₁.root ∧ c.addr ≠ a) :=
    fun c hc => written_or_kept (hroot ▸ hc)
  have hold : ∀ c ∈ entries seg₁.root, c.live → c ∈ entries seg.root := by
    intro c hc hlive
    rcases grows_entries hg hc with hc | hc
    · exact hc
    · exact absurd hc.1 hlive
  refine ⟨hw, ?_, ?_, ?_⟩
  · intro c hc hlive
    rcases hentries c hc with ⟨d, -, -, rfl⟩ | ⟨hc, -⟩
    · exact absurd (show pid ≠ -1 by omega) hlive
    · exact grows_clean hg hi.clean c hc hlive
  · intro c hc hlive
    rcases hentries c hc with ⟨d, -, -, rfl⟩ | ⟨hc, -⟩
    · exact hone
    · exact hi.charged c (hold c hc hlive) hlive
  · intro b hb c hc hlb hlc heq
    rcases hentries b hb with ⟨d, hd, hda, rfl⟩ | ⟨hb, -⟩
    · rcases hentries c hc with ⟨e, he, hea, rfl⟩ | ⟨hc, -⟩
      · exact hda.trans hea.symm
      · exact absurd heq.symm (hfresh c (hold c hc hlc) hlc).2
    · rcases hentries c hc with ⟨e, he, hea, rfl⟩ | ⟨hc, -⟩
      · exact absurd heq (hfresh b (hold b hb hlb) hlb).2
      · exact hi.pids b (hold b hb hlb) c (hold c hc hlc) hlb hlc heq

/-- A step of an admission, the search having answered. -/
theorem memoryStep_admission {id pid time : ℤ} (hi : SegmentSound seg)
    (h : MemoryStep seg (.admission id size pid time) seg') :
    ∃ seg₁ res, findBlock seg size = some (seg₁, res) ∧
      ((res = none ∧ seg'.root = seg₁.root) ∨
        ∃ a, res = some a ∧
          seg'.root = update (·.isAt a) (MemoryBlock.hold id size pid) seg₁.root) := by
  obtain ⟨⟨-, hid, -, hfresh⟩, happ⟩ := h
  obtain ⟨seg₁, res, hfind, -, hres⟩ := admitProcess_cases hi.wellFormed hi.clean hid
    (fun b hb hl => (hfresh b hb hl).1) happ
  exact ⟨seg₁, res, hfind, hres⟩

/-- A step under the memory manager's contract keeps the segment sound. -/
theorem segmentSound_step (hi : SegmentSound seg) (h : MemoryStep seg op seg') :
    SegmentSound seg' := by
  have hw' := apply_wellFormed hi.wellFormed h.2
  cases op with
  | deallocation pid time =>
    obtain rfl := Option.some.inj h.2
    exact segmentSound_deallocation hi
  | admission id size pid time =>
    obtain ⟨seg₁, res, hfind, ⟨rfl, hroot⟩ | ⟨a, rfl, hroot⟩⟩ := memoryStep_admission hi h
    · exact segmentSound_refused hi hw' hfind hroot
    · exact segmentSound_granted hi hw' h.1 hfind hroot

/-- A step under the guard keeps the live ranges apart. -/
theorem segmentInv_step (hi : SegmentInv seg) (hends : EndsSuffice seg op)
    (h : MemoryStep seg op seg') : SegmentInv seg' := by
  refine ⟨segmentSound_step hi.toSegmentSound h, ?_⟩
  cases op with
  | deallocation pid time =>
    obtain rfl := Option.some.inj h.2
    exact fun q hq q' hq' =>
      hi.apart q (deallocateMemory_lives hq) q' (deallocateMemory_lives hq')
  | admission id size pid time =>
    obtain ⟨seg₁, res, hfind, ⟨rfl, hroot⟩ | ⟨a, rfl, hroot⟩⟩ :=
      memoryStep_admission hi.toSegmentSound h
    · obtain ⟨j, -, -, hs⟩ := findBlock_some hfind
      rw [Apart, hroot, grows_lives 0 (searches_grows hs)]
      exact hi.apart
    obtain ⟨n, x, b, hn, hle, hsize, hba, hfirst, hfree, hlives⟩ :=
      granted_lives hi.wellFormed hi.charged h.1.2.2.1 hfind hroot
    have hone : 1 ≤ size := h.1.1
    have hclear := hends n x hn hfirst
    -- a live range that met the new one would make a byte of it busy
    have hnew : ∀ q ∈ lives 0 seg.root, q.1 + q.2.size ≤ x ∨ x + n ≤ q.1 := by
      intro q hq
      have hq0 := (placed_range hi.wellFormed.shape (mem_lives.mp hq).1).2.2
      by_contra hcross
      rcases le_total x q.1 with hle | hle
      · exact hclear q.1 hle (by omega) ⟨q, hq, le_refl _, by omega⟩
      · exact hclear x (le_refl _) (by omega) ⟨q, hq, hle, by omega⟩
    have hheld : (b.hold id size pid).size = n := hsize
    intro q hq q' hq' hne
    rcases (hlives q).mp hq with rfl | hq <;> rcases (hlives q').mp hq' with rfl | hq'
    · exact absurd rfl hne
    · have := hnew q' hq'
      dsimp only
      omega
    · have := hnew q hq
      dsimp only
      omega
    · exact hi.apart q hq q' hq' hne

/-- Without the guard the admission takes a range that a live block already has a part of. -/
theorem overlap_of_not_endsSuffice (hi : SegmentInv seg) (hends : ¬ EndsSuffice seg op)
    (h : MemoryStep seg op seg') : ¬ NoOverlap seg' := by
  have hw' := apply_wellFormed hi.wellFormed h.2
  cases op with
  | deallocation pid time => exact absurd trivial hends
  | admission id size pid time =>
    simp only [EndsSuffice, not_forall, not_not] at hends
    obtain ⟨n, x, hn, hfirst, y, hxy, hyn, hbusy⟩ := hends
    obtain ⟨seg₁, res, hfind, ⟨rfl, hroot⟩ | ⟨a, rfl, hroot⟩⟩ :=
      memoryStep_admission hi.toSegmentSound h
    · obtain ⟨j, hj, -, hs⟩ := findBlock_some hfind
      rw [hn, Option.some.injEq] at hj
      subst hj
      exact absurd hfirst.1
        ((searches_first 0 hs hi.wellFormed.nonempty hi.wellFormed.shape (Or.inr hi.charged)).2
          rfl x)
    obtain ⟨n', x', b, hn', -, hsize, hba, hfirst', hfree, hlives⟩ :=
      granted_lives hi.wellFormed hi.charged h.1.2.2.1 hfind hroot
    rw [hn, Option.some.injEq] at hn'
    subst hn'
    have hx : x = x' := le_antisymm (hfirst.2 _ hfirst'.1) (hfirst'.2 _ hfirst.1)
    subst hx
    obtain ⟨q, hq, hqy⟩ := hbusy
    rw [noOverlap_iff_apart hw']
    intro hapart
    have := hapart _ ((hlives (x, b.hold id size pid)).mpr (Or.inl rfl)) q
      ((hlives q).mpr (Or.inr hq)) (hba.trans_ne (hfree q hq).symm)
    have hheld : (b.hold id size pid).size = n := hsize
    dsimp only at this
    omega

theorem handsOutClear_of_endsSuffice (hi : SegmentInv seg) (hends : EndsSuffice seg op) :
    HandsOutClear seg op := by
  cases op with
  | deallocation pid time => trivial
  | admission id size pid time =>
    intro seg₁ a hfind c hc hlive hne
    obtain ⟨n, x, b, hn, -, hb, rfl, hsize, -, hfirst⟩ :=
      findBlock_first hi.wellFormed hi.charged hfind
    obtain ⟨j, -, -, hs⟩ := findBlock_some hfind
    have hw₁ := findBlock_wellFormed hi.wellFormed hfind
    have hclear := hends n x hn hfirst
    obtain ⟨y, hy⟩ := placed_of_entries 0 hc
    have hyl : (y, c) ∈ lives 0 seg.root := by
      rw [← grows_lives 0 (searches_grows hs), mem_lives]
      exact ⟨hy, hlive⟩
    have hb0 := (placed_range hw₁.shape hb).2.2
    have hc0 := (placed_range hw₁.shape hy).2.2
    constructor
    · by_contra hin
      have := range_of_isInSubtree hw₁.nodup hw₁.shape hb hy (by simpa using hin)
      exact hclear y (by omega) (by omega) ⟨(y, c), hyl, le_refl _, by simpa using hc0⟩
    · by_contra hin
      have := range_of_isInSubtree hw₁.nodup hw₁.shape hy hb (by simpa using hin)
      exact hclear x (le_refl _) (by omega) ⟨(y, c), hyl, by simp; omega, by simp; omega⟩

/-- The memory manager keeps processes apart on exactly the runs whose every admission finds
the lowest range with free ends free throughout; then no search hands out a block with a live
one above or below it. -/
theorem noOverlap_iff_endsSuffice (ops : List MemoryOp) :
    (Always MemoryStep initialSegment ops NoOverlap ∧
      ∀ pre op, pre ++ [op] <+: ops → ∀ seg, Trace MemoryStep initialSegment pre seg →
        (∃ seg', MemoryStep seg op seg') → HandsOutClear seg op) ↔
    Throughout MemoryStep initialSegment ops EndsSuffice := by
  have hiff : Always MemoryStep initialSegment ops NoOverlap ↔
      Throughout MemoryStep initialSegment ops EndsSuffice :=
    always_iff_throughout segmentInv_initial
      (fun _ hs => (noOverlap_iff_apart hs.wellFormed).mpr hs.apart)
      (fun _ _ _ hs hc hr => segmentInv_step hs hc hr)
      (fun _ _ _ hs hc hr => overlap_of_not_endsSuffice hs hc hr)
  constructor
  · exact fun h => hiff.mp h.1
  · intro h
    refine ⟨hiff.mpr h, ?_⟩
    rintro pre op hpre seg htrace ⟨seg', hstep⟩
    have hinv := htrace.invariant_of_throughout
      (h.of_prefix ((List.prefix_append pre [op]).trans hpre))
      (fun s a t hs hc hr => segmentInv_step hs hc hr) segmentInv_initial
    exact handsOutClear_of_endsSuffice hinv (h pre op seg seg' hpre htrace hstep)

/-- A block of 128 bytes freed beside a live one, then a request for the 512 above both. -/
def hiddenBlockRun : List MemoryOp :=
  [.admission 1 128 101 1, .admission 2 128 102 1, .deallocation 101 2, .admission 3 512 103 3]

theorem hiddenBlockRun_overlaps :
    ¬ Always MemoryStep initialSegment hiddenBlockRun NoOverlap := by
  intro h
  have hrun : ∃ seg, execute Admissible MemoryOp.apply initialSegment hiddenBlockRun = some seg ∧
      ∃ b ∈ entries seg.root, ∃ c ∈ entries seg.root, b.live ∧ c.live ∧ b.addr ≠ c.addr ∧
        getBlockAddress seg.root b.addr = (0, 511) ∧
        getBlockAddress seg.root c.addr = (128, 255) :=
    ⟨_, rfl, by decide⟩
  obtain ⟨seg, hseg, b, hb, c, hc, hlb, hlc, hne, hrb, hrc⟩ := hrun
  have hd := h hiddenBlockRun seg (List.prefix_refl _) (trace_of_execute hseg) b hb c hc hlb hlc hne
  rw [addressRange, addressRange, hrb, hrc, Set.disjoint_left] at hd
  exact @hd 128 ⟨by decide, by decide⟩ ⟨by decide, by decide⟩

end KernelSim
