import KernelSim.Memory.Completeness

/-! How a request is answered depends on the ranges of the live blocks only, but what a failed
request leaves in the tree can show when a block is released below which another one is live. -/
namespace KernelSim
open KeyedTree Dyadic Runs

/-- The address ranges of the live blocks. -/
def liveRanges (seg : Segment) : Set (ℤ × ℤ) :=
  { r | ∃ b ∈ entries seg.root, b.live ∧ r = getBlockAddress seg.root b.addr }

/-- Every request ends alike in both, at the same addresses. -/
def SameAnswers (seg seg' : Segment) : Prop :=
  ∀ id size time, outcome seg id size time = outcome seg' id size time

/-- Every request that the second grants is granted by the first, no higher up. -/
def NoWorse (seg seg' : Segment) : Prop :=
  ∀ id size time start stop, outcome seg' id size time = some (true, some (start, stop)) →
    ∃ start' stop', outcome seg id size time = some (true, some (start', stop')) ∧ start' ≤ start

/-- A failed request changes no answer, now or after any later operations. -/
def FailureHidden (seg : Segment) (after : List MemoryOp) : Prop :=
  ∀ id size time failed, allocateMemory seg id size time = some (failed, false) →
    ∀ pre t, pre <+: after → Trace MemoryStep seg pre t →
      ∃ t', Trace MemoryStep failed pre t' ∧ SameAnswers t' t

/-- The block released shares no byte with another live block. -/
def ReleasesClear (seg : Segment) : MemoryOp → Prop
  | .admission _ _ _ _ => True
  | .deallocation pid _ => ReleaseClear seg pid

/-- Two trees with the same live blocks, whatever else is in them. -/
structure Twin (seg seg' : Segment) : Prop where
  left : SegmentSound seg
  right : SegmentSound seg'
  same : liveBlocks seg = liveBlocks seg'

variable {seg seg' t t' failed : Segment} {op : MemoryOp} {id size pid time n x y : ℤ} {a : ℕ}
  {b c : MemoryBlock} {v : LiveBlock} {after : List MemoryOp}

theorem busy_iff_range (hw : WellFormed seg) : Busy 0 seg.root y ↔
    ∃ r ∈ liveRanges seg, r.1 ≤ y ∧ y ≤ r.2 := by
  rw [busy_iff hw]
  constructor
  · rintro ⟨b, hb, hlive, hy⟩
    exact ⟨_, ⟨b, hb, hlive, rfl⟩, hy⟩
  · rintro ⟨r, ⟨b, hb, hlive, rfl⟩, hy⟩
    exact ⟨b, hb, hlive, hy⟩

theorem liveRanges_subset (h : liveBlocks seg ⊆ liveBlocks seg') :
    liveRanges seg ⊆ liveRanges seg' := by
  rintro r ⟨b, hb, hlive, rfl⟩
  obtain ⟨c, hc, hlc, heq⟩ := h ⟨b, hb, hlive, rfl⟩
  exact ⟨c, hc, hlc, Prod.ext (congrArg LiveBlock.start heq) (congrArg LiveBlock.stop heq)⟩

theorem OpenSlot.mono (hsub : ∀ y, Busy 0 seg.root y → Busy 0 seg'.root y)
    (h : OpenSlot n 0 10 seg'.root x) : OpenSlot n 0 10 seg.root x :=
  ⟨h.1, mt (hsub _) h.2.1, mt (hsub _) h.2.2⟩

theorem FirstOpen.congr (hsame : ∀ y, Busy 0 seg.root y ↔ Busy 0 seg'.root y)
    (h : FirstOpen n 0 10 seg.root x) : FirstOpen n 0 10 seg'.root x :=
  ⟨h.1.mono fun y => (hsame y).mpr, fun z hz => h.2 z (hz.mono fun y => (hsame y).mp)⟩

theorem FirstOpen.unique {x' : ℤ} (h : FirstOpen n 0 10 seg.root x)
    (h' : FirstOpen n 0 10 seg.root x') : x = x' :=
  le_antisymm (h.2 _ h'.1) (h'.2 _ h.1)

/-- Fewer busy bytes serve a request at least as well. -/
theorem noWorse_of_busy (hw : WellFormed seg) (hc : Charged seg.root) (hw' : WellFormed seg')
    (hc' : Charged seg'.root) (hsub : ∀ y, Busy 0 seg.root y → Busy 0 seg'.root y) :
    NoWorse seg seg' := by
  intro id size time start stop heq
  obtain ⟨-, hnone⟩ | ⟨n, hn, ⟨x, hx, hsome⟩ | ⟨-, hfalse⟩⟩ := outcome_cases id size time hw' hc'
  · rw [hnone] at heq
    cases heq
  · obtain ⟨rfl, -⟩ : x = start ∧ x + n - 1 = stop := by simpa [hsome] using heq
    have hopen := hx.1.mono hsub
    obtain ⟨hround, -⟩ | ⟨m, hm, ⟨z, hz, hgranted⟩ | ⟨hfull, -⟩⟩ := outcome_cases id size time hw hc
    · rw [hround] at hn
      cases hn
    · obtain rfl : n = m := Option.some.inj (hn.symm.trans hm)
      exact ⟨z, _, hgranted, hz.2 x hopen⟩
    · obtain rfl : n = m := Option.some.inj (hn.symm.trans hm)
      exact absurd hopen (hfull x)
  · rw [hfalse] at heq
    cases heq

theorem sameAnswers_of_busy (hw : WellFormed seg) (hc : Charged seg.root) (hw' : WellFormed seg')
    (hc' : Charged seg'.root) (hsame : ∀ y, Busy 0 seg.root y ↔ Busy 0 seg'.root y) :
    SameAnswers seg seg' := by
  intro id size time
  obtain ⟨hnone, heq⟩ | ⟨n, hn, hres⟩ := outcome_cases id size time hw hc
  · obtain ⟨-, heq'⟩ | ⟨m, hm, -⟩ := outcome_cases id size time hw' hc'
    · rw [heq, heq']
    · rw [hnone] at hm
      cases hm
  obtain ⟨hnone, -⟩ | ⟨m, hm, hres'⟩ := outcome_cases id size time hw' hc'
  · rw [hnone] at hn
    cases hn
  obtain rfl : n = m := Option.some.inj (hn.symm.trans hm)
  rcases hres with ⟨x, hx, heq⟩ | ⟨hfull, heq⟩
  · rcases hres' with ⟨x', hx', heq'⟩ | ⟨hfull', -⟩
    · rw [heq, heq', (hx.congr hsame).unique hx']
    · exact absurd (hx.congr hsame).1 (hfull' x)
  · rcases hres' with ⟨x', hx', -⟩ | ⟨-, heq'⟩
    · exact absurd (hx'.congr fun y => (hsame y).symm).1 (hfull x')
    · rw [heq, heq']

theorem liveBlocks_congr (hw : WellFormed seg) (hw' : WellFormed seg')
    (h : lives 0 seg'.root = lives 0 seg.root) : liveBlocks seg' = liveBlocks seg := by
  ext v
  rw [mem_liveBlocks hw, mem_liveBlocks hw', h]

/-- A granted request adds the lowest open slot to the live blocks, a refused one adds nothing. -/
theorem liveBlocks_admission (hi : SegmentSound seg)
    (h : MemoryStep seg (.admission id size pid time) seg') :
    ∃ n, highestPowerOf2 size = some n ∧
      ((∃ x, FirstOpen n 0 10 seg.root x ∧ liveBlocks seg' = insert
          { start := x, stop := x + n - 1, size := n, allocated := size, idFromFile := id,
            processPid := pid } (liveBlocks seg)) ∨
        ((∀ y, ¬ OpenSlot n 0 10 seg.root y) ∧ liveBlocks seg' = liveBlocks seg)) := by
  have hw' := apply_wellFormed hi.wellFormed h.2
  obtain ⟨seg₁, res, hfind, ⟨rfl, hroot⟩ | ⟨a, rfl, hroot⟩⟩ := memoryStep_admission hi h
  · obtain ⟨j, hj, -, hs⟩ := findBlock_some hfind
    refine ⟨_, hj, Or.inr ⟨?_, ?_⟩⟩
    · exact (searches_first 0 hs hi.wellFormed.nonempty hi.wellFormed.shape
        (Or.inr hi.charged)).2 rfl
    · exact liveBlocks_congr hi.wellFormed hw' (hroot ▸ grows_lives 0 (searches_grows hs))
  · obtain ⟨n, x, b, hn, -, hsize, -, hfirst, -, hlives⟩ :=
      granted_lives hi.wellFormed hi.charged h.1.2.2.1 hfind hroot
    refine ⟨n, hn, Or.inl ⟨x, hfirst, ?_⟩⟩
    ext v
    rw [mem_liveBlocks hw', Set.mem_insert_iff, mem_liveBlocks hi.wellFormed]
    constructor
    · rintro ⟨q, hq, rfl⟩
      rcases (hlives q).mp hq with rfl | hq
      · exact Or.inl (by rw [← hsize]; rfl)
      · exact Or.inr ⟨q, hq, rfl⟩
    · rintro (rfl | ⟨q, hq, rfl⟩)
      · exact ⟨(x, b.hold id size pid), (hlives _).mpr (Or.inl rfl), by rw [← hsize]; rfl⟩
      · exact ⟨q, (hlives q).mpr (Or.inr hq), rfl⟩

namespace Twin

theorem symm (h : Twin seg seg') : Twin seg' seg := ⟨h.right, h.left, h.same.symm⟩

theorem busy (h : Twin seg seg') (y : ℤ) : Busy 0 seg.root y ↔ Busy 0 seg'.root y := by
  have hranges : liveRanges seg = liveRanges seg' :=
    (liveRanges_subset h.same.subset).antisymm (liveRanges_subset h.same.symm.subset)
  rw [busy_iff_range h.left.wellFormed, busy_iff_range h.right.wellFormed, hranges]

theorem sameAnswers (h : Twin seg seg') : SameAnswers seg seg' :=
  sameAnswers_of_busy h.left.wellFormed h.left.charged h.right.wellFormed h.right.charged h.busy

/-- A live block of the second is one of the first. -/
theorem held (h : Twin seg seg') (hb : b ∈ entries seg'.root) (hlive : b.live) :
    ∃ c ∈ entries seg.root, c.live ∧
      liveBlock (getBlockAddress seg'.root b.addr) b =
        liveBlock (getBlockAddress seg.root c.addr) c := by
  have hv : liveBlock (getBlockAddress seg'.root b.addr) b ∈ liveBlocks seg :=
    h.same ▸ ⟨b, hb, hlive, rfl⟩
  exact hv

theorem admissible (h : Twin seg seg') (hok : Admissible seg op) : Admissible seg' op := by
  cases op with
  | deallocation pid time => trivial
  | admission id size pid time =>
    obtain ⟨hone, hid, hpid, hfresh⟩ := hok
    refine ⟨hone, hid, hpid, ?_⟩
    intro b hb hlive
    obtain ⟨c, hc, hlc, heq⟩ := h.held hb hlive
    have hids : b.idFromFile = c.idFromFile := congrArg LiveBlock.idFromFile heq
    have hpids : b.processPid = c.processPid := congrArg LiveBlock.processPid heq
    rw [hids, hpids]
    exact hfresh c hc hlc

theorem releaseClear (h : Twin seg seg') (hclear : ReleaseClear seg pid) :
    ReleaseClear seg' pid := by
  intro b hb c hc hlb hlc hpid hne
  obtain ⟨b', hb', hlb', heq⟩ := h.held hb hlb
  obtain ⟨c', hc', hlc', heq'⟩ := h.held hc hlc
  have hpb : b.processPid = b'.processPid := congrArg LiveBlock.processPid heq
  have hpc : c.processPid = c'.processPid := congrArg LiveBlock.processPid heq'
  have hrange : ∀ {d d' : MemoryBlock},
      liveBlock (getBlockAddress seg'.root d.addr) d =
        liveBlock (getBlockAddress seg.root d'.addr) d' →
      addressRange seg' d = addressRange seg d' := by
    intro d d' heq
    have hstart : (getBlockAddress seg'.root d.addr).1 = (getBlockAddress seg.root d'.addr).1 :=
      congrArg LiveBlock.start heq
    have hstop : (getBlockAddress seg'.root d.addr).2 = (getBlockAddress seg.root d'.addr).2 :=
      congrArg LiveBlock.stop heq
    rw [addressRange, addressRange, hstart, hstop]
  have hne' : b'.addr ≠ c'.addr := by
    intro haddr
    have hbc := entry_unique h.left.wellFormed.nodup hb' hc' haddr
    exact hne (h.right.pids b hb c hc hlb hlc (by rw [hpb, hpc, hbc]))
  rw [hrange heq, hrange heq']
  exact hclear b' hb' c' hc' hlb' hlc' (hpb ▸ hpid) hne'

/-- The blocks of one pid in both are the same block. -/
theorem pid_unique (h : Twin seg seg') {w : LiveBlock} (hv : v ∈ liveBlocks seg)
    (hw : w ∈ liveBlocks seg') (heq : v.processPid = w.processPid) : v = w := by
  rw [← h.same] at hw
  obtain ⟨b, hb, hlb, rfl⟩ := hv
  obtain ⟨c, hc, hlc, rfl⟩ := hw
  have haddr := h.left.pids b hb c hc hlb hlc heq
  rw [entry_unique h.left.wellFormed.nodup hb hc haddr]

theorem admission (h : Twin seg seg') (hs : MemoryStep seg (.admission id size pid time) t) :
    ∃ t', MemoryStep seg' (.admission id size pid time) t' ∧ Twin t t' := by
  obtain ⟨n, hn, hres⟩ := liveBlocks_admission h.left hs
  obtain ⟨t', ht'⟩ := admitProcess_isSome id pid time h.right.wellFormed (highestPowerOf2_some hn).1
  have hs' : MemoryStep seg' (.admission id size pid time) t' := ⟨h.admissible hs.1, ht'⟩
  refine ⟨t', hs', segmentSound_step h.left hs, segmentSound_step h.right hs', ?_⟩
  obtain ⟨m, hm, hres'⟩ := liveBlocks_admission h.right hs'
  obtain rfl : n = m := Option.some.inj (hn.symm.trans hm)
  rcases hres with ⟨x, hx, heq⟩ | ⟨hfull, heq⟩
  · rcases hres' with ⟨x', hx', heq'⟩ | ⟨hfull', -⟩
    · rw [heq, heq', (hx.congr h.busy).unique hx', h.same]
    · exact absurd (hx.congr h.busy).1 (hfull' x)
  · rcases hres' with ⟨x', hx', -⟩ | ⟨-, heq'⟩
    · exact absurd (hx'.congr h.symm.busy).1 (hfull x')
    · rw [heq, heq', h.same]

theorem deallocation (h : Twin seg seg') (hclear : ReleaseClear seg pid) (time : ℤ) :
    Twin (deallocateMemory seg pid time).1 (deallocateMemory seg' pid time).1 := by
  refine ⟨segmentSound_deallocation h.left, segmentSound_deallocation h.right, ?_⟩
  obtain ⟨hnone, heq⟩ | ⟨a, ha, -⟩ := deallocateMemory_cases seg pid time
  · have hfree := notFound_for_release hnone
    obtain ⟨-, heq'⟩ | ⟨a', ha', -⟩ := deallocateMemory_cases seg' pid time
    · rw [heq, heq']
      exact h.same
    · obtain ⟨b, hb, -, hlive, hpid⟩ := found_for_release ha'
      obtain ⟨c, hc, hlc, hview⟩ := h.held hb hlive
      have hpids : b.processPid = c.processPid := congrArg LiveBlock.processPid hview
      exact absurd (hpids.symm.trans hpid) (hfree _ ⟨c, hc, hlc, rfl⟩)
  · obtain ⟨v, hv, hvp, hset⟩ := liveBlocks_released time h.left.wellFormed h.left.charged
      h.left.pids hclear ha
    obtain ⟨hnone', -⟩ | ⟨a', ha', -⟩ := deallocateMemory_cases seg' pid time
    · exact absurd hvp (notFound_for_release hnone' v (h.same ▸ hv))
    · obtain ⟨w, hw, hwp, hset'⟩ := liveBlocks_released time h.right.wellFormed h.right.charged
        h.right.pids (h.releaseClear hclear) ha'
      rw [hset, hset', h.pid_unique hv hw (hvp.trans hwp.symm), h.same]

theorem step (h : Twin seg seg') (hclear : ReleasesClear seg op) (hs : MemoryStep seg op t) :
    ∃ t', MemoryStep seg' op t' ∧ Twin t t' := by
  cases op with
  | admission id size pid time => exact h.admission hs
  | deallocation pid time =>
    obtain rfl := Option.some.inj hs.2
    exact ⟨_, ⟨trivial, rfl⟩, h.deallocation hclear time⟩

end Twin

/-- A failed request leaves the live blocks as they are. -/
theorem twin_failed (hi : SegmentSound seg)
    (h : allocateMemory seg id size time = some (failed, false)) : Twin seg failed := by
  have hw := allocateMemory_wellFormed hi.wellFormed h
  obtain ⟨seg₁, res, hfind, ⟨rfl, -, rfl⟩ | ⟨a, -, hfalse, -⟩⟩ :=
    allocateMemory_search hi.wellFormed h
  · obtain ⟨j, -, -, hs⟩ := findBlock_some hfind
    exact ⟨hi, segmentSound_refused hi hw hfind rfl,
      (liveBlocks_congr hi.wellFormed hw (grows_lives 0 (searches_grows hs))).symm⟩
  · cases hfalse

theorem failureHidden_of_clear (hi : SegmentSound seg)
    (hclear : Throughout MemoryStep seg after ReleasesClear) : FailureHidden seg after := by
  intro id size time failed hfail pre t hpre ht
  obtain ⟨t', ht', htwin⟩ := ht.simulate (hclear.of_prefix hpre)
    (fun _ _ _ _ hrel hC hs => hrel.step hC hs) (twin_failed hi hfail)
  exact ⟨t', ht', htwin.symm.sameAnswers⟩

/-- The live ranges decide every answer, fewer of them answer no worse, and a failed request is
hidden for as long as no block is released while it overlaps another. -/
theorem answers_by_liveRanges (seg seg' : Segment) (after : List MemoryOp) :
    (Reachable AnyStep initialSegment seg → Reachable AnyStep initialSegment seg' →
      Charged seg.root → Charged seg'.root → liveRanges seg = liveRanges seg' →
      SameAnswers seg seg') ∧
    (Reachable AnyStep initialSegment seg → Reachable AnyStep initialSegment seg' →
      Charged seg.root → Charged seg'.root → liveRanges seg ⊆ liveRanges seg' →
      NoWorse seg seg') ∧
    (Reachable MemoryStep initialSegment seg → Throughout MemoryStep seg after ReleasesClear →
      FailureHidden seg after) := by
  refine ⟨?_, ?_, ?_⟩
  · intro hr hr' hc hc' heq
    have hw := wellFormed_reachable hr
    have hw' := wellFormed_reachable hr'
    refine sameAnswers_of_busy hw hc hw' hc' fun y => ?_
    rw [busy_iff_range hw, busy_iff_range hw', heq]
  · intro hr hr' hc hc' hsub
    have hw := wellFormed_reachable hr
    have hw' := wellFormed_reachable hr'
    refine noWorse_of_busy hw hc hw' hc' fun y hy => ?_
    obtain ⟨r, hmem, hin⟩ := (busy_iff_range hw).mp hy
    exact (busy_iff_range hw').mpr ⟨r, hsub hmem, hin⟩
  · intro hr hclear
    exact failureHidden_of_clear
      (hr.invariant (fun _ _ _ hi hs => segmentSound_step hi hs) segmentSound_initial) hclear

theorem mem_liveRanges {r : ℤ × ℤ} : r ∈ liveRanges seg ↔
    r ∈ ((entries seg.root).filter (·.live)).map (getBlockAddress seg.root ·.addr) := by
  rw [List.mem_map]
  constructor
  · rintro ⟨b, hb, hlive, rfl⟩
    exact ⟨b, List.mem_filter.mpr ⟨hb, decide_eq_true hlive⟩, rfl⟩
  · rintro ⟨b, hin, rfl⟩
    obtain ⟨hb, hlive⟩ := List.mem_filter.mp hin
    exact ⟨b, hb, of_decide_eq_true hlive, rfl⟩

/-- A process that has ended leaves nodes behind, and no request tells the difference. -/
theorem answers_by_liveRanges_leftovers : ∃ seg seg',
    execute Admissible MemoryOp.apply initialSegment [.admission 1 256 101 0] = some seg ∧
    execute Admissible MemoryOp.apply initialSegment
      [.admission 1 256 101 0, .admission 2 64 102 1, .deallocation 102 2] = some seg' ∧
    (entries seg.root).length < (entries seg'.root).length ∧
    SameAnswers seg seg' ∧ NoWorse initialSegment seg' ∧
    FailureHidden seg' [.deallocation 101 3] := by
  obtain ⟨seg, seg', hseg, hseg', hlen, hcharged, hcharged', hsame, hsingle⟩ : ∃ seg seg',
      execute Admissible MemoryOp.apply initialSegment [.admission 1 256 101 0] = some seg ∧
      execute Admissible MemoryOp.apply initialSegment
        [.admission 1 256 101 0, .admission 2 64 102 1, .deallocation 102 2] = some seg' ∧
      (entries seg.root).length < (entries seg'.root).length ∧
      (∀ b ∈ entries seg.root, b.live → 1 ≤ b.allocated) ∧
      (∀ b ∈ entries seg'.root, b.live → 1 ≤ b.allocated) ∧
      (((entries seg.root).filter (·.live)).map (getBlockAddress seg.root ·.addr)) =
        (((entries seg'.root).filter (·.live)).map (getBlockAddress seg'.root ·.addr)) ∧
      ∀ b ∈ entries seg'.root, ∀ c ∈ entries seg'.root, b.live → c.live → b.addr = c.addr :=
    ⟨_, _, rfl, rfl, by decide +kernel⟩
  have hrun := trace_of_execute hseg
  have hrun' := trace_of_execute hseg'
  have hreach : Reachable AnyStep initialSegment seg := ⟨_, hrun.mono fun _ _ _ h => ⟨trivial, h.2⟩⟩
  have hreach' : Reachable AnyStep initialSegment seg' :=
    ⟨_, hrun'.mono fun _ _ _ h => ⟨trivial, h.2⟩⟩
  have hranges : liveRanges seg = liveRanges seg' := by
    ext r
    rw [mem_liveRanges, mem_liveRanges, hsame]
  have hnone : Charged initialSegment.root ∧ liveRanges initialSegment ⊆ liveRanges seg' := by
    refine ⟨(by decide : ∀ b ∈ entries initialSegment.root, b.live → 1 ≤ b.allocated), ?_⟩
    rintro r ⟨b, hb, hlive, -⟩
    exact absurd hlive ((by decide : ∀ b ∈ entries initialSegment.root, ¬ b.live) b hb)
  refine ⟨seg, seg', hseg, hseg', hlen, ?_, ?_, ?_⟩
  · exact (answers_by_liveRanges seg seg' []).1 hreach hreach' hcharged hcharged' hranges
  · exact (answers_by_liveRanges initialSegment seg' []).2.1 .refl hreach' hnone.1 hcharged' hnone.2
  · refine (answers_by_liveRanges seg' seg' _).2.2 ⟨_, hrun'⟩ (throughout_cons ?_ fun _ _ =>
      throughout_nil)
    exact fun b hb c hc hlb hlc _ hne => absurd (hsingle b hb c hc hlb hlc) hne

/-- The release of the overlapping block drops the hidden one only where a failed request for the
whole segment has made the buddy it merges with. -/
theorem failure_not_hidden : ¬ ∀ seg after, Reachable MemoryStep initialSegment seg →
    FailureHidden seg after := by
  intro h
  have hrun : ∃ seg, execute Admissible MemoryOp.apply initialSegment hiddenBlockRun = some seg ∧
      ∃ failed, allocateMemory seg 4 1024 4 = some (failed, false) ∧
      ∃ t, execute Admissible MemoryOp.apply seg
        [.deallocation 103 5, .admission 5 128 105 6] = some t ∧
      ∃ t', execute Admissible MemoryOp.apply failed
        [.deallocation 103 5, .admission 5 128 105 6] = some t' ∧
      outcome t 6 128 7 = some (true, some (256, 383)) ∧
      outcome t' 6 128 7 = some (true, some (128, 255)) :=
    ⟨_, rfl, _, rfl, _, rfl, _, rfl, by decide +kernel, by decide +kernel⟩
  obtain ⟨seg, hseg, failed, hfail, t, ht, t', ht', ho, ho'⟩ := hrun
  obtain ⟨u, hu, hsame⟩ := h seg _ ⟨_, trace_of_execute hseg⟩ 4 1024 4 failed hfail _ t
    (List.prefix_refl _) (trace_of_execute ht)
  obtain rfl := hu.unique (trace_of_execute ht')
  have := hsame 6 128 7
  rw [ho, ho'] at this
  cases this

end KernelSim
