import KernelSim.Generator.Reaping
import KernelSim.Memory.Completeness
import KernelSim.Memory.Refusal
import Mathlib.Order.Interval.Finset.Defs
import Mathlib.Data.Int.Interval
import Mathlib.Data.Finset.Card

/-! Every child has a byte of the segment to itself, the first one of its block, so there are never
more children than bytes. -/
namespace KernelSim
open KeyedTree Runs

/-- Requests are for a byte at least. -/
def AsksForBytes : GeneratorAct → Prop
  | .search _ size _ => 1 ≤ size
  | _ => True

/-- No two blocks in use begin at the same byte. -/
def StartsApart (g : Generator) : Prop :=
  ∀ q ∈ placed 0 g.segment.root, ∀ q' ∈ placed 0 g.segment.root,
    InUse g q.2 → InUse g q'.2 → q.1 = q'.1 → q.2.addr = q'.2.addr

/-- What holds while memory is asked for in bytes and given back in order. -/
structure Footprint (g : Generator) : Prop extends GeneratorInv g where
  apart : StartsApart g
  filled : Filled g.segment
  asked : ∀ id size time block, g.phase = .found id size time block → 1 ≤ size

variable {g g' : Generator} {a : GeneratorAct} {seg : Segment} {id pid size time x : ℤ} {block : ℕ}
  {b : MemoryBlock} {q : ℤ × MemoryBlock}

/-- Where nothing new is put in use. -/
theorem StartsApart.of_placed (h : StartsApart g)
    (hfrom : ∀ q ∈ placed 0 g'.segment.root, InUse g' q.2 →
      ∃ b, (q.1, b) ∈ placed 0 g.segment.root ∧ InUse g b ∧ b.addr = q.2.addr) :
    StartsApart g' := by
  intro q hq q' hq' huse huse' heq
  obtain ⟨b, hb, hbu, hba⟩ := hfrom q hq huse
  obtain ⟨c, hc, hcu, hca⟩ := hfrom q' hq' huse'
  rw [← hba, ← hca]
  exact h _ hb _ hc hbu hcu heq

theorem StartsApart.of_write {f : MemoryBlock → MemoryBlock} (h : StartsApart g)
    (hroot : g'.segment.root = update (·.isAt block) f g.segment.root)
    (hkeep : ∀ b, (f b).addr = b.addr ∧ (f b).size = b.size)
    (huse : ∀ b ∈ entries g.segment.root,
      InUse g' (if b.isAt block then f b else b) → InUse g b) : StartsApart g' := by
  apply h.of_placed
  intro q hq hqu
  rw [hroot, placed_update fun b => (hkeep b).2] at hq
  obtain ⟨⟨y, b⟩, hb, rfl⟩ := List.mem_map.mp hq
  refine ⟨b, hb, huse b (entries_of_placed hb) hqu, ?_⟩
  dsimp only
  split
  · exact (hkeep b).1.symm
  · rfl

/-- A search puts in use what it finds, and nothing else. -/
theorem inUse_search {res : Option ℕ} (hi : GeneratorInv g) (hp : g.phase = .idle)
    (hf : findBlock g.segment size = some (seg, res)) (hb : b ∈ entries seg.root)
    (huse : InUse g' b) :
    b.live ∨ g'.phase.block = some b.addr := by
  rcases huse with hlive | hid | hblock
  · exact Or.inl hlive
  · by_contra hnot
    obtain ⟨j, -, -, hs⟩ := findBlock_some hf
    rcases grows_entries (searches_grows hs) hb with hold | hblank
    · rcases hi.quiet b hold fun hlive => hnot (Or.inl hlive) with hquiet | hquiet
      · exact hid hquiet
      · rw [hp] at hquiet
        cases hquiet
    · exact hid hblank.2.1
  · exact Or.inr hblock

theorem placed_search {res : Option ℕ} (hf : findBlock g.segment size = some (seg, res))
    (hq : q ∈ placed 0 seg.root) (hlive : q.2.live) : q ∈ lives 0 g.segment.root := by
  obtain ⟨j, -, -, hs⟩ := findBlock_some hf
  rw [← grows_lives 0 (searches_grows hs)]
  exact mem_lives.mpr ⟨hq, hlive⟩

/-- A block that begins at a free byte begins where no live block does. -/
theorem start_ne_of_free (hw : WellFormed seg) (hfree : ¬ Busy 0 seg.root x)
    (hq : q ∈ lives 0 seg.root) : q.1 ≠ x := by
  rintro rfl
  have hrange := placed_range hw.shape (mem_lives.mp hq).1
  exact hfree ⟨q, hq, Int.le_refl _, by omega⟩

theorem startsApart_found (hi : Footprint g) (hp : g.phase = .idle)
    (hf : findBlock g.segment size = some (seg, some block)) :
    StartsApart { g with segment := seg, phase := .found id size time block } := by
  obtain ⟨n, x, c, -, -, hc, rfl, -, -, ⟨-, hfree, -⟩, -⟩ :=
    findBlock_first hi.wellFormed hi.filled.charged hf
  have hw := findBlock_wellFormed hi.wellFormed hf
  have hstart : ∀ q ∈ placed 0 seg.root, q.2.addr = c.addr → q.1 = x := by
    rintro ⟨y, d⟩ hd hda
    obtain rfl := entry_unique hw.nodup (entries_of_placed hd) (entries_of_placed hc) hda
    exact congrArg Prod.fst (placed_unique hw.nodup hd hc)
  have hlive : ∀ q ∈ placed 0 seg.root, q.2.live → q.1 ≠ x :=
    fun q hq hl => start_ne_of_free hi.wellFormed hfree (placed_search hf hq hl)
  intro q hq q' hq' huse huse' heq
  have hq₁ := inUse_search hi.toGeneratorInv hp hf (entries_of_placed hq) huse
  have hq₂ := inUse_search hi.toGeneratorInv hp hf (entries_of_placed hq') huse'
  simp only [AdmissionPhase.block, Option.some.injEq] at hq₁ hq₂
  rcases hq₁ with hl | ha
  · rcases hq₂ with hl' | ha'
    · have hold := mem_lives.mp (placed_search hf hq hl)
      have hold' := mem_lives.mp (placed_search hf hq' hl')
      exact hi.apart q hold.1 q' hold'.1 (Or.inl hl) (Or.inl hl') heq
    · exact absurd (heq.trans (hstart q' hq' ha'.symm)) (hlive q hq hl)
  · rcases hq₂ with hl' | ha'
    · exact absurd (heq.symm.trans (hstart q hq ha.symm)) (hlive q' hq' hl')
    · exact ha.symm.trans ha'

theorem startsApart_refused (hi : Footprint g) (hp : g.phase = .idle)
    (hf : findBlock g.segment size = some (seg, none)) :
    StartsApart { g with segment := seg } := by
  apply hi.apart.of_placed
  intro q hq huse
  rcases inUse_search hi.toGeneratorInv hp hf (entries_of_placed hq) huse with hl | hblock
  · exact ⟨q.2, (mem_lives.mp (placed_search hf hq hl)).1, Or.inl hl, rfl⟩
  · rw [hp] at hblock
    cases hblock

/-- What is left after a release was there before, in the same place. -/
theorem deallocateMemory_placed (h : q ∈ placed 0 (deallocateMemory seg pid time).1.root) :
    q ∈ placed 0 seg.root ∨ ∃ b, (q.1, b) ∈ placed 0 seg.root ∧
      getProcessMemorySegment seg.root (-1) pid = some b.addr ∧ q.2 = b.release := by
  obtain ⟨-, heq⟩ | ⟨block, hfound, -, -, hroot⟩ := deallocateMemory_cases seg pid time
  · rw [heq] at h
    exact Or.inl h
  rw [hroot] at h
  have hprune : ∀ t p, (∀ q ∈ placed 0 t,
      q ∈ placed 0 (update (·.isAt block) MemoryBlock.release seg.root)) → ∀ q ∈ placed 0 (prune p t),
      q ∈ placed 0 (update (·.isAt block) MemoryBlock.release seg.root) :=
    fun t p ht q hq => ht q (placed_prune_sublist.subset hq)
  have hupdate := mergeBuddyBlocks_invariant hprune (fun q hq => hq) q h
  rw [placed_update fun c => (release_keeps c).2.1] at hupdate
  obtain ⟨⟨y, c⟩, hc, rfl⟩ := List.mem_map.mp hupdate
  by_cases hca : c.isAt block
  · refine Or.inr ⟨c, hc, ?_, by simp [hca]⟩
    rw [hfound, isAt_iff.mp hca]
  · exact Or.inl (by simpa [hca] using hc)

theorem footprint_reserve (hi : Footprint g) (hp : g.phase = .found id size time block)
    (hg : GeneratorInv { g with
      segment := reserveBlock g.segment block id size time, phase := .reserved id }) :
    Footprint { g with
      segment := reserveBlock g.segment block id size time, phase := .reserved id } := by
  refine ⟨hg, ?_, ?_, fun _ _ _ _ h => by cases h⟩
  · refine hi.apart.of_write (f := fun b => { b with idFromFile := id, allocated := size }) rfl
      (fun b => ⟨rfl, rfl⟩) ?_
    intro b hb huse
    by_cases hat : b.isAt block
    · exact Or.inr (Or.inr (by rw [hp, isAt_iff.mp hat]; rfl))
    · rw [if_neg hat] at huse
      rcases huse with hlive | hid | hblock
      · exact Or.inl hlive
      · exact Or.inr (Or.inl hid)
      · cases hblock
  · have hwritten := filled_write (a := block) (f := fun b => { b with idFromFile := id, allocated := size })
      hi.filled (fun _ => ⟨rfl, rfl, rfl⟩) fun _ _ _ => hi.asked id size time block hp
    exact ⟨wellFormed_log hwritten.wellFormed, hwritten.bytes⟩

theorem footprint_updateId (hi : Footprint g)
    (hg : GeneratorInv { g with
      segment := updateId g.segment id pid, phase := .stamped id pid }) :
    Footprint { g with segment := updateId g.segment id pid, phase := .stamped id pid } := by
  have hkept : ∀ b, InUse { g with segment := updateId g.segment id pid, phase := .stamped id pid } b →
      InUse g b := fun b huse => huse.imp_right (Or.imp_right fun h => by cases h)
  refine ⟨hg, ?_, filled_updateId id pid hi.filled, fun _ _ _ _ h => by cases h⟩
  rcases updateId_cases g.segment id pid with heq | ⟨c, hc, hne, rfl, heq⟩
  · apply hi.apart.of_placed
    intro q hq huse
    exact ⟨q.2, heq ▸ hq, hkept q.2 huse, rfl⟩
  · refine hi.apart.of_write (f := fun b => { b with processPid := pid })
      (congrArg Segment.root heq) (fun b => ⟨rfl, rfl⟩) ?_
    intro b hb huse
    by_cases hat : b.isAt c.addr
    · obtain rfl := entry_unique hi.wellFormed.nodup hb hc (isAt_iff.mp hat)
      exact Or.inr (Or.inl hne)
    · rw [if_neg hat] at huse
      exact hkept b huse

theorem footprint_exited {code : ℤ} (hi : Footprint g)
    (hg : GeneratorInv (g.reapChild pid (.exited code) time)) :
    Footprint (g.reapChild pid (.exited code) time) := by
  refine ⟨hg, ?_, ?_, hi.asked⟩
  · apply hi.apart.of_placed
    intro q hq huse
    rcases deallocateMemory_placed hq with hold | ⟨b, hb, hfound, heq⟩
    · exact ⟨q.2, hold, huse, rfl⟩
    · rw [heq] at huse ⊢
      refine ⟨b, hb, Or.inl ?_, rfl⟩
      obtain ⟨c, hc, hca, hlive, -⟩ := found_for_release hfound
      rwa [← entry_unique hi.wellFormed.nodup hc (entries_of_placed hb) hca]
  · have hstep : Guarded BytesAsked MemoryOp.apply g.segment (.deallocation pid time)
        (deallocateMemory g.segment pid time).1 := ⟨trivial, rfl⟩
    exact filled_step hi.filled hstep

theorem footprint_step (hi : Footprint g) (hok : EndsOrderly g a) (hask : AsksForBytes a)
    (h : GeneratorStep g a g') : Footprint g' := by
  have hg := generatorInv_step hi.toGeneratorInv hok h
  cases h with
  | searchFound hp hf =>
    refine ⟨hg, startsApart_found hi hp hf, filled_search hi.filled hf, ?_⟩
    intro id size time block heq
    cases heq
    exact hask
  | searchFailed hp hf =>
    refine ⟨hg, startsApart_refused hi hp hf, filled_search hi.filled hf, ?_⟩
    intro id size time block heq
    rw [show g.phase = _ from heq] at hp
    cases hp
  | reserve hp => exact footprint_reserve hi hp hg
  | createProcess hp hpid hc hh =>
    refine ⟨hg, ?_, hi.filled, fun _ _ _ _ h => by cases h⟩
    apply hi.apart.of_placed
    exact fun q hq huse =>
      ⟨q.2, hq, huse.imp_right (Or.imp_right fun h => by cases h), rfl⟩
  | updateId hp => exact footprint_updateId hi hg
  | msgsnd hp =>
    refine ⟨hg, ?_, hi.filled, fun _ _ _ _ h => by cases h⟩
    apply hi.apart.of_placed
    exact fun q hq huse =>
      ⟨q.2, hq, huse.imp_right (Or.imp_right fun h => by cases h), rfl⟩
  | @reap pid time status hpos hpid hs =>
    cases status with
    | exited code => exact footprint_exited hi hg
    | signaled signal => exact ⟨hg, hi.apart, hi.filled, hi.asked⟩

theorem footprint_initial (schedulerPid clkPid : ℤ) :
    Footprint (initialGenerator schedulerPid clkPid) := by
  refine ⟨generatorInv_initial schedulerPid clkPid, ?_, ?_, fun _ _ _ _ h => by cases h⟩
  · intro q hq q' hq' _ _ _
    simp only [initialGenerator, initializeMemorySegment, placed_node, placed_nil, List.append_nil,
      List.mem_singleton] at hq hq'
    rw [hq, hq']
  · exact filled_initial

/-- There is room for 1024 children whose pids are in the tree. -/
theorem Footprint.length_le (hi : Footprint g) {pids : List ℤ} (hnodup : pids.Nodup)
    (hpids : ∀ pid ∈ pids, pid ∈ g.children ∧ g.phase.unstampedPid ≠ some pid) :
    pids.length ≤ 1024 := by
  have hblock : ∀ pid, pid ∈ pids → ∃ q ∈ placed 0 g.segment.root, q.2.live ∧ q.2.processPid = pid := by
    intro pid hpid
    obtain ⟨b, hb, hlive, hbp⟩ := (hi.held pid).mpr (hpids pid hpid)
    obtain ⟨x, hx⟩ := placed_of_entries 0 hb
    exact ⟨(x, b), hx, hlive, hbp⟩
  have : Nonempty (ℤ × MemoryBlock) := ⟨(0, blankBlock 0 0 none)⟩
  choose! block hplaced hlive hpid using hblock
  have hmaps : ∀ pid ∈ pids.toFinset, (block pid).1 ∈ Finset.Ico (0 : ℤ) 1024 := by
    intro pid hmem
    have hrange := placed_range hi.wellFormed.shape (hplaced pid (List.mem_toFinset.mp hmem))
    rw [Finset.mem_Ico]
    omega
  have hinj : Set.InjOn (fun pid => (block pid).1) pids.toFinset := by
    intro pid hmem pid' hmem' heq
    have hmem := List.mem_toFinset.mp hmem
    have hmem' := List.mem_toFinset.mp hmem'
    have haddr := hi.apart _ (hplaced pid hmem) _ (hplaced pid' hmem') (Or.inl (hlive pid hmem))
      (Or.inl (hlive pid' hmem')) heq
    have hsame := entry_unique hi.wellFormed.nodup (entries_of_placed (hplaced pid hmem))
      (entries_of_placed (hplaced pid' hmem')) haddr
    rw [← hpid pid hmem, hsame, hpid pid' hmem']
  have hcard := Finset.card_le_card_of_injOn _ hmaps hinj
  rwa [List.toFinset_card_of_nodup hnodup, Int.card_Ico] at hcard

end KernelSim
