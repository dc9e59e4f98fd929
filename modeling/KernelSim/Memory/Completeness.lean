import KernelSim.Memory.Release
import Mathlib.Order.Bounds.Basic

/-! A request is answered from the lowest open slot, so it is granted whenever a slot is free. -/
namespace KernelSim
open KeyedTree Dyadic Runs

/-- The flag that `allocate_memory` returns and, when it is set, the range that it logs. -/
def outcome (seg : Segment) (idFromFile processSize time : ℤ) : Option (Bool × Option (ℤ × ℤ)) :=
  (allocateMemory seg idFromFile processSize time).map fun r =>
    (r.2, if r.2 then r.1.memoryLog.getLast?.map fun e => (e.start, e.stop) else none)

/-- The powers of two that `size` bytes fit into. -/
def roundings (size : ℤ) : Set ℤ := { n | size ≤ n ∧ ∃ k : ℕ, n = 2 ^ k }

/-- A request is for at least a byte, or is refused. -/
def BytesAsked (seg : Segment) : MemoryOp → Prop
  | .admission _ size _ _ => 1 ≤ size ∨ (findBlock seg size).map Prod.snd = some none
  | .deallocation _ _ => True

instance : ∀ seg op, Decidable (BytesAsked seg op)
  | seg, .admission _ size _ _ => inferInstanceAs
      (Decidable (1 ≤ size ∨ (findBlock seg size).map Prod.snd = some none))
  | _, .deallocation _ _ => isTrue trivial

/-- A block that carries a pid or an id was reserved for at least a byte. -/
structure Filled (seg : Segment) : Prop where
  wellFormed : WellFormed seg
  bytes : ∀ b ∈ entries seg.root, b.live ∨ b.idFromFile ≠ -1 → 1 ≤ b.allocated

variable {seg seg' seg₁ : Segment} {op : MemoryOp} {id size pid time n x y : ℤ} {a : ℕ}
  {b : MemoryBlock}

theorem Filled.charged (h : Filled seg) : Charged seg.root :=
  fun b hb hlive => h.bytes b hb (Or.inl hlive)

theorem filled_initial : Filled initialSegment where
  wellFormed := wellFormed_initial
  bytes := by
    intro b hb hheld
    have hblank := segmentSound_initial.clean b hb
    have hlive : ¬ b.live := fun hl => absurd (segmentSound_initial.charged b hb hl) (by
      simp only [initializeMemorySegment, entries_node, entries_nil, List.append_nil,
        List.mem_singleton] at hb
      rw [hb]
      decide)
    exact absurd hheld (by simp [hlive, (hblank hlive).2.1])

theorem filled_write {f : MemoryBlock → MemoryBlock} (h : Filled seg) (hf : KeepsStructure f)
    (hbytes : ∀ b ∈ entries seg.root, b.addr = a → 1 ≤ (f b).allocated) :
    Filled (seg.write a f) where
  wellFormed := wellFormed_write a hf h.wellFormed
  bytes := by
    intro c hc hheld
    rcases written_or_kept hc with ⟨b, hb, hba, rfl⟩ | ⟨hc, -⟩
    · exact hbytes b hb hba
    · exact h.bytes c hc hheld

theorem filled_search (h : Filled seg) {res : Option ℕ} (hf : findBlock seg size = some (seg', res)) :
    Filled seg' where
  wellFormed := findBlock_wellFormed h.wellFormed hf
  bytes := by
    obtain ⟨j, -, -, hs⟩ := findBlock_some hf
    intro b hb hheld
    rcases grows_entries (searches_grows hs) hb with hold | hblank
    · exact h.bytes b hold hheld
    · exact absurd hheld (by simp [hblank.1, hblank.2.1])

theorem filled_updateId (id pid : ℤ) (h : Filled seg) : Filled (updateId seg id pid) := by
  unfold updateId
  split
  · rename_i found hfound
    refine filled_write h (fun _ => ⟨rfl, rfl, rfl⟩) ?_
    intro b hb hba
    obtain ⟨c, hc, hca, hm⟩ := getProcessMemorySegment_some hfound
    obtain rfl := entry_unique h.wellFormed.nodup hb hc (hba.trans hca.symm)
    have hm : id ≠ -1 ∧ b.idFromFile = id := by simpa [Matches] using hm
    exact h.bytes b hb (Or.inr (hm.2 ▸ hm.1))
  · exact h

theorem filled_step (h : Filled seg) (hs : Guarded BytesAsked MemoryOp.apply seg op seg') :
    Filled seg' := by
  obtain ⟨hok, happ⟩ := hs
  cases op with
  | deallocation pid time =>
    obtain rfl := Option.some.inj happ
    refine ⟨deallocateMemory_wellFormed h.wellFormed, ?_⟩
    intro b hb hheld
    rcases deallocateMemory_entries hb with ⟨hb, -⟩ | ⟨c, -, rfl⟩
    · exact h.bytes b hb hheld
    · exact absurd hheld (by simp [MemoryBlock.release])
  | admission id size pid time =>
    obtain ⟨seg₁, res, hfind, ⟨-, rfl⟩ | ⟨a, rfl, rfl⟩⟩ := admitProcess_search h.wellFormed happ
    · exact filled_search h hfind
    · have hone : 1 ≤ size := hok.resolve_right (by simp [hfind])
      have hreserved := filled_write (a := a) (filled_search h hfind)
        (f := fun b => { b with idFromFile := id, allocated := size })
        (fun _ => ⟨rfl, rfl, rfl⟩) fun _ _ _ => hone
      exact filled_updateId id pid ⟨wellFormed_log hreserved.wellFormed, hreserved.bytes⟩

theorem outcome_of_allocate {ok : Bool} (h : allocateMemory seg id size time = some (seg', ok)) :
    outcome seg id size time =
      some (ok, if ok then seg'.memoryLog.getLast?.map fun e => (e.start, e.stop) else none) := by
  rw [outcome, h]
  rfl

theorem allocate_of_outcome {ok : Bool} {range : Option (ℤ × ℤ)}
    (h : outcome seg id size time = some (ok, range)) :
    ∃ seg', allocateMemory seg id size time = some (seg', ok) := by
  obtain ⟨⟨seg', ok'⟩, hal, heq⟩ := Option.map_eq_some_iff.mp h
  obtain rfl : ok' = ok := congrArg Prod.fst heq
  exact ⟨seg', hal⟩

/-- Where nothing but live blocks charge, the live blocks alone decide how a request ends. -/
theorem outcome_cases (id size time : ℤ) (hw : WellFormed seg) (hc : Charged seg.root) :
    (highestPowerOf2 size = none ∧ outcome seg id size time = none) ∨
    ∃ n, highestPowerOf2 size = some n ∧
      ((∃ x, FirstOpen n 0 10 seg.root x ∧
          outcome seg id size time = some (true, some (x, x + n - 1))) ∨
        ((∀ y, ¬ OpenSlot n 0 10 seg.root y) ∧ outcome seg id size time = some (false, none))) := by
  cases hround : highestPowerOf2 size with
  | none =>
    left
    refine ⟨rfl, ?_⟩
    rw [outcome, allocateMemory_eq id size time hw]
    simp [allocateIn, findBlock, hround]
  | some n =>
    right
    obtain ⟨seg₁, res, hfind⟩ := findBlock_isSome hw (highestPowerOf2_some hround).1
    refine ⟨n, rfl, ?_⟩
    cases res with
    | none =>
      right
      obtain ⟨j, hj, -, hs⟩ := findBlock_some hfind
      obtain rfl : n = 2 ^ j := Option.some.inj (hround.symm.trans hj)
      refine ⟨(searches_first 0 hs hw.nonempty hw.shape (Or.inr hc)).2 rfl, ?_⟩
      exact outcome_of_allocate (allocateMemory_refused id time hw hfind)
    | some a =>
      left
      obtain ⟨m, x, b, hm, -, hb, rfl, hsize, -, hfirst⟩ := findBlock_first hw hc hfind
      obtain rfl : n = m := Option.some.inj (hround.symm.trans hm)
      refine ⟨x, hfirst, ?_⟩
      rw [outcome_of_allocate (allocateMemory_found id time hw hfind),
        reserveBlock_log id size time (findBlock_wellFormed hw hfind) hb, hsize]
      simp

theorem isLeast_highestPowerOf2 (h : highestPowerOf2 size = some n) : IsLeast (roundings size) n := by
  obtain ⟨-, j, rfl, hle, hmin⟩ := highestPowerOf2_some h
  refine ⟨⟨hle, j, rfl⟩, ?_⟩
  rintro _ ⟨hsize, k, rfl⟩
  by_contra hlt
  have hkj : k < j := two_pow_lt_iff.mp (not_le.mp hlt)
  have := hmin k hkj
  omega

/-- The bytes of live blocks, by their ranges. -/
theorem busy_iff (hw : WellFormed seg) : Busy 0 seg.root y ↔
    ∃ b ∈ entries seg.root, b.live ∧ y ∈ addressRange seg b := by
  constructor
  · rintro ⟨⟨x, b⟩, hq, hlo, hhi⟩
    obtain ⟨hplaced, hlive⟩ := mem_lives.mp hq
    refine ⟨b, entries_of_placed hplaced, hlive, ?_⟩
    rw [addressRange_eq hw hplaced]
    dsimp only at hlo hhi
    exact ⟨hlo, by omega⟩
  · rintro ⟨b, hb, hlive, hy⟩
    obtain ⟨x, hx⟩ := placed_of_entries 0 hb
    rw [addressRange_eq hw hx] at hy
    have := hy.2
    exact ⟨(x, b), mem_lives.mpr ⟨hx, hlive⟩, hy.1, by dsimp only; omega⟩

/-- Whatever the run has left in the tree, a request is granted while an aligned range of its
rounded size is free. -/
theorem allocateMemory_complete (h : Reachable (Guarded BytesAsked MemoryOp.apply) initialSegment seg)
    (hlo : 1 ≤ size) (hhi : size ≤ 1024) (hn : IsLeast (roundings size) n) (k : ℕ)
    (hk : (k + 1) * n ≤ 1024)
    (hfree : ∀ b ∈ entries seg.root, b.live →
      Disjoint (Set.Ico (k * n) ((k + 1) * n)) (addressRange seg b)) (id time : ℤ) :
    ∃ seg', allocateMemory seg id size time = some (seg', true) := by
  have hf : Filled seg := h.invariant (fun _ _ _ hi hs => filled_step hi hs) filled_initial
  obtain ⟨hnone, -⟩ | ⟨m, hm, ⟨x, -, heq⟩ | ⟨hfull, -⟩⟩ :=
    outcome_cases id size time hf.wellFormed hf.charged
  · obtain ⟨j, hj, -⟩ := highestPowerOf2_eq (show size ≤ 2 ^ 30 by omega)
    rw [hnone] at hj
    cases hj
  · exact allocate_of_outcome heq
  · obtain rfl : m = n := (isLeast_highestPowerOf2 hm).unique hn
    have hpos : 1 ≤ m := hlo.trans hn.1.1
    have hend : (k + 1) * m = k * m + m := by ring
    rw [hend] at hk hfree
    have hidle : ∀ y, k * m ≤ y → y < k * m + m → ¬ Busy 0 seg.root y := by
      intro y h1 h2 hbusy
      obtain ⟨b, hb, hlive, hy⟩ := (busy_iff hf.wellFormed).mp hbusy
      exact Set.disjoint_left.mp (hfree b hb hlive) ⟨h1, h2⟩ hy
    refine absurd ⟨⟨k, by simp, ?_⟩, hidle _ (le_refl _) (by omega), hidle _ (by omega) (by omega)⟩
      (hfull (k * m))
    omega

/-- Beside a live block, and with what an earlier split has left in the tree. -/
theorem allocateMemory_complete_half : ∃ seg,
    execute BytesAsked MemoryOp.apply initialSegment
      [.admission 1 128 101 1, .admission 2 128 102 1, .deallocation 101 2] = some seg ∧
    ∃ seg', allocateMemory seg 3 300 3 = some (seg', true) := by
  obtain ⟨seg, hseg, hlow⟩ : ∃ seg,
      execute BytesAsked MemoryOp.apply initialSegment
        [.admission 1 128 101 1, .admission 2 128 102 1, .deallocation 101 2] = some seg ∧
      ∀ b ∈ entries seg.root, b.live → (getBlockAddress seg.root b.addr).2 < 512 :=
    ⟨_, rfl, by decide⟩
  have hround : highestPowerOf2 300 = some 512 := rfl
  refine ⟨seg, hseg, allocateMemory_complete ⟨_, trace_of_execute hseg⟩ (by decide) (by decide)
    (isLeast_highestPowerOf2 hround) 1 (by decide) ?_ 3 3⟩
  intro b hb hlive
  have := hlow b hb hlive
  rw [Set.disjoint_left]
  intro y hy hin
  have h1 : ((1 : ℕ) : ℤ) * 512 ≤ y := hy.1
  have h2 : y ≤ (getBlockAddress seg.root b.addr).2 := hin.2
  omega

end KernelSim
