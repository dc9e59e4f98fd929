import KernelSim.Memory.Overlap

/-! A refused request stays refused while the tree only fills up. -/
namespace KernelSim
open KeyedTree Runs

/-- `t'` is `t` filled further: blocks may be new, and none is used less. -/
def Denser : MemoryTree → MemoryTree → Prop
  | .nil, t' => ∀ b ∈ entries t', 0 ≤ b.used
  | .node _ _ _, .nil => False
  | .node b l r, .node b' l' r' =>
    (b.live → b'.live) ∧ b.used ≤ b'.used ∧ Denser l l' ∧ Denser r r'

/-- The search for this many bytes comes back empty-handed. -/
def Refuses (seg : Segment) (size : ℤ) : Prop := ∃ seg', findBlock seg size = some (seg', none)

/-- The pid is that of a child, and a size below 0 comes with an id that marks no other block. -/
def Forked (seg : Segment) : MemoryOp → Prop
  | .admission id size pid _ =>
    0 < pid ∧ (0 ≤ size ∨ id = -1 ∨ ∀ b ∈ entries seg.root, b.idFromFile ≠ id)
  | .deallocation _ _ => True

instance : ∀ seg op, Decidable (Forked seg op)
  | seg, .admission id size pid _ => inferInstanceAs
      (Decidable (0 < pid ∧ (0 ≤ size ∨ id = -1 ∨ ∀ b ∈ entries seg.root, b.idFromFile ≠ id)))
  | _, .deallocation _ _ => isTrue trivial

/-- Whatever sizes and ids the process file has. -/
abbrev ForkedStep : Segment → MemoryOp → Segment → Prop := Guarded Forked MemoryOp.apply

/-- A block that `update_id` can find is used no less for being found. -/
structure Stampable (seg : Segment) : Prop where
  wellFormed : WellFormed seg
  bytes : ∀ b ∈ entries seg.root, b.idFromFile ≠ -1 → b.live ∨ 0 ≤ b.allocated

variable {seg seg' seg₁ : Segment} {op : MemoryOp} {t t' t'' t₁ t₁' l r l' r' : MemoryTree}
  {b b' c : MemoryBlock} {k a next next' next₁ next₁' : ℕ} {id pid size time needed : ℤ}
  {p : MemoryBlock → Bool} {f : MemoryBlock → MemoryBlock} {res : Option ℕ}

theorem used_of_not_live (h : ¬ b.live) : b.used = 0 := if_neg h

theorem used_le_of_not_live (h : ¬ b.live) (h' : ¬ c.live) : b.used ≤ c.used :=
  Int.le_of_eq ((used_of_not_live h).trans (used_of_not_live h').symm)

theorem used_of_live (h : b.live) : b.used = b.allocated := if_pos h

theorem denser_refl (t : MemoryTree) : Denser t t := by
  induction t with
  | nil => simp [Denser]
  | node b l r hl hr => exact ⟨id, Int.le_refl _, hl, hr⟩

theorem denser_nonneg (h : Denser t t') (hn : ∀ b ∈ entries t, 0 ≤ b.used) :
    ∀ b ∈ entries t', 0 ≤ b.used := by
  induction t generalizing t' with
  | nil => exact h
  | node c l r hl hr =>
    cases t' with
    | nil => exact h.elim
    | node c' l' r' =>
      obtain ⟨-, hused, hdl, hdr⟩ := h
      simp only [entries_node, List.mem_cons, List.mem_append] at hn ⊢
      rintro b (rfl | hb | hb)
      · exact Int.le_trans (hn c (Or.inl rfl)) hused
      · exact hl hdl (fun d hd => hn d (Or.inr (Or.inl hd))) b hb
      · exact hr hdr (fun d hd => hn d (Or.inr (Or.inr hd))) b hb

theorem denser_trans (h : Denser t t') (h' : Denser t' t'') : Denser t t'' := by
  induction t generalizing t' t'' with
  | nil => exact denser_nonneg h' h
  | node b l r hl hr =>
    cases t' with
    | nil => exact h.elim
    | node b' l' r' =>
      cases t'' with
      | nil => exact h'.elim
      | node b'' l'' r'' =>
        obtain ⟨hlive, hused, hdl, hdr⟩ := h
        obtain ⟨hlive', hused', hdl', hdr'⟩ := h'
        exact ⟨fun hb => hlive' (hlive hb), Int.le_trans hused hused', hl hdl hdl', hr hdr hdr'⟩

theorem denser_grows (h : Grows t t') : Denser t t' := by
  induction t generalizing t' with
  | nil =>
    intro b hb
    rw [used_of_not_live (not_not.mpr (h b hb).1)]
  | node b l r hl hr =>
    cases t' with
    | nil => exact h.elim
    | node b' l' r' =>
      obtain ⟨rfl, hgl, hgr⟩ := h
      exact ⟨fun hb => hb, Int.le_refl _, hl hgl, hr hgr⟩

theorem denser_update (h : ∀ b ∈ entries t, p b = true → (b.live → (f b).live) ∧ b.used ≤ (f b).used) :
    Denser t (update p f t) := by
  induction t with
  | nil => simp [Denser, update]
  | node b l r hl hr =>
    simp only [entries_node, List.mem_cons, List.mem_append] at h
    have hchildren : Denser l (update p f l) ∧ Denser r (update p f r) :=
      ⟨hl fun c hc => h c (Or.inr (Or.inl hc)), hr fun c hc => h c (Or.inr (Or.inr hc))⟩
    simp only [update, Denser]
    by_cases hb : p b = true
    · rw [if_pos hb]
      exact ⟨(h b (Or.inl rfl) hb).1, (h b (Or.inl rfl) hb).2, hchildren⟩
    · rw [if_neg hb]
      exact ⟨fun hlive => hlive, Int.le_refl _, hchildren⟩

/-! What the search reads of the tree moves one way. -/

theorem leftSpineUsed_nonneg (h : ∀ b ∈ entries t, 0 ≤ b.used) : 0 ≤ leftSpineUsed t := by
  induction t with
  | nil => exact Int.le_refl _
  | node b l r hl _ =>
    simp only [entries_node, List.mem_cons, List.mem_append] at h
    have := hl fun c hc => h c (Or.inr (Or.inl hc))
    have := h b (Or.inl rfl)
    simp only [leftSpineUsed]
    omega

theorem rightSpineUsed_nonneg (h : ∀ b ∈ entries t, 0 ≤ b.used) : 0 ≤ rightSpineUsed t := by
  induction t with
  | nil => exact Int.le_refl _
  | node b l r _ hr =>
    simp only [entries_node, List.mem_cons, List.mem_append] at h
    have := hr fun c hc => h c (Or.inr (Or.inr hc))
    have := h b (Or.inl rfl)
    simp only [rightSpineUsed]
    omega

theorem leftSpineUsed_mono (h : Denser t t') : leftSpineUsed t ≤ leftSpineUsed t' := by
  induction t generalizing t' with
  | nil => exact leftSpineUsed_nonneg h
  | node b l r hl _ =>
    cases t' with
    | nil => exact h.elim
    | node b' l' r' =>
      have := hl h.2.2.1
      have := h.2.1
      simp only [leftSpineUsed]
      omega

theorem rightSpineUsed_mono (h : Denser t t') : rightSpineUsed t ≤ rightSpineUsed t' := by
  induction t generalizing t' with
  | nil => exact rightSpineUsed_nonneg h
  | node b l r _ hr =>
    cases t' with
    | nil => exact h.elim
    | node b' l' r' =>
      have := hr h.2.2.2
      have := h.2.1
      simp only [rightSpineUsed]
      omega

theorem tooSmall_denser (hs : Shape k (.node b l r)) (hs' : Shape k (.node b' l' r'))
    (h : Denser (.node b l r) (.node b' l' r')) (hsmall : TooSmall b needed) :
    TooSmall b' needed := by
  rcases hsmall with hsmall | hlive
  · rw [shape_size hs, ← shape_size hs'] at hsmall
    exact Or.inl hsmall
  · exact Or.inr (h.1 hlive)

theorem fits_denser (hs : Shape k (.node b l r)) (hs' : Shape k (.node b' l' r'))
    (h : Denser (.node b l r) (.node b' l' r')) (hf : Fits b' l' r' needed) :
    Fits b l r needed := by
  obtain ⟨hsize, hfree, hroom⟩ := hf
  have heq : b.size = b'.size := (shape_size hs).trans (shape_size hs').symm
  have hl := leftSpineUsed_mono h.2.2.1
  have hr := rightSpineUsed_mono h.2.2.2
  simp only [getUsedSpace] at hroom
  refine ⟨heq.trans hsize, by_contra fun hlive => h.1 hlive hfree, ?_⟩
  simp only [getUsedSpace]
  omega

theorem denser_createChild {child child' : MemoryTree} (h : Denser child child') :
    Denser (createChild b child next).1 (createChild b' child' next').1 := by
  cases child with
  | node c l r =>
    cases child' with
    | nil => exact h.elim
    | node c' l' r' => exact h
  | nil =>
    cases child' with
    | nil => exact ⟨fun hlive => absurd rfl hlive, Int.le_refl _, by simp [Denser], by simp [Denser]⟩
    | node c' l' r' =>
      have h' : ∀ d ∈ entries (.node c' l' r'), 0 ≤ d.used := h
      simp only [entries_node, List.mem_cons, List.mem_append] at h'
      refine ⟨fun hlive => absurd rfl hlive, ?_, ?_, ?_⟩
      · exact h' c' (Or.inl rfl)
      · exact fun d hd => h' d (Or.inr (Or.inl hd))
      · exact fun d hd => h' d (Or.inr (Or.inr hd))

/-- What a search did not find, it does not find in a denser tree. -/
theorem searches_denser (h : Searches needed t next t₁ next₁ none) (ht : t ≠ .nil)
    (hs : Shape k t) (hs' : Shape k t') (hn : 1 ≤ needed) (hd : Denser t t')
    (h' : Searches needed t' next' t₁' next₁' res) : res = none := by
  generalize hnone : (none : Option ℕ) = res₀ at h
  induction h generalizing k t' next' t₁' next₁' res with
  | null => exact absurd rfl ht
  | here => cases hnone
  | left => cases hnone
  | refuse hsmall =>
    cases h' with
    | null => exact hd.elim
    | refuse => rfl
    | here hsmall' | left hsmall' | right hsmall' =>
      exact absurd (tooSmall_denser hs hs' hd hsmall) hsmall'
  | right hsmall hf hl hr ihl ihr =>
    cases h' with
    | null => exact hd.elim
    | refuse => exact hnone
    | here hsmall' hf' => exact absurd (fits_denser hs hs' hd hf') hf
    | left hsmall' hf' hl' =>
      obtain ⟨rfl, rfl, rfl⟩ | ⟨j, rfl, hj, hsl, hsr⟩ := shape_children hs'
      · exact absurd (fits_of_leaf hs'.1 hn hsmall') hf'
      have hj' := two_pow_tdiv j
      rw [← shape_size hs] at hj'
      cases ihl createChild_ne_nil (createChild_shape hj' hs.2.1) (createChild_shape hj hsl)
        (denser_createChild hd.2.2.1) hl' rfl
    | right hsmall' hf' hl' hr' =>
      obtain ⟨rfl, rfl, rfl⟩ | ⟨j, rfl, hj, hsl, hsr⟩ := shape_children hs'
      · exact absurd (fits_of_leaf hs'.1 hn hsmall') hf'
      have hj' := two_pow_tdiv j
      rw [← shape_size hs] at hj'
      exact ihr createChild_ne_nil (createChild_shape hj' hs.2.2) (createChild_shape hj hsr)
        (denser_createChild hd.2.2.2) hr' hnone

theorem refuses_denser (hw : WellFormed seg) (hw' : WellFormed seg')
    (hd : Denser seg.root seg'.root) (h : Refuses seg size) : Refuses seg' size := by
  obtain ⟨seg₁, hfind⟩ := h
  obtain ⟨j, hj, -, hs⟩ := findBlock_some hfind
  obtain ⟨seg₁', res, hfind'⟩ := findBlock_isSome hw' (highestPowerOf2_some hj).1
  obtain ⟨j', hj', -, hs'⟩ := findBlock_some hfind'
  rw [hj, Option.some.injEq] at hj'
  rw [← hj'] at hs'
  have hpos : (1 : ℤ) ≤ 2 ^ j := one_le_pow₀ (by omega)
  cases searches_denser hs hw.nonempty hw.shape hw'.shape hpos hd hs'
  exact ⟨seg₁', hfind'⟩

/-! What an admission leaves is denser, and can be stamped again. -/

theorem stampable_initial : Stampable initialSegment where
  wellFormed := wellFormed_initial
  bytes := by
    intro b hb hid
    simp only [initializeMemorySegment, entries_node, entries_nil, List.append_nil,
      List.mem_singleton] at hb
    exact absurd (hb ▸ rfl) hid

theorem findBlock_denser (h : findBlock seg size = some (seg', res)) :
    Denser seg.root seg'.root := by
  obtain ⟨j, -, -, hs⟩ := findBlock_some h
  exact denser_grows (searches_grows hs)

theorem stampable_findBlock (h : Stampable seg) (hf : findBlock seg size = some (seg', res)) :
    Stampable seg' where
  wellFormed := findBlock_wellFormed h.wellFormed hf
  bytes := by
    obtain ⟨j, -, -, hs⟩ := findBlock_some hf
    intro b hb hid
    rcases grows_entries (searches_grows hs) hb with hold | hblank
    · exact h.bytes b hold hid
    · exact absurd hblank.2.1 hid

/-- The block found is not in use, so the reservation changes no use. -/
theorem reserveBlock_denser (id time : ℤ) (hw : WellFormed seg)
    (hf : findBlock seg size = some (seg₁, some a)) :
    Denser seg.root (reserveBlock seg₁ a id size time).root := by
  obtain ⟨j, -, -, hs⟩ := findBlock_some hf
  obtain ⟨b, hb, rfl, hlive, -⟩ := searches_found hs
  refine denser_trans (findBlock_denser hf) (denser_update ?_)
  intro c hc hca
  obtain rfl := entry_unique (findBlock_wellFormed hw hf).nodup hc hb
    (by simpa [MemoryBlock.isAt] using hca)
  exact ⟨fun h => absurd h hlive, used_le_of_not_live hlive hlive⟩

theorem stampable_reserveBlock (a : ℕ) (time : ℤ) (h : Stampable seg) (hsize : 0 ≤ size ∨ id = -1) :
    Stampable (reserveBlock seg a id size time) where
  wellFormed := reserveBlock_wellFormed a id size time h.wellFormed
  bytes := by
    intro c hc hid
    rcases written_or_kept hc with ⟨b, -, -, rfl⟩ | ⟨hc, -⟩
    · exact Or.inr (hsize.resolve_right hid)
    · exact h.bytes c hc hid

theorem updateId_denser (id : ℤ) (h : Stampable seg) (hpid : 0 < pid) :
    Denser seg.root (updateId seg id pid).root := by
  have hlive : pid ≠ -1 := by omega
  obtain heq | ⟨b, hb, hid, hbid, heq⟩ := updateId_cases seg id pid
  · rw [heq]
    exact denser_refl _
  · rw [heq]
    refine denser_update ?_
    intro c hc hca
    obtain rfl := entry_unique h.wellFormed.nodup hc hb (by simpa [MemoryBlock.isAt] using hca)
    refine ⟨fun _ => hlive, ?_⟩
    rw [used_of_live (b := { c with processPid := pid }) hlive]
    by_cases hc : c.live
    · exact Int.le_of_eq (used_of_live hc)
    · rw [used_of_not_live hc]
      exact (h.bytes c hb (hbid ▸ hid)).resolve_left hc

theorem stampable_updateId (id : ℤ) (h : Stampable seg) (hpid : 0 < pid) :
    Stampable (updateId seg id pid) where
  wellFormed := updateId_wellFormed id pid h.wellFormed
  bytes := by
    obtain heq | ⟨b, -, -, -, heq⟩ := updateId_cases seg id pid
    · rw [heq]
      exact h.bytes
    · rw [heq]
      intro c hc hid
      rcases written_or_kept hc with ⟨d, -, -, rfl⟩ | ⟨hc, -⟩
      · exact Or.inl (show pid ≠ -1 by omega)
      · exact h.bytes c hc hid

theorem stampable_step (h : Stampable seg) (hs : ForkedStep seg op seg') : Stampable seg' := by
  obtain ⟨hok, happ⟩ := hs
  cases op with
  | deallocation pid time =>
    obtain rfl := Option.some.inj happ
    refine ⟨deallocateMemory_wellFormed h.wellFormed, ?_⟩
    intro b hb hid
    rcases deallocateMemory_entries hb with ⟨hb, -⟩ | ⟨c, -, rfl⟩
    · exact h.bytes b hb hid
    · exact absurd rfl hid
  | admission id size pid time =>
    obtain ⟨hpid, hsize⟩ := hok
    obtain ⟨seg₁, res, hfind, ⟨-, rfl⟩ | ⟨a, rfl, rfl⟩⟩ := admitProcess_search h.wellFormed happ
    · exact stampable_findBlock h hfind
    have hfound := stampable_findBlock h hfind
    by_cases hneg : 0 ≤ size ∨ id = -1
    · exact stampable_updateId id (stampable_reserveBlock a time hfound hneg) hpid
    -- a negative size: the id is new, so the block that gets the pid is the one just reserved
    have hnew : ∀ b ∈ entries seg.root, b.idFromFile ≠ id := by tauto
    have hid : id ≠ -1 := fun he => hneg (Or.inr he)
    obtain ⟨j, -, -, hsearch⟩ := findBlock_some hfind
    obtain ⟨b, hb, rfl, -⟩ := searches_found hsearch
    have hids : ∀ c ∈ entries seg₁.root, c.idFromFile ≠ id := by
      intro c hc
      rcases grows_entries (searches_grows hsearch) hc with hold | hblank
      · exact hnew c hold
      · rw [hblank.2.1]
        exact hid.symm
    refine ⟨updateId_wellFormed id pid
      (reserveBlock_wellFormed b.addr id size time hfound.wellFormed), ?_⟩
    rw [updateId_reserved hb hid hids]
    intro c hc hcid
    rcases written_or_kept hc with ⟨d, -, -, rfl⟩ | ⟨hc, -⟩
    · exact Or.inl (show pid ≠ -1 by omega)
    · exact hfound.bytes c hc hcid

end KernelSim
