import KernelSim.Memory.Tree

/-! What `traverse_MemorySegment` does to the tree, and which block it hands out. -/
namespace KernelSim
open KeyedTree

/-- A block no process has been given. -/
def MemoryBlock.Blank (b : MemoryBlock) : Prop :=
  b.processPid = -1 ∧ b.idFromFile = -1 ∧ b.allocated = 0

/-- The test that stops the search at a block. -/
def TooSmall (b : MemoryBlock) (needed : ℤ) : Prop := b.size < needed ∨ b.processPid ≠ -1

/-- The test that hands a block out. -/
def Fits (b : MemoryBlock) (l r : MemoryTree) (needed : ℤ) : Prop :=
  b.size = needed ∧ b.processPid = -1 ∧ b.size - getUsedSpace (.node b l r) ≥ needed

/-- The ways a call of the search can end. -/
inductive Searches (needed : ℤ) : MemoryTree → ℕ → MemoryTree → ℕ → Option ℕ → Prop
  | null {next} : Searches needed .nil next .nil next none
  | refuse {b l r next} (h : TooSmall b needed) :
      Searches needed (.node b l r) next (.node b l r) next none
  | here {b l r next} (h : ¬ TooSmall b needed) (hf : Fits b l r needed) :
      Searches needed (.node b l r) next (.node b l r) next (some b.addr)
  | left {b l r l' next next' a} (h : ¬ TooSmall b needed) (hf : ¬ Fits b l r needed)
      (hl : Searches needed (createChild b l next).1 (createChild b l next).2 l' next' (some a)) :
      Searches needed (.node b l r) next (.node b l' r) next' (some a)
  | right {b l r l' r' next nextL next' res} (h : ¬ TooSmall b needed)
      (hf : ¬ Fits b l r needed)
      (hl : Searches needed (createChild b l next).1 (createChild b l next).2 l' nextL none)
      (hr : Searches needed (createChild b r nextL).1 (createChild b r nextL).2 r' next' res) :
      Searches needed (.node b l r) next (.node b l' r') next' res

theorem traverse_searches {fuel : ℕ} {needed : ℤ} {t t' : MemoryTree} {next next' : ℕ}
    {res : Option ℕ} (h : traverseMemorySegment fuel t needed next = some (t', next', res)) :
    Searches needed t next t' next' res := by
  induction fuel generalizing t next t' next' res with
  | zero => simp [traverseMemorySegment] at h
  | succ fuel ih =>
    cases t with
    | nil =>
      simp only [traverseMemorySegment, Option.some.injEq, Prod.mk.injEq] at h
      obtain ⟨rfl, rfl, rfl⟩ := h
      exact .null
    | node b l r =>
      simp only [traverseMemorySegment] at h
      by_cases hs : b.size < needed ∨ b.processPid ≠ -1
      · rw [if_pos hs] at h
        simp only [Option.some.injEq, Prod.mk.injEq] at h
        obtain ⟨rfl, rfl, rfl⟩ := h
        exact .refuse hs
      rw [if_neg hs] at h
      by_cases hf : b.size = needed ∧ b.processPid = -1 ∧
          b.size - getUsedSpace (.node b l r) ≥ needed
      · rw [if_pos hf] at h
        simp only [Option.some.injEq, Prod.mk.injEq] at h
        obtain ⟨rfl, rfl, rfl⟩ := h
        exact .here hs hf
      rw [if_neg hf] at h
      simp only [Option.bind_eq_bind, Option.bind_eq_some_iff] at h
      obtain ⟨⟨l', nextL, resL⟩, hl, h⟩ := h
      cases resL with
      | some a =>
        simp only [Option.isSome_some, if_true, Option.pure_def, Option.some.injEq,
          Prod.mk.injEq] at h
        obtain ⟨rfl, rfl, rfl⟩ := h
        exact .left hs hf (ih hl)
      | none =>
        simp only [Option.isSome_none, Bool.false_eq_true, if_false, Option.pure_def,
          Option.bind_eq_some_iff, Option.some.injEq, Prod.mk.injEq] at h
        obtain ⟨⟨r', nextR, resR⟩, hr, rfl, rfl, rfl⟩ := h
        exact .right hs hf (ih hl) (ih hr)

/-- `t'` is `t` with blank blocks hung below it. -/
def Grows : MemoryTree → MemoryTree → Prop
  | .nil, t' => ∀ b ∈ entries t', b.Blank
  | .node _ _ _, .nil => False
  | .node b l r, .node b' l' r' => b' = b ∧ Grows l l' ∧ Grows r r'

variable {k j : ℕ} {needed lo x y : ℤ} {t t' l r child : MemoryTree} {b c : MemoryBlock}
  {a next next' : ℕ} {res : Option ℕ} {parent : Option ℕ}

theorem grows_refl (t : MemoryTree) : Grows t t := by
  induction t with
  | nil => simp [Grows]
  | node b l r hl hr => exact ⟨rfl, hl, hr⟩

theorem blankBlock_blank : (blankBlock a x parent).Blank := ⟨rfl, rfl, rfl⟩

/-- A search below a child that was just made, or was there, only adds blank blocks. -/
theorem grows_createChild (h : Grows (createChild b child next).1 t') : Grows child t' := by
  cases child with
  | node c l r => exact h
  | nil =>
    cases t' with
    | nil => exact h.elim
    | node b' l' r' =>
      obtain ⟨rfl, hl, hr⟩ := h
      intro c hc
      simp only [entries_node, List.mem_cons, List.mem_append] at hc
      rcases hc with rfl | hc | hc
      · exact blankBlock_blank
      · exact hl c hc
      · exact hr c hc

theorem searches_grows (h : Searches needed t next t' next' res) : Grows t t' := by
  induction h with
  | null => exact grows_refl _
  | refuse => exact grows_refl _
  | here => exact grows_refl _
  | left _ _ _ ih => exact ⟨rfl, grows_createChild ih, grows_refl _⟩
  | right _ _ _ _ ihl ihr => exact ⟨rfl, grows_createChild ihl, grows_createChild ihr⟩

theorem grows_entries (h : Grows t t') (hb : b ∈ entries t') : b ∈ entries t ∨ b.Blank := by
  induction t generalizing t' with
  | nil => exact Or.inr (h b hb)
  | node c l r hl hr =>
    cases t' with
    | nil => exact h.elim
    | node c' l' r' =>
      obtain ⟨rfl, hgl, hgr⟩ := h
      simp only [entries_node, List.mem_cons, List.mem_append] at hb ⊢
      rcases hb with rfl | hb | hb
      · exact Or.inl (Or.inl rfl)
      · exact (hl hgl hb).imp (fun h => Or.inr (Or.inl h)) id
      · exact (hr hgr hb).imp (fun h => Or.inr (Or.inr h)) id

/-- The live blocks, with the first address of each range. -/
def lives (lo : ℤ) (t : MemoryTree) : List (ℤ × MemoryBlock) :=
  (placed lo t).filter (fun q => q.2.live)

theorem mem_lives {q : ℤ × MemoryBlock} : q ∈ lives lo t ↔ q ∈ placed lo t ∧ q.2.live := by
  simp [lives]

theorem lives_eq_nil (h : ∀ b ∈ entries t, ¬ b.live) : lives lo t = [] := by
  simp only [lives, List.filter_eq_nil_iff, decide_eq_true_eq]
  intro q hq
  exact h q.2 (entries_of_placed hq)

theorem grows_lives (lo : ℤ) (h : Grows t t') : lives lo t' = lives lo t := by
  induction t generalizing t' lo with
  | nil => exact lives_eq_nil fun b hb hlive => hlive (h b hb).1
  | node c l r hl hr =>
    cases t' with
    | nil => exact h.elim
    | node c' l' r' =>
      obtain ⟨rfl, hgl, hgr⟩ := h
      have hl' := hl lo hgl
      have hr' := hr (lo + c'.size.tdiv 2) hgr
      simp only [lives] at hl' hr' ⊢
      simp only [placed_node, List.filter_cons, List.filter_append, hl', hr']

/-- A block handed out is in the tree, is not live and has the size asked for. -/
theorem searches_found (h : Searches needed t next t' next' (some a)) :
    ∃ b ∈ entries t', b.addr = a ∧ ¬ b.live ∧ b.size = needed := by
  generalize hres : some a = res at h
  induction h with
  | null => cases hres
  | refuse => cases hres
  | here _ hf =>
    cases hres
    exact ⟨_, List.mem_cons_self, rfl, not_not.mpr hf.2.1, hf.1⟩
  | left _ _ _ ih =>
    obtain ⟨b, hb, hba⟩ := ih hres
    exact ⟨b, by simp [hb], hba⟩
  | right _ _ _ _ _ ihr =>
    obtain ⟨b, hb, hba⟩ := ihr hres
    exact ⟨b, by simp [hb], hba⟩

/-! The search keeps the tree well formed. -/

theorem createChild_shape (hk : b.size.tdiv 2 = 2 ^ k) (hs : Shape k child) :
    Shape k (createChild b child next).1 := by
  cases child with
  | node c l r => exact hs
  | nil => cases k <;> simp_all [createChild, Shape, blankBlock]

theorem createChild_linked (h : Linked (some b.addr) child) :
    Linked (some b.addr) (createChild b child next).1 := by
  cases child with
  | node c l r => exact h
  | nil => exact ⟨rfl, trivial, trivial⟩

/-- A block of size 1 is handed out or refused, so nothing is ever created below it. -/
theorem fits_of_leaf (hs : b.size = 1) (hn : 1 ≤ needed) (h : ¬ TooSmall b needed) :
    Fits b .nil .nil needed := by
  simp only [TooSmall, not_or, not_not] at h
  refine ⟨by omega, h.2, ?_⟩
  simp only [getUsedSpace, leftSpineUsed, rightSpineUsed]
  omega

theorem searches_shape (h : Searches needed t next t' next' res) (hn : 1 ≤ needed)
    (hs : Shape k t) : Shape k t' := by
  induction h generalizing k with
  | null => exact hs
  | refuse => exact hs
  | here => exact hs
  | left h hf _ ih =>
    obtain ⟨rfl, rfl, rfl⟩ | ⟨j, rfl, hj, hsl, hsr⟩ := shape_children hs
    · exact absurd (fits_of_leaf hs.1 hn h) hf
    · exact ⟨hs.1, ih (createChild_shape hj hsl), hsr⟩
  | right h hf _ _ ihl ihr =>
    obtain ⟨rfl, rfl, rfl⟩ | ⟨j, rfl, hj, hsl, hsr⟩ := shape_children hs
    · exact absurd (fits_of_leaf hs.1 hn h) hf
    · exact ⟨hs.1, ihl (createChild_shape hj hsl), ihr (createChild_shape hj hsr)⟩

theorem searches_linked (h : Searches needed t next t' next' res) (hl : Linked parent t) :
    Linked parent t' := by
  induction h generalizing parent with
  | null => exact hl
  | refuse => exact hl
  | here => exact hl
  | left _ _ _ ih => exact ⟨hl.1, ih (createChild_linked hl.2.1), hl.2.2⟩
  | right _ _ _ _ ihl ihr =>
    exact ⟨hl.1, ihl (createChild_linked hl.2.1), ihr (createChild_linked hl.2.2)⟩

/-- Addresses are those of before or come from the calls of `malloc` made meanwhile. -/
def Allocates (t : MemoryTree) (next : ℕ) (t' : MemoryTree) (next' : ℕ) : Prop :=
  next ≤ next' ∧ (∀ a ∈ addrs t', a ∈ addrs t ∨ (next ≤ a ∧ a < next')) ∧
    ((addrs t).Nodup → (∀ a ∈ addrs t, a < next) → (addrs t').Nodup)

theorem allocates_refl : Allocates t next t next :=
  ⟨le_refl _, fun _ h => Or.inl h, fun h _ => h⟩

theorem allocates_createChild
    (h : Allocates (createChild b child next).1 (createChild b child next).2 t' next') :
    Allocates child next t' next' := by
  cases child with
  | node c l r => exact h
  | nil =>
    obtain ⟨hle, hmem, hnodup⟩ := h
    simp only [createChild, blankBlock, addrs_node, addrs_nil, List.append_nil,
      List.mem_singleton] at hle hmem hnodup
    refine ⟨by omega, ?_, fun _ _ => hnodup (List.nodup_singleton _) (by omega)⟩
    intro a ha
    rcases hmem a ha with rfl | ha
    · exact Or.inr (by omega)
    · exact Or.inr (by omega)

theorem searches_allocates (h : Searches needed t next t' next' res) :
    Allocates t next t' next' := by
  induction h with
  | null => exact allocates_refl
  | refuse => exact allocates_refl
  | here => exact allocates_refl
  | left _ _ _ ih =>
    obtain ⟨hle, hmem, hnodup⟩ := allocates_createChild ih
    refine ⟨hle, ?_, ?_⟩
    · intro a ha
      simp only [addrs_node, List.mem_cons, List.mem_append] at ha ⊢
      rcases ha with rfl | ha | ha
      · simp
      · rcases hmem a ha with h | h <;> simp [h]
      · simp [ha]
    · intro hn hlt
      simp only [addrs_node, List.nodup_cons, List.nodup_append, List.mem_append,
        List.mem_cons] at hn hlt ⊢
      grind
  | right _ _ _ _ ihl ihr =>
    obtain ⟨hle, hmem, hnodup⟩ := allocates_createChild ihl
    obtain ⟨hle', hmem', hnodup'⟩ := allocates_createChild ihr
    refine ⟨hle.trans hle', ?_, ?_⟩
    · intro a ha
      simp only [addrs_node, List.mem_cons, List.mem_append] at ha ⊢
      rcases ha with rfl | ha | ha
      · simp
      · rcases hmem a ha with h | h
        · simp [h]
        · exact Or.inr (by omega)
      · rcases hmem' a ha with h | h
        · simp [h]
        · exact Or.inr (by omega)
    · intro hn hlt
      simp only [addrs_node, List.nodup_cons, List.nodup_append, List.mem_append,
        List.mem_cons] at hn hlt ⊢
      grind

end KernelSim
