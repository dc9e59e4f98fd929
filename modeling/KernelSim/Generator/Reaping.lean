import KernelSim.Memory.Merge

/-! The generator admits processes one step at a time, and its `SIGCHLD` handler can run between
any two of these steps. -/
namespace KernelSim
open KeyedTree Runs

/-- How far `main` has come with the process it is admitting. -/
inductive AdmissionPhase
  | idle
  /-- `traverse_MemorySegment` has returned `block` -/
  | found (idFromFile processSize time : ℤ) (block : ℕ)
  | reserved (idFromFile : ℤ)
  | forked (idFromFile pid : ℤ)
  | stamped (idFromFile pid : ℤ)
  deriving DecidableEq

/-- What `waitpid` reports about a child that ended. -/
inductive WaitStatus
  | exited (code : ℤ)
  | signaled (signal : ℤ)

/-- The generator between two of its steps. `helpers` are the scheduler and the clock, while they
have not been reaped. -/
structure Generator where
  segment : Segment
  phase : AdmissionPhase
  children : List ℤ
  helpers : List ℤ
  schedulerPid : ℤ
  messages : List (ℤ × ℤ)

inductive GeneratorAct
  | search (idFromFile processSize time : ℤ)
  | reserve
  | createProcess (pid : ℤ)
  | updateId
  | msgsnd
  | reap (pid : ℤ) (status : WaitStatus) (time : ℤ)

/-- One round of the loop of `handle_children_termination`. -/
def Generator.reapChild (g : Generator) (pid : ℤ) (status : WaitStatus) (time : ℤ) : Generator :=
  { g with
    children := g.children.filter (· ≠ pid)
    helpers := g.helpers.filter (· ≠ pid)
    segment := match status with
      | .exited _ => (deallocateMemory g.segment pid time).1
      | .signaled _ => g.segment }

/-- The steps of an admission, and the handler. The exit of the scheduler has no step: the
handler then calls `exit` itself. -/
inductive GeneratorStep (g : Generator) : GeneratorAct → Generator → Prop
  | searchFound {seg : Segment} {id size time : ℤ} {block : ℕ} (hp : g.phase = .idle)
      (hf : findBlock g.segment size = some (seg, some block)) :
      GeneratorStep g (.search id size time)
        { g with segment := seg, phase := .found id size time block }
  | searchFailed {seg : Segment} {id size time : ℤ} (hp : g.phase = .idle)
      (hf : findBlock g.segment size = some (seg, none)) :
      GeneratorStep g (.search id size time) { g with segment := seg }
  | reserve {id size time : ℤ} {block : ℕ} (hp : g.phase = .found id size time block) :
      GeneratorStep g .reserve
        { g with segment := reserveBlock g.segment block id size time, phase := .reserved id }
  | createProcess {id pid : ℤ} (hp : g.phase = .reserved id) (hpid : 0 < pid)
      (hc : pid ∉ g.children) (hh : pid ∉ g.helpers) :
      GeneratorStep g (.createProcess pid)
        { g with children := pid :: g.children, phase := .forked id pid }
  | updateId {id pid : ℤ} (hp : g.phase = .forked id pid) :
      GeneratorStep g .updateId
        { g with segment := updateId g.segment id pid, phase := .stamped id pid }
  | msgsnd {id pid : ℤ} (hp : g.phase = .stamped id pid) :
      GeneratorStep g .msgsnd { g with messages := g.messages ++ [(id, pid)], phase := .idle }
  | reap {pid time : ℤ} {status : WaitStatus} (hpos : 0 < pid)
      (hpid : pid ∈ g.children ∨ pid ∈ g.helpers)
      (hs : ∀ code, status = .exited code → pid ≠ g.schedulerPid) :
      GeneratorStep g (.reap pid status time) (g.reapChild pid status time)

/-- One step of an admission, or the handler; `none` where it is not the next one. -/
def Generator.next (g : Generator) : GeneratorAct → Option Generator
  | .search id size time =>
    if g.phase = .idle then
      match findBlock g.segment size with
      | some (seg, some block) => some { g with segment := seg, phase := .found id size time block }
      | some (seg, none) => some { g with segment := seg }
      | none => none
    else none
  | .reserve =>
    match g.phase with
    | .found id size time block =>
      some { g with segment := reserveBlock g.segment block id size time, phase := .reserved id }
    | _ => none
  | .createProcess pid =>
    match g.phase with
    | .reserved id =>
      if 0 < pid ∧ pid ∉ g.children ∧ pid ∉ g.helpers then
        some { g with children := pid :: g.children, phase := .forked id pid }
      else none
    | _ => none
  | .updateId =>
    match g.phase with
    | .forked id pid =>
      some { g with segment := KernelSim.updateId g.segment id pid, phase := .stamped id pid }
    | _ => none
  | .msgsnd =>
    match g.phase with
    | .stamped id pid => some { g with messages := g.messages ++ [(id, pid)], phase := .idle }
    | _ => none
  | .reap pid status time =>
    if 0 < pid ∧ (pid ∈ g.children ∨ pid ∈ g.helpers) then
      match status with
      | .exited code => if pid ≠ g.schedulerPid then some (g.reapChild pid (.exited code) time) else none
      | .signaled signal => some (g.reapChild pid (.signaled signal) time)
    else none

/-- The segment is initialised and the scheduler and the clock are forked. -/
def initialGenerator (schedulerPid clkPid : ℤ) : Generator :=
  { segment := initializeMemorySegment 1024 0
    phase := .idle
    children := []
    helpers := [schedulerPid, clkPid]
    schedulerPid
    messages := [] }

/-- The block an interrupted admission is about to reserve. -/
def AdmissionPhase.block : AdmissionPhase → Option ℕ
  | .found _ _ _ block => some block
  | _ => none

/-- The id written into a block that has no pid yet. -/
def AdmissionPhase.unstampedId : AdmissionPhase → Option ℤ
  | .reserved id => some id
  | .forked id _ => some id
  | _ => none

/-- The child whose pid is not in the tree yet. -/
def AdmissionPhase.unstampedPid : AdmissionPhase → Option ℤ
  | .forked _ pid => some pid
  | _ => none

/-- Outside an admission the memory is held by exactly the children not reaped yet. -/
def HeldByChildren (g : Generator) : Prop :=
  (g.phase = .idle ∨ ∃ id pid, g.phase = .stamped id pid) → ∀ pid,
    (∃ b ∈ entries g.segment.root, b.live ∧ b.processPid = pid) ↔ pid ∈ g.children

/-- A block that carries a pid, carries an id, or is about to be reserved. -/
def InUse (g : Generator) (b : MemoryBlock) : Prop :=
  b.live ∨ b.idFromFile ≠ -1 ∨ g.phase.block = some b.addr

/-- Freeing the block of `pid` merges away no other block in use. -/
def MergeSpares (g : Generator) (pid : ℤ) : Prop :=
  ∀ fs b l r, g.segment.root = plug fs (.node b l r) → b.processPid = pid →
    ∀ c ∈ absorbed fs (.node b l r), c.addr ≠ b.addr → ¬ InUse g c

/-- The condition of `MergeSpares` at one place. -/
def SparesAt (g : Generator) (pid : ℤ) (fs : List (Frame MemoryBlock)) : MemoryTree → Prop
  | .nil => True
  | .node b l r => b.processPid = pid →
    ∀ c ∈ absorbed fs (.node b l r), c.addr ≠ b.addr → ¬ InUse g c

theorem mergeSpares_iff {g : Generator} {pid : ℤ} :
    (∀ place ∈ places g.segment.root, SparesAt g pid place.1 place.2) ↔ MergeSpares g pid := by
  constructor
  · intro h fs b l r hroot
    exact h ⟨fs, .node b l r⟩ (mem_places.mpr hroot)
  · rintro h ⟨fs, t⟩ hplace
    cases t with
    | nil => trivial
    | node b l r => exact h fs b l r (mem_places.mp hplace)

instance (g : Generator) (b : MemoryBlock) : Decidable (InUse g b) :=
  inferInstanceAs (Decidable (b.live ∨ b.idFromFile ≠ -1 ∨ g.phase.block = some b.addr))

instance (g : Generator) (pid : ℤ) (fs : List (Frame MemoryBlock)) :
    ∀ t, Decidable (SparesAt g pid fs t)
  | .nil => isTrue trivial
  | .node b l r => inferInstanceAs (Decidable
      (b.processPid = pid → ∀ c ∈ absorbed fs (.node b l r), c.addr ≠ b.addr → ¬ InUse g c))

instance (g : Generator) (pid : ℤ) : Decidable (MergeSpares g pid) :=
  decidable_of_iff _ mergeSpares_iff

/-- Ids are unique, and a process ends by an exit, handled once its pid is in the tree, that frees
no other block in use. -/
def EndsOrderly (g : Generator) : GeneratorAct → Prop
  | .search id _ _ => id ≠ -1 ∧ ∀ b ∈ entries g.segment.root, b.live → b.idFromFile ≠ id
  | .reap pid status _ => g.phase.unstampedPid ≠ some pid ∧
      (pid ∈ g.children → ∃ code, status = .exited code) ∧ MergeSpares g pid
  | _ => True

instance : ∀ status : WaitStatus, Decidable (∃ code, status = .exited code)
  | .exited code => isTrue ⟨code, rfl⟩
  | .signaled _ => isFalse nofun

instance : ∀ g a, Decidable (EndsOrderly g a)
  | g, .search id _ _ => inferInstanceAs (Decidable
      (id ≠ -1 ∧ ∀ b ∈ entries g.segment.root, b.live → b.idFromFile ≠ id))
  | g, .reap pid status _ => inferInstanceAs (Decidable (g.phase.unstampedPid ≠ some pid ∧
      (pid ∈ g.children → ∃ code, status = .exited code) ∧ MergeSpares g pid))
  | _, .reserve => isTrue trivial
  | _, .createProcess _ => isTrue trivial
  | _, .updateId => isTrue trivial
  | _, .msgsnd => isTrue trivial

/-- Exactly one block waits for a pid under this id. -/
def Awaits (seg : Segment) (id : ℤ) : Prop :=
  id ≠ -1 ∧ ∃ b ∈ entries seg.root, ¬ b.live ∧ b.idFromFile = id ∧
    ∀ c ∈ entries seg.root, c.idFromFile = id → c.addr = b.addr

/-- What an admission under way relies on. -/
def PhaseInv (g : Generator) : Prop :=
  match g.phase with
  | .found id _ _ block => id ≠ -1 ∧ (∃ b ∈ entries g.segment.root, b.addr = block ∧ ¬ b.live) ∧
      ∀ b ∈ entries g.segment.root, b.idFromFile ≠ id
  | .reserved id => Awaits g.segment id
  | .forked id pid => Awaits g.segment id ∧ pid ∈ g.children
  | .idle | .stamped _ _ => True

structure GeneratorInv (g : Generator) : Prop where
  wellFormed : WellFormed g.segment
  positive : ∀ pid ∈ g.children, 0 < pid
  held : ∀ pid, (∃ b ∈ entries g.segment.root, b.live ∧ b.processPid = pid) ↔
    pid ∈ g.children ∧ g.phase.unstampedPid ≠ some pid
  single : ∀ b ∈ entries g.segment.root, ∀ c ∈ entries g.segment.root, b.live →
    b.processPid = c.processPid → b.addr = c.addr
  quiet : ∀ b ∈ entries g.segment.root, ¬ b.live →
    b.idFromFile = -1 ∨ g.phase.unstampedId = some b.idFromFile
  phase : PhaseInv g

variable {g g' : Generator} {a : GeneratorAct} {seg : Segment} {b : MemoryBlock} {t t' : MemoryTree}
  {id pid size time : ℤ} {block : ℕ} {res : Option ℕ} {code : ℤ}

theorem grows_live (h : Grows t t') : b ∈ entries t' ∧ b.live ↔ b ∈ entries t ∧ b.live := by
  have key : ∀ t : MemoryTree, b ∈ entries t ∧ b.live ↔ ∃ x, (x, b) ∈ lives 0 t := by
    intro t
    constructor
    · rintro ⟨hb, hl⟩
      obtain ⟨x, hx⟩ := placed_of_entries 0 hb
      exact ⟨x, mem_lives.mpr ⟨hx, hl⟩⟩
    · rintro ⟨x, hx⟩
      exact ⟨entries_of_placed (mem_lives.mp hx).1, (mem_lives.mp hx).2⟩
  rw [key, key, grows_lives 0 h]

/-- What a search leaves for the rest of the admission. -/
theorem generatorInv_search (hi : GeneratorInv g) (hp : g.phase = .idle)
    (hf : findBlock g.segment size = some (seg, res)) :
    GeneratorInv { g with segment := seg } := by
  obtain ⟨j, -, -, hs⟩ := findBlock_some hf
  have hg := searches_grows hs
  refine ⟨findBlock_wellFormed hi.wellFormed hf, hi.positive, ?_, ?_, ?_, ?_⟩
  · intro pid
    rw [← hi.held pid]
    constructor
    · rintro ⟨b, hb, hl, hbp⟩
      exact ⟨b, ((grows_live hg).mp ⟨hb, hl⟩).1, hl, hbp⟩
    · rintro ⟨b, hb, hl, hbp⟩
      exact ⟨b, ((grows_live hg).mpr ⟨hb, hl⟩).1, hl, hbp⟩
  · intro b hb c hc hl hbc
    have hlc : c.live := fun h => hl (hbc.trans h)
    exact hi.single b ((grows_live hg).mp ⟨hb, hl⟩).1 c ((grows_live hg).mp ⟨hc, hlc⟩).1 hl hbc
  · intro b hb hl
    rcases grows_entries hg hb with h | h
    · exact hi.quiet b h hl
    · exact Or.inl h.2.1
  · simp [PhaseInv, hp]

/-- A search that succeeds finds a block no process holds, and its id is new to the tree. -/
theorem phaseInv_found (hi : GeneratorInv g) (hp : g.phase = .idle) (hid : id ≠ -1)
    (hids : ∀ b ∈ entries g.segment.root, b.live → b.idFromFile ≠ id)
    (hf : findBlock g.segment size = some (seg, some block)) :
    (∃ b ∈ entries seg.root, b.addr = block ∧ ¬ b.live) ∧
      ∀ b ∈ entries seg.root, b.idFromFile ≠ id := by
  obtain ⟨j, -, -, hs⟩ := findBlock_some hf
  obtain ⟨b, hb, haddr, hlive, -⟩ := searches_found hs
  refine ⟨⟨b, hb, haddr, hlive⟩, ?_⟩
  intro b hb
  rcases grows_entries (searches_grows hs) hb with h | h
  · by_cases hl : b.live
    · exact hids b h hl
    · rcases hi.quiet b h hl with h | h
      · rw [h]
        exact hid.symm
      · simp [hp, AdmissionPhase.unstampedId] at h
  · rw [h.2.1]
    exact hid.symm

theorem mem_entries_write {f : MemoryBlock → MemoryBlock} :
    b ∈ entries (seg.write block f).root ↔
      ∃ c ∈ entries seg.root, b = if c.isAt block then f c else c := by
  rw [Segment.write, entries_update, List.mem_map]
  simp only [eq_comm]

theorem isAt_iff : b.isAt block = true ↔ b.addr = block := by simp [MemoryBlock.isAt]

/-- The reservation marks the block found with an id, and no other. -/
theorem generatorInv_reserve (time : ℤ) (hi : GeneratorInv g)
    (hp : g.phase = .found id size time block) :
    GeneratorInv { g with
      segment := reserveBlock g.segment block id size time, phase := .reserved id } := by
  have hphase := hi.phase
  simp only [PhaseInv, hp] at hphase
  obtain ⟨hid, ⟨b, hb, rfl, hbl⟩, hids⟩ := hphase
  let reserve : MemoryBlock → MemoryBlock :=
    fun b => { b with idFromFile := id, allocated := size }
  have hmem : ∀ c, c ∈ entries (reserveBlock g.segment b.addr id size time).root ↔
      ∃ d ∈ entries g.segment.root, c = if d.isAt b.addr then reserve d else d :=
    fun c => mem_entries_write
  have hpid : ∀ d : MemoryBlock,
      (if d.isAt b.addr then reserve d else d).processPid = d.processPid := by
    intro d
    split <;> rfl
  have haddr : ∀ d : MemoryBlock, (if d.isAt b.addr then reserve d else d).addr = d.addr := by
    intro d
    split <;> rfl
  have hlive : ∀ d : MemoryBlock, (if d.isAt b.addr then reserve d else d).live ↔ d.live := by
    intro d
    rw [MemoryBlock.live, hpid]
  refine ⟨wellFormed_log (wellFormed_write b.addr (fun _ => ⟨rfl, rfl, rfl⟩) hi.wellFormed),
    hi.positive, ?_, ?_, ?_, ?_⟩
  · intro pid
    have hheld := hi.held pid
    rw [hp] at hheld
    refine Iff.trans ?_ hheld
    constructor
    · rintro ⟨c, hc, hl, hcp⟩
      obtain ⟨d, hd, rfl⟩ := (hmem c).mp hc
      exact ⟨d, hd, (hlive d).mp hl, (hpid d).symm.trans hcp⟩
    · rintro ⟨d, hd, hl, hdp⟩
      exact ⟨_, (hmem _).mpr ⟨d, hd, rfl⟩, (hlive d).mpr hl, (hpid d).trans hdp⟩
  · intro c hc c' hc' hl heq
    obtain ⟨d, hd, rfl⟩ := (hmem c).mp hc
    obtain ⟨d', hd', rfl⟩ := (hmem c').mp hc'
    rw [hpid, hpid] at heq
    rw [haddr, haddr]
    exact hi.single d hd d' hd' ((hlive d).mp hl) heq
  · intro c hc hl
    obtain ⟨d, hd, rfl⟩ := (hmem c).mp hc
    by_cases hda : d.isAt b.addr
    · exact Or.inr (by simp [hda, reserve, AdmissionPhase.unstampedId])
    · rw [hlive] at hl
      have hq := hi.quiet d hd hl
      simp only [hp, AdmissionPhase.unstampedId, reduceCtorEq, or_false] at hq
      exact Or.inl (by simp [hda, hq])
  · refine ⟨hid, reserve b, (hmem _).mpr ⟨b, hb, ?_⟩, hbl, rfl, ?_⟩
    · simp [MemoryBlock.isAt]
    · intro c hc hcid
      obtain ⟨d, hd, rfl⟩ := (hmem c).mp hc
      rw [haddr]
      by_cases hda : d.isAt b.addr
      · exact isAt_iff.mp hda
      · simp only [hda, Bool.false_eq_true, if_false] at hcid
        exact absurd hcid (hids d hd)

/-- `update_id` stamps the block that was reserved. -/
theorem generatorInv_updateId (hi : GeneratorInv g) (hp : g.phase = .forked id pid) :
    GeneratorInv { g with segment := updateId g.segment id pid, phase := .stamped id pid } := by
  have hphase := hi.phase
  simp only [PhaseInv, hp] at hphase
  obtain ⟨⟨hid, b, hb, hbl, hbid, hu⟩, hchild⟩ := hphase
  have hpos := hi.positive pid hchild
  let stamp : MemoryBlock → MemoryBlock := fun b => { b with processPid := pid }
  have hfound : getProcessMemorySegment g.segment.root id (-1) = some b.addr := by
    refine getProcessMemorySegment_unique hb (Or.inl ⟨hid, hbid⟩) ?_
    rintro c hc (⟨-, hcid⟩ | ⟨hne, -⟩)
    · exact hu c hc hcid
    · exact absurd rfl hne
  have hseg : updateId g.segment id pid = g.segment.write b.addr stamp := by
    simp only [updateId, hfound]
    rfl
  have hmem : ∀ c, c ∈ entries (updateId g.segment id pid).root ↔
      ∃ d ∈ entries g.segment.root, c = if d.isAt b.addr then stamp d else d := by
    intro c
    rw [hseg]
    exact mem_entries_write
  have hself : ∀ d ∈ entries g.segment.root, d.isAt b.addr → d = b :=
    fun d hd hda => entry_unique hi.wellFormed.nodup hd hb (isAt_iff.mp hda)
  have hheld : ∀ q, (∃ b ∈ entries g.segment.root, b.live ∧ b.processPid = q) ↔
      q ∈ g.children ∧ pid ≠ q := by
    intro q
    have := hi.held q
    simpa [hp, AdmissionPhase.unstampedPid] using this
  -- no other block carries the pid: the child forked last is not in the tree yet
  have hother : ∀ d ∈ entries g.segment.root, d.processPid ≠ pid := by
    intro d hd hdp
    have hl : d.live := fun h => by omega
    exact ((hheld pid).mp ⟨d, hd, hl, hdp⟩).2 rfl
  refine ⟨?_, hi.positive, ?_, ?_, ?_, trivial⟩
  · rw [hseg]
    exact wellFormed_write b.addr (fun _ => ⟨rfl, rfl, rfl⟩) hi.wellFormed
  · intro q
    simp only [AdmissionPhase.unstampedPid, ne_eq, reduceCtorEq, not_false_eq_true, and_true]
    constructor
    · rintro ⟨c, hc, hl, rfl⟩
      obtain ⟨d, hd, rfl⟩ := (hmem c).mp hc
      by_cases hda : d.isAt b.addr
      · simpa [hda, stamp] using hchild
      · simp only [hda, Bool.false_eq_true, if_false] at hl ⊢
        exact ((hheld _).mp ⟨d, hd, hl, rfl⟩).1
    · intro hq
      by_cases hpq : pid = q
      · subst hpq
        refine ⟨stamp b, (hmem _).mpr ⟨b, hb, by simp [MemoryBlock.isAt]⟩, ?_, rfl⟩
        exact fun h => by simp [stamp] at h; omega
      · obtain ⟨d, hd, hl, hdp⟩ := (hheld q).mpr ⟨hq, hpq⟩
        have hda : d.isAt b.addr = false := by
          by_contra h
          rw [Bool.not_eq_false] at h
          exact hbl (hself d hd h ▸ hl)
        exact ⟨d, (hmem _).mpr ⟨d, hd, by simp [hda]⟩, hl, hdp⟩
  · intro c hc c' hc' hl heq
    obtain ⟨d, hd, rfl⟩ := (hmem c).mp hc
    obtain ⟨d', hd', rfl⟩ := (hmem c').mp hc'
    by_cases hda : d.isAt b.addr <;> by_cases hda' : d'.isAt b.addr
    · rw [hself d hd hda, hself d' hd' hda']
    · simp only [hda, hda', Bool.false_eq_true, if_true, if_false] at heq
      exact absurd heq.symm (hother d' hd')
    · simp only [hda, hda', Bool.false_eq_true, if_true, if_false] at heq
      exact absurd heq (hother d hd)
    · simp only [hda, hda', Bool.false_eq_true, if_false] at heq hl ⊢
      exact hi.single d hd d' hd' hl heq
  · intro c hc hl
    obtain ⟨d, hd, rfl⟩ := (hmem c).mp hc
    by_cases hda : d.isAt b.addr
    · exact absurd hl (by simp [hda, stamp, MemoryBlock.live]; omega)
    · simp only [hda, Bool.false_eq_true, if_false] at hl ⊢
      refine (hi.quiet d hd hl).imp (fun hq => hq) fun hq => ?_
      simp only [hp, AdmissionPhase.unstampedId, Option.some.injEq] at hq
      exact absurd (isAt_iff.mpr (hu d hd hq.symm)) hda

/-- What a release that spares the blocks in use keeps and what it does not bring back. -/
theorem deallocateMemory_spares (time : ℤ) (hi : GeneratorInv g) (hs : MergeSpares g pid) :
    (∀ c ∈ entries g.segment.root, InUse g c → c.processPid ≠ pid →
      c ∈ entries (deallocateMemory g.segment pid time).1.root) ∧
    ∀ c ∈ entries (deallocateMemory g.segment pid time).1.root,
      (c ∈ entries g.segment.root ∧ (c.live → c.processPid ≠ pid)) ∨
        ∃ d ∈ entries g.segment.root, c = d.release := by
  constructor
  · intro c hc huse hcp
    cases hlook : getProcessMemorySegment g.segment.root (-1) pid with
    | none =>
      obtain ⟨-, heq⟩ | ⟨a, ha, -⟩ := deallocateMemory_cases g.segment pid time
      · rw [heq]
        exact hc
      · rw [hlook] at ha
        cases ha
    | some a =>
      obtain ⟨fs, b, l, r, hroot, rfl, hbp, hkeep⟩ :=
        mem_deallocateMemory time hi.wellFormed hlook
      have hb : b ∈ entries g.segment.root := by
        rw [hroot, mem_entries_plug]
        exact Or.inl (by simp)
      have hne : c.addr ≠ b.addr := by
        intro h
        rw [entry_unique hi.wellFormed.nodup hc hb h] at hcp
        exact hcp hbp
      exact hkeep c hc hne fun hab => hs fs b l r hroot hbp c hab hne huse
  · intro c hc
    refine (deallocateMemory_entries hc).imp ?_ fun h => h
    rintro ⟨hold, hlook⟩
    refine ⟨hold, ?_⟩
    intro hl hcp
    have hm : Matches (-1) pid c := Or.inr ⟨fun h => hl (hcp.trans h), hcp⟩
    apply hlook
    refine getProcessMemorySegment_unique hold hm ?_
    rintro d hd (⟨hne, -⟩ | ⟨-, hdp⟩)
    · exact absurd rfl hne
    · exact (hi.single c hold d hd hl (hcp.trans hdp.symm)).symm

/-- A block that waits for its pid still waits after such a release. -/
theorem awaits_deallocation (time : ℤ) (hi : GeneratorInv g) (hs : MergeSpares g pid)
    (hpid : pid ≠ -1) (h : Awaits g.segment id) :
    Awaits (deallocateMemory g.segment pid time).1 id := by
  obtain ⟨hkeep, hback⟩ := deallocateMemory_spares time hi hs
  obtain ⟨hid, b, hb, hl, hbid, hu⟩ := h
  refine ⟨hid, b, hkeep b hb (Or.inr (Or.inl (hbid ▸ hid))) ?_, hl, hbid, ?_⟩
  · intro h
    exact hl fun h' => hpid (h.symm.trans h')
  · intro c hc hcid
    rcases hback c hc with ⟨hold, -⟩ | ⟨d, -, rfl⟩
    · exact hu c hold hcid
    · exact absurd hcid.symm hid

/-- The handler keeps the invariant when the child ended in order. -/
theorem generatorInv_reap {status : WaitStatus} {time : ℤ} (hi : GeneratorInv g) (hpos : 0 < pid)
    (hpid : pid ∈ g.children ∨ pid ∈ g.helpers)
    (hok : EndsOrderly g (.reap pid status time)) : GeneratorInv (g.reapChild pid status time) := by
  obtain ⟨hstamp, hexit, hspare⟩ := hok
  have hchildren : ∀ q, q ∈ g.children.filter (· ≠ pid) ↔ q ∈ g.children ∧ q ≠ pid := by
    simp
  have hpositive : ∀ q ∈ g.children.filter (· ≠ pid), 0 < q :=
    fun q hq => hi.positive q ((hchildren q).mp hq).1
  cases status with
  | signaled signal =>
    have hnot : pid ∉ g.children := by
      intro h
      obtain ⟨code, hcode⟩ := hexit h
      cases hcode
    have hsame : g.children.filter (· ≠ pid) = g.children := by
      rw [List.filter_eq_self]
      intro q hq
      simpa using fun h : q = pid => hnot (h ▸ hq)
    have heq : g.reapChild pid (.signaled signal) time =
        { g with helpers := g.helpers.filter (· ≠ pid) } := by
      simp only [Generator.reapChild, hsame]
    rw [heq]
    exact ⟨hi.1, hi.2, hi.3, hi.4, hi.5, hi.6⟩
  | exited code =>
    obtain ⟨hkeep, hback⟩ := deallocateMemory_spares time hi hspare
    refine ⟨deallocateMemory_wellFormed hi.wellFormed, hpositive, ?_, ?_, ?_, ?_⟩
    · intro q
      simp only [Generator.reapChild, hchildren]
      constructor
      · rintro ⟨c, hc, hl, rfl⟩
        rcases hback c hc with ⟨hold, hne⟩ | ⟨d, -, rfl⟩
        · obtain ⟨hmem, hphase⟩ := (hi.held _).mp ⟨c, hold, hl, rfl⟩
          exact ⟨⟨hmem, hne hl⟩, hphase⟩
        · exact absurd rfl hl
      · rintro ⟨⟨hmem, hne⟩, hphase⟩
        obtain ⟨c, hc, hl, rfl⟩ := (hi.held q).mpr ⟨hmem, hphase⟩
        exact ⟨c, hkeep c hc (Or.inl hl) hne, hl, rfl⟩
    · intro b hb c hc hl heq
      have hlc : c.live := fun h => hl (heq.trans h)
      rcases hback b hb with ⟨hb, -⟩ | ⟨d, -, rfl⟩
      · rcases hback c hc with ⟨hc, -⟩ | ⟨d, -, rfl⟩
        · exact hi.single b hb c hc hl heq
        · exact absurd rfl hlc
      · exact absurd rfl hl
    · intro c hc hl
      rcases hback c hc with ⟨hold, -⟩ | ⟨d, -, rfl⟩
      · exact hi.quiet c hold hl
      · exact Or.inl rfl
    · have hphase := hi.phase
      unfold PhaseInv at hphase ⊢
      simp only [Generator.reapChild]
      cases hp : g.phase with
      | idle => trivial
      | stamped id q => trivial
      | found id size time' block =>
        rw [hp] at hphase
        obtain ⟨hid, ⟨b, hb, hba, hl⟩, hids⟩ := hphase
        refine ⟨hid, ⟨b, hkeep b hb ?_ ?_, hba, hl⟩, ?_⟩
        · exact Or.inr (Or.inr (by rw [hp, hba]; rfl))
        · intro h
          exact hl fun h' => by omega
        · intro c hc
          rcases hback c hc with ⟨hold, -⟩ | ⟨d, -, rfl⟩
          · exact hids c hold
          · exact hid.symm
      | reserved id =>
        rw [hp] at hphase
        exact awaits_deallocation time hi hspare (by omega) hphase
      | forked id q =>
        rw [hp] at hphase hstamp
        refine ⟨awaits_deallocation time hi hspare (by omega) hphase.1, ?_⟩
        refine (hchildren q).mpr ⟨hphase.2, ?_⟩
        rintro rfl
        exact hstamp rfl

theorem generatorInv_step (hi : GeneratorInv g) (hok : EndsOrderly g a)
    (h : GeneratorStep g a g') : GeneratorInv g' := by
  cases h with
  | searchFound hp hf =>
    have hs := generatorInv_search hi hp hf
    have hphase := phaseInv_found hi hp hok.1 hok.2 hf
    have hheld := hs.held
    have hquiet := hs.quiet
    simp only [hp] at hheld hquiet
    exact ⟨hs.wellFormed, hs.positive, hheld, hs.single, hquiet, hok.1, hphase⟩
  | searchFailed hp hf => exact generatorInv_search hi hp hf
  | reserve hp => exact generatorInv_reserve _ hi hp
  | @createProcess id pid hp hpid hc hh =>
    have hphase := hi.phase
    have hheld := hi.held
    have hquiet := hi.quiet
    simp only [PhaseInv, hp] at hphase
    simp only [hp, AdmissionPhase.unstampedPid, AdmissionPhase.unstampedId] at hheld hquiet
    refine ⟨hi.wellFormed, ?_, ?_, hi.single, hquiet, hphase, List.mem_cons_self⟩
    · intro q hq
      rcases List.mem_cons.mp hq with rfl | hq
      · exact hpid
      · exact hi.positive q hq
    · intro q
      rw [hheld q]
      simp only [AdmissionPhase.unstampedPid, List.mem_cons, ne_eq, Option.some.injEq]
      constructor
      · rintro ⟨hq, -⟩
        exact ⟨Or.inr hq, fun h => hc (h ▸ hq)⟩
      · rintro ⟨rfl | hq, hne⟩
        · exact absurd rfl hne
        · exact ⟨hq, by simp⟩
  | updateId hp => exact generatorInv_updateId hi hp
  | msgsnd hp =>
    have hheld := hi.held
    have hquiet := hi.quiet
    simp only [hp] at hheld hquiet
    exact ⟨hi.wellFormed, hi.positive, hheld, hi.single, hquiet, trivial⟩
  | reap hpos hpid hs => exact generatorInv_reap hi hpos hpid hok

theorem generatorInv_initial (schedulerPid clkPid : ℤ) :
    GeneratorInv (initialGenerator schedulerPid clkPid) := by
  have hentries : ∀ b ∈ entries (initialGenerator schedulerPid clkPid).segment.root,
      b = blankBlock 0 1024 none := by
    simp [initialGenerator, initializeMemorySegment]
  refine ⟨wellFormed_initial, by simp [initialGenerator], ?_, ?_, ?_, trivial⟩
  · intro pid
    simp only [initialGenerator, List.not_mem_nil, false_and, iff_false]
    rintro ⟨b, hb, hl, -⟩
    rw [hentries b hb] at hl
    exact hl rfl
  · intro b hb c hc _ _
    rw [hentries b hb, hentries c hc]
  · intro b hb _
    rw [hentries b hb]
    exact Or.inl rfl

theorem heldByChildren_of_inv (hi : GeneratorInv g) : HeldByChildren g := by
  intro hp pid
  rw [hi.held pid]
  have : g.phase.unstampedPid = none := by
    rcases hp with h | ⟨_, _, h⟩ <;> rw [h] <;> rfl
  simp [this]

/-- Along every run in which ids are unique and children end in order, the memory handed out is
that of the children not reaped yet. -/
theorem heldByChildren_of_endsOrderly (schedulerPid clkPid : ℤ) (as : List GeneratorAct)
    (h : Throughout GeneratorStep (initialGenerator schedulerPid clkPid) as EndsOrderly) :
    Always GeneratorStep (initialGenerator schedulerPid clkPid) as HeldByChildren := by
  intro pre t hp ht
  exact heldByChildren_of_inv (ht.invariant_of_throughout (h.of_prefix hp)
    (fun _ _ _ hi hc hr => generatorInv_step hi hc hr) (generatorInv_initial _ _))

theorem generatorStep_of_next (h : g.next a = some g') : GeneratorStep g a g' := by
  cases a with
  | search id size time =>
    simp only [Generator.next, Option.ite_none_right_eq_some] at h
    obtain ⟨hp, h⟩ := h
    split at h <;> cases h
    · exact .searchFound hp ‹_›
    · exact .searchFailed hp ‹_›
  | reserve =>
    simp only [Generator.next] at h
    split at h <;> cases h
    exact .reserve ‹_›
  | createProcess pid =>
    simp only [Generator.next] at h
    split at h
    · rename_i hp
      simp only [Option.ite_none_right_eq_some, Option.some.injEq] at h
      obtain ⟨⟨hpos, hchildren, hhelpers⟩, rfl⟩ := h
      exact .createProcess hp hpos hchildren hhelpers
    · cases h
  | updateId =>
    simp only [Generator.next] at h
    split at h <;> cases h
    exact .updateId ‹_›
  | msgsnd =>
    simp only [Generator.next] at h
    split at h <;> cases h
    exact .msgsnd ‹_›
  | reap pid status time =>
    simp only [Generator.next, Option.ite_none_right_eq_some] at h
    obtain ⟨⟨hpos, hpid⟩, h⟩ := h
    cases status with
    | exited code =>
      simp only [Option.ite_none_right_eq_some, Option.some.injEq] at h
      obtain ⟨hne, rfl⟩ := h
      exact .reap hpos hpid fun _ _ => hne
    | signaled signal =>
      cases h
      exact .reap hpos hpid nofun

/-- What an action leads to is the result of the function. -/
theorem generatorStep_iff_next : GeneratorStep g a g' ↔ g.next a = some g' := by
  refine ⟨fun h => ?_, generatorStep_of_next⟩
  cases h with
  | searchFound hp hf | searchFailed hp hf => simp only [Generator.next, hp, hf, if_true]
  | reserve hp | updateId hp | msgsnd hp => simp only [Generator.next, hp]
  | createProcess hp hpid hc hh => simp [Generator.next, hp, hpid, hc, hh]
  | @reap pid time status hpos hpid hs =>
    cases status with
    | exited code => simp [Generator.next, hpos, hpid, hs code rfl]
    | signaled signal => simp [Generator.next, hpos, hpid]

/-- Two of three children end, and the block of the second merges with the buddy that the first left
free. -/
def orderlyRun : List GeneratorAct :=
  [.search 1 512 0, .reserve, .createProcess 102, .updateId, .msgsnd,
    .search 2 256 0, .reserve, .createProcess 103, .updateId, .msgsnd,
    .search 3 256 0, .reserve, .createProcess 104, .updateId, .msgsnd,
    .reap 103 (.exited 0) 4, .reap 104 (.exited 0) 6]

theorem heldByChildren_of_orderlyRun :
    (∃ g, Trace GeneratorStep (initialGenerator 100 101) orderlyRun g ∧ g.phase = .idle ∧
      g.children = [102] ∧ (entries g.segment.root).map (·.size) = [1024, 512, 512]) ∧
    Always GeneratorStep (initialGenerator 100 101) orderlyRun HeldByChildren := by
  have hexec : (execute EndsOrderly Generator.next (initialGenerator 100 101) orderlyRun).any
      (fun g => g.phase = .idle ∧ g.children = [102] ∧
        (entries g.segment.root).map (·.size) = [1024, 512, 512]) = true := by
    decide +kernel
  obtain ⟨g, hrun, htest⟩ := exists_trace_of_execute (fun _ _ _ => generatorStep_of_next) hexec
  refine ⟨⟨g, hrun.mono fun _ _ _ h => h.2, of_decide_eq_true htest⟩, ?_⟩
  exact heldByChildren_of_endsOrderly 100 101 orderlyRun
    (throughout_of_execute (fun _ _ _ => generatorStep_iff_next.mp) (Option.isSome_of_any hexec))

/-- A child killed by a signal keeps its memory, and so does one that exits before `update_id`. -/
theorem reapedChildren_hold_memory :
    ¬ Always GeneratorStep (initialGenerator 100 101)
      [.search 1 100 0, .reserve, .createProcess 102, .updateId, .msgsnd,
        .reap 102 (.signaled 9) 3] HeldByChildren ∧
    ¬ Always GeneratorStep (initialGenerator 100 101)
      [.search 1 100 0, .reserve, .createProcess 102, .reap 102 (.exited 0) 0, .updateId]
      HeldByChildren := by
  have hfork : ∀ {g₁ g₂ g₃}, GeneratorStep (initialGenerator 100 101) (.search 1 100 0) g₁ →
      GeneratorStep g₁ .reserve g₂ → GeneratorStep g₂ (.createProcess 102) g₃ →
      Trace GeneratorStep (initialGenerator 100 101) [.search 1 100 0, .reserve, .createProcess 102]
        g₃ :=
    fun h₁ h₂ h₃ => ((Trace.refl.snoc h₁).snoc h₂).snoc h₃
  have hrun := hfork (.searchFound rfl rfl) (.reserve rfl)
    (.createProcess rfl (by decide) (by decide) (by decide))
  constructor
  · intro h
    have hend := h _ _ (List.prefix_refl _) (((hrun.snoc (.updateId rfl)).snoc (.msgsnd rfl)).snoc
      (.reap (by decide) (Or.inl (by decide)) (fun _ h => nomatch h)))
    exact absurd ((hend (Or.inl rfl) 102).mp (by decide)) (by decide)
  · intro h
    have hend := h _ _ (List.prefix_refl _) ((hrun.snoc
      (.reap (by decide) (Or.inl (by decide)) (fun _ _ => by decide))).snoc (.updateId rfl))
    exact absurd ((hend (Or.inr ⟨1, 102, rfl⟩) 102).mp (by decide)) (by decide)

end KernelSim
