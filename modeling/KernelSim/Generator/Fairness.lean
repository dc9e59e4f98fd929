import KernelSim.Generator.Admission
import KernelSim.Memory.Refusal
import KernelSim.Memory.SlotTable

/-! First come, first served: of the processes that need blocks of one size none overtakes another
on its way to the scheduler, as long as memory is given back between two ticks only. -/
namespace KernelSim
open KeyedTree Runs

namespace Intake

/-- The processes refused in this tick: memory for them would still be refused. -/
def passedOver (g : Intake) : List PCB :=
  match g.point with
  | .serve => g.tempQueue.toList
  | .restore => g.waitingQueue.toList ++ g.tempQueue.toList
  | .admitArrived => g.waitingQueue.toList
  | .top => []
  | .check => []

/-- The processes that wait, the one that arrived first at the front. -/
def line (g : Intake) : List PCB :=
  match g.point with
  | .restore => g.waitingQueue.toList ++ g.tempQueue.toList
  | _ => g.tempQueue.toList ++ g.waitingQueue.toList

/-- Sent, waiting or still in `pq`: all processes, in the order in which they go. -/
def order (g : Intake) : List Process := (g.sent ++ g.line).map PCB.process ++ g.pq.drain

end Intake

/-- The process gets a block of `n` bytes. -/
def Process.needs (n : ℤ) (p : Process) : Bool := slotWidth p.memorySize == n

/-- Memory is given back between two ticks of the loop. -/
def ReapsBetweenTicks (s : Admission) : AdmissionAct → Prop
  | .memory (.reap _ (.exited _) _) => s.intake.BetweenTicks
  | _ => True

/-- What an admission under way relies on: the block found is free, the child has a pid. -/
def Underway (m : Generator) : Prop :=
  match m.phase with
  | .found _ size _ block => 0 ≤ size ∧ ∀ b ∈ entries m.segment.root, b.addr = block → ¬ b.live
  | .forked _ pid => 0 < pid
  | _ => True

/-- The line keeps its order in every class of sizes, for whoever was passed over stays refused. -/
structure KeepsTurn (lines : List Process) (start : List Process) (s : Admission) : Prop
    extends IntakeInv lines s.intake where
  stampable : Stampable s.memory.segment
  underway : Underway s.memory
  refused : ∀ p ∈ s.intake.passedOver, Refuses s.memory.segment p.memorySize
  admitting : s.memory.phase ≠ .idle → ∃ id size, s.intake.request = some (id, size) ∧
    ∀ p ∈ s.intake.passedOver, slotWidth p.memorySize ≠ slotWidth size
  order : ∀ n, s.intake.order.filter (Process.needs n) = start.filter (Process.needs n)

variable {g g' : Intake} {a : IntakeAct} {s s' : Admission} {act : AdmissionAct} {m m' : Generator}
  {mact : GeneratorAct} {lines start : List Process} {seg seg' : Segment} {id size size' n : ℤ}
  {block : ℕ} {l l' r : List Process} {p : Process}

/-- Every rounding that ends gives the width of the slot. -/
theorem highestPowerOf2_of_le (h : size ≤ 2 ^ 30) :
    highestPowerOf2 size = some (slotWidth size) := by
  by_cases hpos : 1 ≤ size
  · exact highestPowerOf2_slotWidth hpos h
  · have hzero : size.toNat = 0 := by omega
    rw [highestPowerOf2, if_pos (by omega), slotWidth, hzero]
    rfl

/-- Requests of one width are answered alike. -/
theorem findBlock_congr (h : size ≤ 2 ^ 30) (h' : size' ≤ 2 ^ 30)
    (hwidth : slotWidth size = slotWidth size') : findBlock seg size = findBlock seg size' := by
  simp only [findBlock, highestPowerOf2_of_le h, highestPowerOf2_of_le h', hwidth]

theorem width_ne_of_found (hf : findBlock seg size = some (seg', some block))
    (hr : Refuses seg size') : slotWidth size' ≠ slotWidth size := by
  intro hwidth
  obtain ⟨seg₁, hr⟩ := hr
  obtain ⟨j, hj, -⟩ := findBlock_some hf
  obtain ⟨j', hj', -⟩ := findBlock_some hr
  rw [findBlock_congr (highestPowerOf2_some hj').1 (highestPowerOf2_some hj).1 hwidth, hf] at hr
  cases hr

/-- A process that moves past others of other widths keeps its place in its class. -/
theorem filter_swap (h : ∀ q ∈ l', slotWidth q.memorySize ≠ slotWidth p.memorySize) :
    (l ++ p :: (l' ++ r)).filter (Process.needs n) =
      (l ++ (l' ++ p :: r)).filter (Process.needs n) := by
  by_cases hp : p.needs n = true
  · have hnone : l'.filter (Process.needs n) = [] := by
      rw [List.filter_eq_nil_iff]
      intro q hq hneeds
      have hpn : slotWidth p.memorySize = n := by simpa [Process.needs] using hp
      have hqn : slotWidth q.memorySize = n := by simpa [Process.needs] using hneeds
      exact h q hq (hqn.trans hpn.symm)
    simp [hp, hnone]
  · simp [hp]

theorem widths_map {l : List PCB} (h : ∀ q ∈ l, slotWidth q.memorySize ≠ slotWidth p.memorySize) :
    ∀ q ∈ l.map PCB.process, slotWidth q.memorySize ≠ slotWidth p.memorySize := by
  intro q hq
  obtain ⟨q', hq', rfl⟩ := List.mem_map.mp hq
  exact h q' hq'

/-- A step of the loop keeps the order of a class, when what it sends was not turned away before. -/
theorem order_step (hs : g.QueuesSound) (h : IntakeStep g a g')
    (hgrant : a.answer = some true → ∀ id size, g.request = some (id, size) →
      ∀ p ∈ g.passedOver, slotWidth p.memorySize ≠ slotWidth size) (n : ℤ) :
    g'.order.filter (Process.needs n) = g.order.filter (Process.needs n) := by
  have htemp : g.point ≠ .serve → g.point ≠ .restore → g.tempQueue.toList = [] := hs.tempNil
  have hempty : (queueInit 100 emptyFront).toList = [] := rfl
  cases h with
  | tick => rfl
  | newTick hp hne => simp [Intake.order, Intake.line, hp, hempty, htemp]
  | sameTick hp heq => simp [Intake.order, Intake.line, hp]
  | serveGranted hp hq =>
    obtain ⟨-, hlist⟩ := queueDequeue_spec hs.waiting (queueSize_pos hq)
    have hpassed := hgrant rfl (queueFront g.waitingQueue).idFromFile
      (queueFront g.waitingQueue).memorySize (by simp [Intake.request, hp, hq])
    simp only [Intake.passedOver, hp] at hpassed
    have hswap := filter_swap (l := g.sent.map PCB.process) (n := n)
      (r := (queueDequeue g.waitingQueue).toList.map PCB.process ++ g.pq.drain)
      (widths_map (p := (queueFront g.waitingQueue).process) hpassed)
    simpa [Intake.order, Intake.line, hp, hlist] using hswap
  | serveRefused hp hq =>
    obtain ⟨-, hlist⟩ := queueDequeue_spec hs.waiting (queueSize_pos hq)
    obtain ⟨-, hlist'⟩ := queueEnqueue_spec hs.temp (queueFront g.waitingQueue)
    simp [Intake.order, Intake.line, hp, hlist, hlist']
  | served hp hq =>
    simp [Intake.order, Intake.line, hp, queueEmpty_iff.mp hq]
  | restore hp hq =>
    obtain ⟨-, hlist⟩ := queueDequeue_spec hs.temp (queueSize_pos hq)
    obtain ⟨-, hlist'⟩ := queueEnqueue_spec hs.waiting (queueFront g.tempQueue)
    simp [Intake.order, Intake.line, hp, hlist, hlist']
  | restored hp hq =>
    simp [Intake.order, Intake.line, hp, queueEmpty_iff.mp hq]
  | admitGranted hp hq harr hsem =>
    have hpassed := hgrant rfl (pqTop g.pq).id (pqTop g.pq).memorySize (by
      simp only [Intake.request, hp, hq]
      rw [if_neg (by simp; omega)])
    simp only [Intake.passedOver, hp] at hpassed
    have hswap := filter_swap (l := g.sent.map PCB.process) (n := n) (r := (pqPop g.pq).drain)
      (widths_map (p := pqTop g.pq) hpassed)
    simpa [Intake.order, Intake.line, hp, PriorityQueue.drain_cons hq,
      htemp (by simp [hp]) (by simp [hp])] using hswap
  | @admitRefused pid shmId syncSemid hp hq harr hsem =>
    obtain ⟨-, hlist⟩ :=
      queueEnqueue_spec hs.waiting ((pqTop g.pq).newPcb pid shmId syncSemid)
    simp [Intake.order, Intake.line, hp, hlist, PriorityQueue.drain_cons hq]
  | post hp hnone => simp [Intake.order, Intake.line, hp]
  | announce hp hpq hq honce => simp [Intake.order, Intake.line, hp]
  | again hp hno => simp [Intake.order, Intake.line, hp]

/-- A step that gets no answer turns nobody away. -/
theorem passedOver_step (hs : g.QueuesSound) (h : IntakeStep g a g') (ha : a.answer = none) :
    ∀ p ∈ g'.passedOver, p ∈ g.passedOver := by
  have hempty : (queueInit 100 emptyFront).toList = [] := rfl
  cases h with
  | tick => exact fun p hp => hp
  | newTick hp hne => simp [Intake.passedOver, hempty]
  | served hp hq => simp [Intake.passedOver, hp, queueEmpty_iff.mp hq]
  | restore hp hq =>
    obtain ⟨-, hlist⟩ := queueDequeue_spec hs.temp (queueSize_pos hq)
    obtain ⟨-, hlist'⟩ := queueEnqueue_spec hs.waiting (queueFront g.tempQueue)
    simp [Intake.passedOver, hp, hlist, hlist']
  | restored hp hq => simp [Intake.passedOver, hp, queueEmpty_iff.mp hq]
  | sameTick hp heq => simp [Intake.passedOver]
  | post hp hnone => simp [Intake.passedOver]
  | announce hp hpq hq honce => simp [Intake.passedOver]
  | again hp hno => simp [Intake.passedOver]
  | _ => cases ha

/-- With the process that an answer turns away, if it does. -/
theorem passedOver_answer {granted : Bool} (hs : g.QueuesSound) (h : IntakeStep g a g')
    (ha : a.answer = some granted) (hr : g.request = some (id, size)) :
    ∀ p ∈ g'.passedOver, p ∈ g.passedOver ∨ (granted = false ∧ p.memorySize = size) := by
  cases h with
  | serveGranted hp hq => exact fun p hmem => Or.inl (by simpa [Intake.passedOver, hp] using hmem)
  | serveRefused hp hq =>
    obtain ⟨-, hlist⟩ := queueEnqueue_spec hs.temp (queueFront g.waitingQueue)
    simp only [Intake.request, hp, hq, Bool.false_eq_true, if_false, Option.some.injEq,
      Prod.mk.injEq] at hr
    obtain rfl := Option.some.inj ha
    intro p hmem
    simp only [Intake.passedOver, hp, hlist, List.mem_append, List.mem_singleton] at hmem ⊢
    rcases hmem with hmem | rfl
    · exact Or.inl hmem
    · exact Or.inr ⟨trivial, hr.2⟩
  | admitGranted hp hq harr hsem =>
    exact fun p hmem => Or.inl (by simpa [Intake.passedOver, hp] using hmem)
  | @admitRefused pid shmId syncSemid hp hq harr hsem =>
    obtain ⟨-, hlist⟩ :=
      queueEnqueue_spec hs.waiting ((pqTop g.pq).newPcb pid shmId syncSemid)
    simp only [Intake.request, hp, hq] at hr
    rw [if_neg (by simp; omega)] at hr
    simp only [Option.some.injEq, Prod.mk.injEq] at hr
    obtain rfl := Option.some.inj ha
    intro p hmem
    simp only [Intake.passedOver, hp, hlist, List.mem_append, List.mem_singleton] at hmem ⊢
    rcases hmem with hmem | rfl
    · exact Or.inl hmem
    · exact Or.inr ⟨trivial, hr.2⟩
  | _ => cases ha

/-- A request is for the memory of a process that was read. -/
theorem request_mem (hi : IntakeInv lines g) (hr : g.request = some (id, size)) :
    ∃ p ∈ lines, p.memorySize = size := by
  unfold Intake.request at hr
  split at hr
  · split at hr
    · cases hr
    · rename_i hq
      rw [Bool.not_eq_true] at hq
      obtain ⟨-, hlist⟩ := queueDequeue_spec hi.waiting (queueSize_pos hq)
      simp only [Option.some.injEq, Prod.mk.injEq] at hr
      refine ⟨(queueFront g.waitingQueue).process, hi.split.subset ?_, hr.2⟩
      simp [Intake.arrived, hlist]
  · split at hr
    · cases hr
    · rename_i hq
      rw [not_or, Bool.not_eq_true] at hq
      simp only [Option.some.injEq, Prod.mk.injEq] at hr
      refine ⟨pqTop g.pq, hi.split.subset (List.mem_append_left _ ?_), hr.2⟩
      exact PriorityQueue.mem_pqTop (PriorityQueue.size_pos hq.1)
  · cases hr

theorem refuses_trans (hst : Stampable m.segment) (hst' : Stampable m'.segment)
    (hd : Denser m.segment.root m'.segment.root) (h : ∀ p ∈ g.passedOver, Refuses m.segment p.memorySize) :
    ∀ p ∈ g.passedOver, Refuses m'.segment p.memorySize :=
  fun p hp => refuses_denser hst.wellFormed hst'.wellFormed hd (h p hp)

/-- An admission under way only fills the tree further. -/
theorem underway_step (hst : Stampable m.segment) (hu : Underway m) (ha : mact.Inner)
    (hquiet : ∀ pid code time, mact ≠ .reap pid (.exited code) time)
    (h : GeneratorStep m mact m') :
    Stampable m'.segment ∧ Denser m.segment.root m'.segment.root ∧ Underway m' := by
  cases h with
  | searchFound | searchFailed | msgsnd => exact absurd ha id
  | @reserve id size time block hp =>
    simp only [Underway, hp] at hu
    refine ⟨stampable_reserveBlock block time hst (Or.inl hu.1), denser_update ?_, trivial⟩
    intro c hc hat
    have hlive := hu.2 c hc (by simpa [MemoryBlock.isAt] using hat)
    exact ⟨fun h => absurd h hlive, used_le_of_not_live hlive hlive⟩
  | createProcess hp hpid hc hh => exact ⟨hst, denser_refl _, hpid⟩
  | @updateId id pid hp =>
    simp only [Underway, hp] at hu
    exact ⟨stampable_updateId id hst hu, updateId_denser id hst hu, trivial⟩
  | @reap pid time status hpos hpid hs =>
    cases status with
    | exited code => exact absurd rfl (hquiet pid code time)
    | signaled signal => exact ⟨hst, denser_refl _, hu⟩

/-- Between two ticks nobody has been passed over and no admission is under way. -/
theorem keepsTurn_reap {pid code time : ℤ} (hi : KeepsTurn lines start s) (hb : s.intake.BetweenTicks) :
    KeepsTurn lines start { s with memory := s.memory.reapChild pid (.exited code) time } := by
  have hnone : s.intake.passedOver = [] := by
    rcases hb with hp | hp <;> simp only [Intake.passedOver, hp]
  have hidle : s.memory.phase = .idle := by
    by_contra hne
    obtain ⟨id, size, hr, -⟩ := hi.admitting hne
    rcases hb with hp | hp <;> simp [Intake.request, hp] at hr
  have hst : Stampable (deallocateMemory s.memory.segment pid time).1 :=
    stampable_step hi.stampable
      (show ForkedStep s.memory.segment (.deallocation pid time) _ from ⟨trivial, rfl⟩)
  refine ⟨hi.toIntakeInv, hst, ?_, ?_, fun hne => absurd hidle hne, hi.order⟩
  · simp only [Underway, Generator.reapChild, hidle]
  · intro p hp
    rw [hnone] at hp
    cases hp

theorem keepsTurn_step (hsizes : ∀ p ∈ lines, 0 ≤ p.memorySize) (hi : KeepsTurn lines start s)
    (hreap : ReapsBetweenTicks s act) (h : AdmissionStep s act s') : KeepsTurn lines start s' := by
  have hqs := hi.toQueuesSound
  cases h with
  | tick h =>
    cases h with
    | tick =>
      exact ⟨intakeInv_step hi.toIntakeInv .tick, hi.stampable, hi.underway, hi.refused,
        hi.admitting, hi.order⟩
  | @main a g hidle ha h =>
    refine ⟨intakeInv_step hi.toIntakeInv h, hi.stampable, hi.underway, ?_,
      fun hne => absurd hidle hne, ?_⟩
    · exact fun p hp => hi.refused p (passedOver_step hqs h ha p hp)
    · exact fun n => (order_step hqs h (by simp [ha]) n).trans (hi.order n)
  | @refuse a id size g m hr hm hfail ha h =>
    cases hm with
    | searchFound hp hf => cases hfail
    | searchFailed hp hf =>
      have hst := stampable_findBlock hi.stampable hf
      have hd := findBlock_denser hf
      refine ⟨intakeInv_step hi.toIntakeInv h, hst, ?_, ?_, fun hne => absurd hp hne, ?_⟩
      · simp only [Underway, hp]
      · intro p hmem
        rcases passedOver_answer hqs h ha hr p hmem with hold | ⟨-, rfl⟩
        · exact refuses_denser hi.stampable.wellFormed hst.wellFormed hd (hi.refused p hold)
        · exact refuses_denser hi.stampable.wellFormed hst.wellFormed hd ⟨_, hf⟩
      · exact fun n => (order_step hqs h (by simp [ha]) n).trans (hi.order n)
  | @found id size m hr hm hfound =>
    cases hm with
    | searchFailed hp hf => exact absurd hp hfound
    | @searchFound seg _ _ _ block hp hf =>
      have hst := stampable_findBlock hi.stampable hf
      refine ⟨hi.toIntakeInv, hst, ⟨?_, ?_⟩, ?_, fun _ => ⟨id, size, hr, ?_⟩, hi.order⟩
      · obtain ⟨p, hp, rfl⟩ := request_mem hi.toIntakeInv hr
        exact hsizes p hp
      · obtain ⟨j, -, -, hs⟩ := findBlock_some hf
        obtain ⟨b, hb, rfl, hlive, -⟩ := searches_found hs
        intro c hc hca
        rwa [entry_unique hst.wellFormed.nodup hc hb hca]
      · exact fun p hmem => refuses_denser hi.stampable.wellFormed hst.wellFormed
          (findBlock_denser hf) (hi.refused p hmem)
      · exact fun p hmem => width_ne_of_found hf (hi.refused p hmem)
  | @memory mact m ha hm =>
    by_cases hquiet : ∀ pid code time, mact ≠ .reap pid (.exited code) time
    · obtain ⟨hst, hd, hu⟩ := underway_step hi.stampable hi.underway ha hquiet hm
      refine ⟨hi.toIntakeInv, hst, hu, refuses_trans hi.stampable hst hd hi.refused, ?_, hi.order⟩
      exact fun hne => hi.admitting fun hidle => hne ((inner_step ha hm).1.mpr hidle)
    · simp only [not_forall, not_not] at hquiet
      obtain ⟨pid, code, time, rfl⟩ := hquiet
      cases hm with
      | reap hpos hpid hs => exact keepsTurn_reap hi hreap
  | @send a id pid g m hp hm ha hpid h =>
    cases hm with
    | msgsnd hp =>
      obtain ⟨id', size, hr, hwidths⟩ := hi.admitting (by simp [hp])
      refine ⟨intakeInv_step hi.toIntakeInv h, hi.stampable, trivial, ?_, fun hne => absurd rfl hne, ?_⟩
      · intro p hmem
        rcases passedOver_answer hqs h ha hr p hmem with hold | ⟨hno, -⟩
        · exact hi.refused p hold
        · cases hno
      · intro n
        refine (order_step hqs h (fun _ id'' size' hr' => ?_) n).trans (hi.order n)
        rw [hr] at hr'
        cases hr'
        exact hwidths

theorem keepsTurn_initial (clk schedulerPid clkPid : ℤ)
    (hv : ∀ p ∈ lines, 0 ≤ p.arrivalTime ∧ p.arrivalTime < 2 ^ 31) :
    KeepsTurn lines (Intake.initial clk lines).pq.drain
      (Admission.initial clk schedulerPid clkPid lines) := by
  refine ⟨intakeInv_initial clk hv, stampable_initial, trivial, ?_, fun hne => absurd rfl hne,
    fun _ => rfl⟩
  intro p hp
  cases hp

/-- While memory is given back between two ticks only, the processes that need blocks of one size
are sent in the order in which `pq` gives them. -/
theorem sent_inTurn (clk schedulerPid clkPid : ℤ) (lines : List Process) (as : List AdmissionAct)
    (hv : ∀ p ∈ lines, 0 ≤ p.arrivalTime ∧ p.arrivalTime < 2 ^ 31)
    (hsizes : ∀ p ∈ lines, 0 ≤ p.memorySize)
    (hreap : Throughout AdmissionStep (Admission.initial clk schedulerPid clkPid lines) as
      ReapsBetweenTicks) :
    Always AdmissionStep (Admission.initial clk schedulerPid clkPid lines) as fun s => ∀ n,
      (s.intake.sent.map PCB.process).filter (Process.needs n) <+:
        (Intake.initial clk lines).pq.drain.filter (Process.needs n) := by
  intro pre s hpre ht n
  have hi : KeepsTurn lines (Intake.initial clk lines).pq.drain s :=
    ht.invariant_of_throughout (hreap.of_prefix hpre)
      (fun _ _ _ hi hc hs => keepsTurn_step hsizes hi hc hs)
      (keepsTurn_initial clk schedulerPid clkPid hv)
  rw [← hi.order n, Intake.order, List.map_append, List.append_assoc, List.filter_append]
  exact List.prefix_append _ _

/-- Three processes arrive together. The first takes all memory and ends while the loop sleeps; at
the next tick the third, which needs as much, is sent. -/
def twoTicks : List AdmissionAct :=
  [.main .readClock, .main .served, .main .restored, .memory (.search 1 700 0), .memory .reserve,
    .memory (.createProcess 201), .memory .updateId, .send (.admitArrived true 201 11 5),
    .refuse (.admitArrived false 0 0 6), .refuse (.admitArrived false 0 0 7), .main .post] ++
  [.memory (.reap 201 (.exited 0) 1)]

theorem sent_inTurn_twoTicks :
    Always AdmissionStep
      (Admission.initial 0 100 101 [⟨1, 0, 1, 0, 700⟩, ⟨2, 0, 1, 0, 64⟩, ⟨3, 0, 2, 1, 1000⟩])
      twoTicks
      fun s => ∀ n, (s.intake.sent.map PCB.process).filter (Process.needs n) <+:
        (Intake.initial 0 [⟨1, 0, 1, 0, 700⟩, ⟨2, 0, 1, 0, 64⟩,
          ⟨3, 0, 2, 1, 1000⟩]).pq.drain.filter (Process.needs n) := by
  refine sent_inTurn 0 100 101 _ twoTicks (by decide) (by decide) ?_
  intro pre a t w hp ht _
  rcases List.prefix_concat_iff.mp hp with heq | hp
  · -- the exit is reaped after the last step of the tick
    obtain ⟨rfl, rfl⟩ := List.append_singleton_inj.mp heq
    obtain ⟨u, -, hpost⟩ : ∃ u, Trace AdmissionStep _ (twoTicks.take 10) u ∧
        AdmissionStep u (.main .post) t := ht.snoc_inv
    cases hpost with
    | main hidle ha h =>
      cases h with
      | post => exact Or.inr rfl
  · have hmem := hp.subset (List.mem_append_right pre (List.mem_singleton.mpr rfl))
    simp only [List.mem_cons, List.not_mem_nil, or_false] at hmem
    rcases hmem with rfl | rfl | rfl | rfl | rfl | rfl | rfl | rfl | rfl | rfl | rfl <;> trivial

end KernelSim
