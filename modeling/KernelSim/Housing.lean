import KernelSim.Generator.Fairness
import KernelSim.Generator.Footprint
import KernelSim.Simulator

/-! The memory of the generator bounds the work of the scheduler: a process that is not finished has
a block, so there are never more of them than `ready_Heap` has places. -/
namespace KernelSim
open KeyedTree Runs Scheduler

/-- The id of the process that is being admitted. -/
def AdmissionPhase.idFromFile : AdmissionPhase → Option ℤ
  | .idle => none
  | .found id _ _ _ => some id
  | .reserved id => some id
  | .forked id _ => some id
  | .stamped id _ => some id

/-- Its pid, once it is forked. -/
def AdmissionPhase.child : AdmissionPhase → Option ℤ
  | .forked _ pid => some pid
  | .stamped _ pid => some pid
  | _ => none

/-- The processes that have been sent and are not finished. -/
def Simulator.unfinished (s : Simulator) : List PCB := s.msgq ++ s.loop.scheduler.held

/-- The children whose processes are not finished, with the one being admitted. -/
def Simulator.atWork (s : Simulator) : List ℤ :=
  s.admission.memory.phase.child.toList ++ s.unfinished.map PCB.pid

/-- The signals to the scheduler are handled in time, and the end of a child once the scheduler has
taken its completion, as an exit that merges no other block in use away. Nothing is said of the
heap. -/
def Simulator.EndsReported (s : Simulator) : SimulatorAct → Prop
  | .scheduler (.receive _ _) => True
  | .scheduler a => SignalsInTime s.parties (.loop a)
  | .generator (.memory (.reap pid status _)) =>
    (pid ∈ s.admission.memory.children → ∃ code, status = .exited code) ∧
      MergeSpares s.admission.memory pid ∧ pid ∉ s.atWork
  | _ => True

instance : ∀ s a, Decidable (Simulator.EndsReported s a)
  | s, .scheduler .sigusr1 => inferInstanceAs (Decidable (s.InTime (.scheduler .sigusr1)))
  | s, .scheduler (.sigusr2 i) => inferInstanceAs (Decidable (s.InTime (.scheduler (.sigusr2 i))))
  | s, .generator (.memory (.reap pid status _)) => inferInstanceAs (Decidable
      ((pid ∈ s.admission.memory.children → ∃ code, status = .exited code) ∧
        MergeSpares s.admission.memory pid ∧ pid ∉ s.atWork))
  | _, .scheduler .tick => isTrue trivial
  | _, .scheduler (.downNb _) => isTrue trivial
  | _, .scheduler (.receive _ _) => isTrue trivial
  | _, .scheduler .noMessage => isTrue trivial
  | _, .scheduler (.advance _) => isTrue trivial
  | _, .tick => isTrue trivial
  | _, .generator (.main _) => isTrue trivial
  | _, .generator (.refuse _) => isTrue trivial
  | _, .generator (.send _) => isTrue trivial
  | _, .generator (.memory (.search _ _ _)) => isTrue trivial
  | _, .generator (.memory .reserve) => isTrue trivial
  | _, .generator (.memory (.createProcess _)) => isTrue trivial
  | _, .generator (.memory .updateId) => isTrue trivial
  | _, .generator (.memory .msgsnd) => isTrue trivial

/-- The pid of a process that an effect reports as finished. -/
def Effect.finishedPid : Effect → Option ℤ
  | .logged event _ p _ => if event = .finished then some p.pid else none
  | _ => none

/-- Ids as a file should have them, and memory asked for. -/
def ProperLines (lines : List Process) : Prop :=
  (lines.map Process.id).Nodup ∧ ∀ p ∈ lines, p.id ≠ -1 ∧ 1 ≤ p.memorySize

section Admission

variable {lines : List Process} {i i' : Intake} {b : IntakeAct} {s s' : Admission}
  {a : AdmissionAct} {m m' : Generator} {act : GeneratorAct} {id size pid : ℤ}

/-- Blocks in use are those of processes sent, and of the one being admitted. -/
structure Admitted (lines : List Process) (s : Admission) : Prop
    extends IntakeInv lines s.intake where
  footprint : Footprint s.memory
  asking : ∀ id, s.memory.phase.idFromFile = some id →
    ∃ size, s.intake.request = some (id, size)
  ids : ∀ b ∈ entries s.memory.segment.root, b.live →
    s.memory.phase.idFromFile = some b.idFromFile ∨ b.idFromFile ∈ s.intake.sent.map PCB.idFromFile

/-- A request is for a process that has not been sent. -/
theorem request_unsent (hlines : ProperLines lines) (hi : IntakeInv lines i)
    (hr : i.request = some (id, size)) :
    id ≠ -1 ∧ 1 ≤ size ∧ id ∉ i.sent.map PCB.idFromFile := by
  have hsplit := hi.split
  have hnodup := (hsplit.map Process.id).nodup_iff.mpr hlines.1
  suffices h : ∃ p ∈ lines, p.id = id ∧ p.memorySize = size ∧
      p.id ∉ i.sent.map PCB.idFromFile by
    obtain ⟨p, hp, rfl, rfl, hnot⟩ := h
    exact ⟨(hlines.2 p hp).1, (hlines.2 p hp).2, hnot⟩
  have hsent : (i.sent.map PCB.process).map Process.id = i.sent.map PCB.idFromFile := by
    rw [List.map_map]
    rfl
  unfold Intake.request at hr
  split at hr
  · split at hr
    · cases hr
    · rename_i hq
      rw [Bool.not_eq_true] at hq
      obtain ⟨-, hlist⟩ := queueDequeue_spec hi.waiting (queueSize_pos hq)
      simp only [Option.some.injEq, Prod.mk.injEq] at hr
      refine ⟨(queueFront i.waitingQueue).process, hsplit.subset ?_, hr.1, hr.2, ?_⟩
      · simp [Intake.arrived, hlist]
      · intro hmem
        simp only [Intake.arrived, hlist, List.map_append, List.map_cons, hsent] at hnodup
        simp only [List.cons_append, List.nodup_append, List.nodup_cons, List.mem_append] at hnodup
        exact hnodup.2.1.1 (Or.inr hmem)
  · split at hr
    · cases hr
    · rename_i hq
      rw [not_or, Bool.not_eq_true] at hq
      simp only [Option.some.injEq, Prod.mk.injEq] at hr
      have htop := PriorityQueue.mem_pqTop (PriorityQueue.size_pos hq.1)
      refine ⟨pqTop i.pq, hsplit.subset (List.mem_append_left _ htop), hr.1, hr.2, ?_⟩
      intro hmem
      simp only [Intake.arrived, List.map_append, hsent] at hnodup
      rw [List.nodup_append] at hnodup
      exact hnodup.2.2 _ (List.mem_map_of_mem htop) _
        (List.mem_append_right _ hmem) rfl
  · cases hr

/-- Only a granted request sends a message. -/
theorem sends_quiet (h : IntakeStep i b i') (hb : b.answer ≠ some true) :
    Sent.message? (i.sends b) = none := by
  cases h with
  | serveGranted | admitGranted => exact absurd rfl hb
  | announce hp hpq hq honce => simp [Intake.sends, hpq, hq, honce, Sent.message?]
  | again hp hno => simp [Intake.sends, if_neg hno, Sent.message?]
  | _ => rfl

/-- And then for the process it was made for. -/
theorem sends_granted (h : IntakeStep i b i') (hb : b.answer = some true) (hpid : b.pid = some pid)
    (hr : i.request = some (id, size)) :
    ∃ p, Sent.message? (i.sends b) = some p ∧ p.pid = pid ∧ p.idFromFile = id := by
  cases h with
  | serveGranted hp hq =>
    simp only [Intake.request, hp, hq, Bool.false_eq_true, if_false, Option.some.injEq,
      Prod.mk.injEq] at hr
    obtain rfl := Option.some.inj hpid
    exact ⟨_, rfl, rfl, hr.1⟩
  | admitGranted hp hq harr hsem =>
    simp only [Intake.request, hp, hq] at hr
    rw [if_neg (by simp; omega)] at hr
    simp only [Option.some.injEq, Prod.mk.injEq] at hr
    obtain rfl := Option.some.inj hpid
    exact ⟨_, rfl, rfl, hr.1⟩
  | _ => cases hb

/-- A live block after an inner step has the id of one before, or the one being admitted. -/
theorem ids_inner (hw : WellFormed m.segment) (ha : act.Inner) (h : GeneratorStep m act m') :
    m'.phase.idFromFile = m.phase.idFromFile ∧ ∀ c ∈ entries m'.segment.root, c.live →
      m'.phase.idFromFile = some c.idFromFile ∨
        ∃ d ∈ entries m.segment.root, d.live ∧ d.idFromFile = c.idFromFile := by
  cases h with
  | searchFound | searchFailed | msgsnd => exact absurd ha id
  | reserve hp =>
    refine ⟨by rw [hp]; rfl, fun c hc hlive => ?_⟩
    obtain ⟨d, hd, rfl⟩ := mem_entries_write.mp hc
    split at hlive
    · exact Or.inl (by rw [if_pos ‹_›]; rfl)
    · exact Or.inr ⟨d, hd, hlive, by rw [if_neg ‹_›]⟩
  | createProcess hp => exact ⟨by rw [hp]; rfl, fun c hc hlive => Or.inr ⟨c, hc, hlive, rfl⟩⟩
  | @updateId id pid hp =>
    refine ⟨by rw [hp]; rfl, fun c hc hlive => ?_⟩
    rcases updateId_cases m.segment id pid with heq | ⟨d, hd, -, rfl, heq⟩
    · exact Or.inr ⟨c, heq ▸ hc, hlive, rfl⟩
    · rw [show updateId m.segment d.idFromFile pid = _ from heq] at hc
      obtain ⟨e, he, rfl⟩ := mem_entries_write.mp hc
      by_cases hat : e.isAt d.addr
      · obtain rfl := entry_unique hw.nodup he hd (isAt_iff.mp hat)
        exact Or.inl (by rw [if_pos hat]; rfl)
      · rw [if_neg hat] at hlive ⊢
        exact Or.inr ⟨e, he, hlive, rfl⟩
  | @reap pid time status hpos hpid hs =>
    refine ⟨rfl, fun c hc hlive => Or.inr ?_⟩
    cases status with
    | signaled signal => exact ⟨c, hc, hlive, rfl⟩
    | exited code =>
      rcases deallocateMemory_entries hc with ⟨hold, -⟩ | ⟨d, -, rfl⟩
      · exact ⟨c, hold, hlive, rfl⟩
      · exact absurd rfl hlive

/-- What a run asks of the end of a child, as the admission sees it. -/
def AdmissionOrderly (s : Admission) : AdmissionAct → Prop
  | .memory (.reap pid status time) => EndsOrderly s.memory (.reap pid status time)
  | _ => True

theorem admitted_step (hlines : ProperLines lines) (hi : Admitted lines s)
    (hok : AdmissionOrderly s a) (h : AdmissionStep s a s') : Admitted lines s' := by
  have hsearch {id size : ℤ} (hp : s.memory.phase = .idle)
      (hr : s.intake.request = some (id, size)) (time : ℤ) :
      EndsOrderly s.memory (.search id size time) ∧ AsksForBytes (.search id size time) := by
    obtain ⟨hid, hsize, hunsent⟩ := request_unsent hlines hi.toIntakeInv hr
    refine ⟨⟨hid, fun b hb hlive heq => ?_⟩, hsize⟩
    rcases hi.ids b hb hlive with hphase | hsent
    · rw [hp] at hphase
      cases hphase
    · exact hunsent (heq ▸ hsent)
  have hkeep {i : Intake} {b : IntakeAct} (h : IntakeStep s.intake b i) (hb : b.answer ≠ some true) :
      i.sent = s.intake.sent := by
    rw [sent_sends h, sends_quiet h hb]
    exact List.append_nil _
  cases h with
  | tick h =>
    cases h
    exact ⟨intakeInv_step hi.toIntakeInv .tick, hi.footprint, hi.asking, hi.ids⟩
  | main hidle ha h =>
    refine ⟨intakeInv_step hi.toIntakeInv h, hi.footprint, ?_, ?_⟩
    · intro id hid
      rw [show s.memory.phase = _ from hidle] at hid
      cases hid
    · rw [hkeep h (by simp [ha])]
      exact hi.ids
  | refuse hr hm hfail ha h =>
    cases hm with
    | searchFound hp hf => cases hfail
    | searchFailed hp hf =>
      obtain ⟨horderly, hask⟩ := hsearch hp hr s.intake.lastTick
      refine ⟨intakeInv_step hi.toIntakeInv h,
        footprint_step hi.footprint horderly hask (.searchFailed hp hf), ?_, ?_⟩
      · intro id hid
        rw [show s.memory.phase = _ from hp] at hid
        cases hid
      · intro b hb hlive
        rw [hkeep h (by simp [ha])]
        obtain ⟨j, -, -, hs⟩ := findBlock_some hf
        rcases grows_entries (searches_grows hs) hb with hold | hblank
        · exact hi.ids b hold hlive
        · exact absurd hblank.1 hlive
  | @found id size m hr hm hfound =>
    cases hm with
    | searchFailed hp hf => exact absurd hp hfound
    | searchFound hp hf =>
      obtain ⟨horderly, hask⟩ := hsearch hp hr s.intake.lastTick
      refine ⟨hi.toIntakeInv,
        footprint_step hi.footprint horderly hask (.searchFound hp hf), ?_, ?_⟩
      · intro id' hid
        cases hid
        exact ⟨size, hr⟩
      · intro b hb hlive
        obtain ⟨j, -, -, hs⟩ := findBlock_some hf
        rcases grows_entries (searches_grows hs) hb with hold | hblank
        · refine Or.inr ((hi.ids b hold hlive).resolve_left ?_)
          rw [hp]
          exact fun h => by cases h
        · exact absurd hblank.1 hlive
  | @memory act m ha hm =>
    obtain ⟨hphase, hids⟩ := ids_inner hi.footprint.wellFormed ha hm
    have horderly : EndsOrderly s.memory act ∧ AsksForBytes act := by
      cases act with
      | search | msgsnd => exact absurd ha id
      | reap => exact ⟨hok, trivial⟩
      | _ => exact ⟨trivial, trivial⟩
    refine ⟨hi.toIntakeInv, footprint_step hi.footprint horderly.1 horderly.2 hm, ?_, ?_⟩
    · intro id hid
      exact hi.asking id (hphase ▸ hid)
    · intro c hc hlive
      rcases hids c hc hlive with hnow | ⟨d, hd, hld, heq⟩
      · exact Or.inl hnow
      · rw [← heq, show m.phase.idFromFile = _ from hphase]
        exact hi.ids d hd hld
  | @send b id pid i m hp hm ha hpid h =>
    obtain ⟨size, hr⟩ := hi.asking id (by rw [hp]; rfl)
    obtain ⟨p, hsends, -, hid⟩ := sends_granted h ha hpid hr
    cases hm with
    | msgsnd hp' =>
      refine ⟨intakeInv_step hi.toIntakeInv h,
        footprint_step (a := .msgsnd) hi.footprint trivial trivial (.msgsnd hp'), ?_, ?_⟩
      · intro id hid
        cases hid
      · intro c hc hlive
        rw [sent_sends h, hsends, List.map_append, List.mem_append]
        refine Or.inr ((hi.ids c hc hlive).elim (fun hnow => Or.inr ?_) Or.inl)
        rw [hp] at hnow
        rw [← Option.some.inj hnow, ← hid]
        exact List.mem_singleton.mpr rfl

/-- A child is forked, or its process is sent, or no child changes but one that is reaped. -/
theorem child_step (hi : Admitted lines s) (h : AdmissionStep s a s') :
    (∃ pid ∉ s.memory.children, a.intake = none ∧ s.memory.phase.child = none ∧
      s'.memory.phase.child = some pid ∧ s'.memory.children = pid :: s.memory.children) ∨
    (s'.memory.phase.child.toList ++
        (Sent.message? (a.intake.bind s.intake.sends)).toList.map PCB.pid =
      s.memory.phase.child.toList ∧
      ∀ pid ∈ s.memory.children, (∀ status time, a ≠ .memory (.reap pid status time)) →
        pid ∈ s'.memory.children) := by
  have hquiet {i : Intake} {b : IntakeAct} (h : IntakeStep s.intake b i) (hb : b.answer ≠ some true)
      {m : Generator} (hm : m.phase.child = s.memory.phase.child) :
      m.phase.child.toList ++ (Sent.message? (s.intake.sends b)).toList.map PCB.pid =
        s.memory.phase.child.toList := by
    rw [sends_quiet h hb, hm]
    exact List.append_nil _
  cases h with
  | tick h => exact Or.inr ⟨hquiet h (by simp [IntakeAct.answer]) rfl, fun _ hpid _ => hpid⟩
  | main hidle ha h => exact Or.inr ⟨hquiet h (by simp [ha]) rfl, fun _ hpid _ => hpid⟩
  | refuse hr hm hfail ha h =>
    cases hm with
    | searchFound hp hf => cases hfail
    | searchFailed hp hf => exact Or.inr ⟨hquiet h (by simp [ha]) rfl, fun _ hpid _ => hpid⟩
  | found hr hm hfound =>
    cases hm with
    | searchFailed hp hf => exact absurd hp hfound
    | searchFound hp hf => exact Or.inr ⟨by rw [hp]; rfl, fun _ hpid _ => hpid⟩
  | memory ha hm =>
    cases hm with
    | searchFound | searchFailed | msgsnd => exact absurd ha id
    | reserve hp | updateId hp => exact Or.inr ⟨by rw [hp]; rfl, fun _ hpid _ => hpid⟩
    | @createProcess id pid hp hpos hc hh => exact Or.inl ⟨pid, hc, rfl, by rw [hp]; rfl, rfl, rfl⟩
    | @reap pid time status hpos hpid hs =>
      refine Or.inr ⟨List.append_nil _, fun q hq hne => ?_⟩
      exact List.mem_filter.mpr ⟨hq, decide_eq_true fun heq => hne status time (heq ▸ rfl)⟩
  | @send b id pid i m hp hm ha hpid h =>
    obtain ⟨size, hr⟩ := hi.asking id (by rw [hp]; rfl)
    obtain ⟨p, hsends, rfl, -⟩ := sends_granted h ha hpid hr
    cases hm with
    | msgsnd hp' =>
      refine Or.inr ⟨?_, fun _ hpid _ => hpid⟩
      rw [AdmissionAct.intake, Option.bind_some, hsends, hp]
      rfl

end Admission

/-- The pid is reported with the line 'finished'. -/
theorem pid_keptUntilRetired : KeptUntilRetired (fun p => some p.pid) Effect.finishedPid where
  lasting := fun p q h => by
    have hsame : p.lasting.pid = q.lasting.pid := congrArg PCB.pid h
    exact congrArg some hsame
  received := fun _ => rfl
  switch := fun e h => by
    cases e with
    | logged event => exact if_neg h
    | _ => rfl
  grant := fun _ => rfl
  retired := fun clk finished count value p => by
    unfold retireEffects
    split <;> rfl

section Simulator

variable {lines : List Process} {s s' : Simulator} {a : SimulatorAct} {c : LoopAct}
  {b : AdmissionAct}

/-- Every process that is not finished is that of a child with memory, and each of another. -/
structure Housed (lines : List Process) (s : Simulator) : Prop extends SimulatorInv lines s where
  admitted : Admitted lines s.admission
  distinct : s.atWork.Nodup
  children : ∀ pid ∈ s.atWork, pid ∈ s.admission.memory.children

theorem child_of_unstamped {phase : AdmissionPhase} {pid : ℤ} (h : phase.unstampedPid = some pid) :
    phase.child = some pid := by
  cases phase <;> first | exact h | cases h

theorem Housed.length_le (hi : Housed lines s) : s.unfinished.length ≤ 1024 := by
  have hnodup := hi.distinct
  rw [Simulator.atWork, List.nodup_append] at hnodup
  rw [← List.length_map (f := PCB.pid)]
  apply hi.admitted.footprint.length_le hnodup.2.1
  intro pid hpid
  refine ⟨hi.children pid (List.mem_append_right _ hpid), fun hphase => ?_⟩
  have hchild := child_of_unstamped hphase
  exact hnodup.2.2 pid (by simp [hchild]) pid hpid rfl

/-- There is always a place in the heap for the next message. -/
theorem Housed.inTime (hi : Housed lines s) (hok : s.EndsReported a) (h : s.next a = some s') :
    s.InTime a := by
  cases a with
  | tick | generator => trivial
  | scheduler c =>
    cases c with
    | receive p i =>
      obtain ⟨w, hw, -⟩ := next_scheduler h
      have hlen := hi.length_le
      cases partyStep_of_loopNext hw with
      | own ha => exact absurd ha id
      | receive hq =>
        refine Or.inr ?_
        rw [Simulator.unfinished, show s.msgq = _ from hq, List.length_append, List.length_cons] at hlen
        show s.loop.scheduler.held.length < 1024
        omega
    | _ => exact hok

/-- What has been sent is not finished, or reported. -/
theorem unfinished_pids (hi : SimulatorInv lines s) :
    (s.unfinished.map PCB.pid : Multiset ℤ) + s.loop.scheduler.trace.filterMap Effect.finishedPid =
      (s.admission.intake.sent.map PCB.pid : List ℤ) := by
  have hbalance := dispatched_balanced pid_keptUntilRetired hi.path rfl
  have hpids (l : List PCB) : l.filterMap (fun p => some p.pid) = l.map PCB.pid :=
    congrFun List.filterMap_eq_map l
  have hreceived : (s.loop.scheduler.messages ++ s.msgq.map PCB.asReceived).map PCB.pid =
      s.admission.intake.sent.map PCB.pid := by
    rw [hi.delivered, List.map_map]
    rfl
  rw [Dispatcher.Balanced, view_processes, Multiset.filterMap_coe, hpids, hpids] at hbalance
  rw [List.map_append, List.map_map] at hreceived
  rw [Simulator.unfinished, List.map_append, ← hreceived, ← Multiset.coe_add, ← Multiset.coe_add,
    add_assoc]
  exact (congrArg _ hbalance).trans (add_comm _ _)

/-- The scheduler only lets processes end. -/
theorem unfinished_less (hi : SimulatorInv lines s) (hok : s.InTime (.scheduler c))
    (h : s.next (.scheduler c) = some s') :
    (s'.unfinished.map PCB.pid : Multiset ℤ) ≤ s.unfinished.map PCB.pid := by
  have hbefore := unfinished_pids hi
  have hafter := unfinished_pids (simulatorInv_scheduler hi hok h)
  obtain ⟨w, hw, rfl⟩ := next_scheduler h
  have hpath := partyStep_dispatches hi.orderly hok (partyStep_of_loopNext hw)
  obtain ⟨es, ht⟩ := dispatched_invariant (P := fun d => s.loop.scheduler.view.done <+: d.done) hpath
    (fun _ _ hd hs => hd.trans (dispatches_done hs)) (List.prefix_refl _)
  have htrace : w.loop.scheduler.trace = s.loop.scheduler.trace ++ es := ht.symm
  dsimp only at hafter
  rw [htrace, List.filterMap_append, ← hbefore, ← Multiset.coe_add, ← add_assoc,
    add_right_comm] at hafter
  exact Multiset.le_iff_exists_add.mpr ⟨_, (add_right_cancel hafter).symm⟩

theorem housed_scheduler (hi : Housed lines s) (hok : s.EndsReported (.scheduler c))
    (h : s.next (.scheduler c) = some s') : Housed lines s' := by
  have hinTime := hi.inTime hok h
  have hless := unfinished_less hi.toSimulatorInv hinTime h
  have hinv := simulatorInv_scheduler hi.toSimulatorInv hinTime h
  obtain ⟨w, hw, rfl⟩ := next_scheduler h
  have hle := add_le_add_right hless (s.admission.memory.phase.child.toList : Multiset ℤ)
  rw [Multiset.coe_add, Multiset.coe_add] at hle
  refine ⟨hinv, hi.admitted, ?_, ?_⟩
  · exact Multiset.coe_nodup.mp (Multiset.nodup_of_le hle (Multiset.coe_nodup.mpr hi.distinct))
  · exact fun pid hpid => hi.children pid (Multiset.mem_of_le hle hpid)

theorem atWork_sent (m : Admission) (out : Option Sent) :
    ({ s with admission := m }.deliver out).atWork.Perm
      (m.memory.phase.child.toList ++ (Sent.message? out).toList.map PCB.pid ++
        s.unfinished.map PCB.pid) := by
  obtain ⟨hadmission, hloop⟩ := deliver_frame { s with admission := m } out
  rw [Simulator.atWork, Simulator.unfinished, deliver_msgq, hadmission, hloop, Simulator.unfinished,
    List.append_assoc, List.append_assoc, ← List.map_append]
  refine List.Perm.append_left _ (List.Perm.map _ ?_)
  rw [← List.append_assoc, ← List.append_assoc]
  exact List.perm_append_comm.append_right _

theorem housed_generator (hlines : ProperLines lines) (hi : Housed lines s)
    (hok : s.EndsReported (.generator b)) (h : s.next (.generator b) = some s') :
    Housed lines s' := by
  have hinv := simulatorInv_generator hi.toSimulatorInv h
  obtain ⟨m, hm, rfl⟩ := next_generator h
  have hstep := admissionStep_of_next hm
  have hreap : ∀ pid status time, b = .memory (.reap pid status time) → pid ∉ s.atWork := by
    rintro pid status time rfl
    exact hok.2.2
  have horderly : AdmissionOrderly s.admission b := by
    cases b with
    | memory act =>
      cases act with
      | reap pid status time =>
        refine ⟨fun hphase => hok.2.2 (List.mem_append_left _ ?_), hok.1, hok.2.1⟩
        rw [child_of_unstamped hphase]
        exact List.mem_singleton.mpr rfl
      | _ => trivial
    | _ => trivial
  have hadmitted := admitted_step hlines hi.admitted horderly hstep
  have hframe := (deliver_frame { s with admission := m } (b.intake.bind s.admission.intake.sends)).1
  have hwork := atWork_sent (s := s) m (b.intake.bind s.admission.intake.sends)
  rcases child_step hi.admitted hstep with
    ⟨pid, hnew, hnone, hbefore, hafter, hchildren⟩ | ⟨hsame, hkept⟩
  · have hold : s.atWork = s.unfinished.map PCB.pid := by
      rw [Simulator.atWork, hbefore]
      rfl
    have hout : Sent.message? (b.intake.bind s.admission.intake.sends) = none := by
      rw [hnone]
      rfl
    rw [hout, hafter, ← hold] at hwork
    refine ⟨hinv, hframe ▸ hadmitted, ?_, ?_⟩
    · refine hwork.nodup_iff.mpr (List.nodup_cons.mpr ⟨?_, hi.distinct⟩)
      exact fun hmem => hnew (hi.children pid hmem)
    · intro q hq
      rw [hframe, hchildren]
      rcases List.mem_cons.mp (hwork.subset hq) with rfl | hmem
      · exact List.mem_cons_self
      · exact List.mem_cons_of_mem _ (hi.children q hmem)
  · rw [hsame] at hwork
    refine ⟨hinv, hframe ▸ hadmitted, hwork.nodup_iff.mpr hi.distinct, ?_⟩
    intro q hq
    rw [hframe]
    have hmem : q ∈ s.atWork := hwork.subset hq
    exact hkept q (hi.children q hmem) fun status time heq => hreap q status time heq hmem

theorem housed_step (hlines : ProperLines lines) (hi : Housed lines s)
    (h : Guarded Simulator.EndsReported Simulator.next s a s') : Housed lines s' := by
  obtain ⟨hok, hstep⟩ := h
  cases a with
  | tick =>
    have hinv := simulatorInv_tick hi.toSimulatorInv hstep
    cases hstep
    have hadmitted := hi.admitted
    exact ⟨hinv, ⟨hinv.intake, hadmitted.footprint, hadmitted.asking, hadmitted.ids⟩, hi.distinct,
      hi.children⟩
  | generator b => exact housed_generator hlines hi hok hstep
  | scheduler c => exact housed_scheduler hi hok hstep

theorem housed_initial (algorithm : SchedulingAlgorithm) (quantum clk schedulerPid clkPid : ℤ)
    (hv : ∀ p ∈ lines, 0 ≤ p.arrivalTime ∧ p.arrivalTime < 2 ^ 31) :
    Housed lines (Simulator.initial algorithm quantum clk schedulerPid clkPid
      (readProcesses (pqInit 20 .sortByArrivalTime unusedProcess) lines)) := by
  have hinv := simulatorInv_initial algorithm quantum clk schedulerPid clkPid hv
  have hnone : (Simulator.initial algorithm quantum clk schedulerPid clkPid
      (readProcesses (pqInit 20 .sortByArrivalTime unusedProcess) lines)).atWork = [] := by
    have hheld := initial_held algorithm quantum clk
    simp [Simulator.atWork, Simulator.unfinished, Simulator.initial, initialGenerator,
      AdmissionPhase.child, Loop.initial, hheld]
  refine ⟨hinv, ⟨hinv.intake, footprint_initial schedulerPid clkPid, ?_, ?_⟩, ?_, ?_⟩
  · intro id hid
    cases hid
  · intro b hb hlive
    have hblank : b = blankBlock 0 1024 none := by
      simpa [Simulator.initial, initialGenerator, initializeMemorySegment] using hb
    exact absurd (hblank ▸ rfl) hlive
  · rw [hnone]
    exact List.nodup_nil
  · rw [hnone]
    exact fun pid hpid => by cases hpid

/-- While the signals and the ends of children come in time, no more than 1024 processes have been
sent and are not finished, so `ready_Heap` has a place for every message, and in the end
`scheduler.log` lists the processes of the file. -/
theorem readyHeap_neverFull (algorithm : SchedulingAlgorithm) (quantum clk schedulerPid clkPid : ℤ)
    (outside : ℤ → Option ℤ) (file : List Char) (wta : ℤ → ℤ → List Char)
    (hwta : ∀ ta total, '\n' ∉ wta ta total) (hfile : LinesReadOnce outside file)
    (harrival : ∀ line ∈ processLines file, 0 ≤ line.2.arrivalTime)
    (hlines : ProperLines ((processLines file).map Prod.snd)) (as : List SimulatorAct) :
    Always (Guarded Simulator.EndsReported Simulator.next)
      (Simulator.ofFile algorithm quantum clk schedulerPid clkPid outside file) as fun s =>
        s.unfinished.length ≤ 1024 ∧
        (∀ p i s', s.next (.scheduler (.receive p i)) = some s' →
          s.loop.scheduler.held.length < 1024) ∧
        (s.loop.point = .exited →
          (finishedInText (schedulerText wta s.loop.scheduler.trace)).Perm
            ((processLines file).map fun line => line.2.told)) := by
  intro pre s _ ht
  have hi : Housed ((processLines file).map Prod.snd) s := by
    refine ht.invariant (P := Housed ((processLines file).map Prod.snd)) ?_ ?_
    · exact fun _ _ _ => housed_step hlines
    · rw [ofFile_eq hfile]
      exact housed_initial algorithm quantum clk schedulerPid clkPid (arrivals_valid harrival)
  have hlen := hi.length_le
  refine ⟨hlen, fun p i s' h => ?_, finishedInText_of_exited hwta hi.toSimulatorInv⟩
  obtain ⟨w, hw, -⟩ := next_scheduler h
  cases partyStep_of_loopNext hw with
  | own ha => exact absurd ha id
  | receive hq =>
    rw [Simulator.unfinished, show s.msgq = _ from hq, List.length_append, List.length_cons] at hlen
    omega

theorem readyHeap_neverFull_two :
    ∃ s, Trace (Guarded Simulator.EndsReported Simulator.next)
        (Simulator.ofFile .HPF 0 0 100 101 (fun _ => none) crowdedFile) crowdedRun s ∧
      s.loop.point = .exited ∧ s.unfinished.length ≤ 1024 ∧
      (finishedInText (schedulerText (fun _ _ => "1.00".toList) s.loop.scheduler.trace)).Perm
        [(7, 0, 1), (8, 0, 1)] := by
  obtain ⟨s, hrun, htest⟩ := exists_trace_of_execute
    (R := fun (s : Simulator) a t => s.next a = some t) (fun _ _ _ h => h)
    (show (execute Simulator.EndsReported Simulator.next
      (Simulator.ofFile .HPF 0 0 100 101 (fun _ => none) crowdedFile) crowdedRun).any
        (fun s => s.loop.point = .exited) = true by decide +kernel)
  have hexited : s.loop.point = .exited := of_decide_eq_true htest
  have hlines : processLines crowdedFile =
      [(1, ⟨7, 0, 1, 5, 1024⟩), (2, ⟨8, 0, 1, 5, 64⟩)] := by decide +kernel
  have hfile : LinesReadOnce (fun _ => none) crowdedFile := pushed_iff.mp (by decide +kernel)
  obtain ⟨hlen, -, hlist⟩ := readyHeap_neverFull .HPF 0 0 100 101 (fun _ => none) crowdedFile
    (fun _ _ => "1.00".toList) (fun _ _ => by decide) hfile (by simp [hlines])
    (by rw [hlines]; exact ⟨by decide, by decide⟩) _ _ s (List.prefix_refl _) hrun
  rw [hlines] at hlist
  exact ⟨s, hrun, hexited, hlen, hlist hexited⟩

end Simulator
end KernelSim
