import KernelSim.Simulator

/-! The semaphores and the shared memory of the processes, from `semget` and `shmget` in the generator
to `IPC_RMID` in the scheduler. -/
namespace KernelSim
open RingBuffer Runs Scheduler

/-- The semaphore that the generator gets for a process that has arrived. -/
def SimulatorAct.semget : SimulatorAct → Option ℤ
  | .generator a => a.intake.bind fun
    | .admitArrived _ _ _ syncSemid => some syncSemid
    | _ => none
  | _ => none

/-- The segment that `createProcess` gets. -/
def SimulatorAct.shmget : SimulatorAct → Option ℤ
  | .generator a => a.intake.bind fun
    | .serve true _ shmId => some shmId
    | .admitArrived true _ shmId _ => some shmId
    | _ => none
  | _ => none

def Effect.removedSem : Effect → Option ℤ
  | .removeSem p => some p.syncSemid
  | _ => none

def Effect.removedShm : Effect → Option ℤ
  | .removeShm p => some p.shmId
  | _ => none

/-- The signals are handled in time, the messages find a place in the heap, and `shmget` succeeds. -/
def Simulator.Provided (s : Simulator) (a : SimulatorAct) : Prop := s.InTime a ∧ a.shmget ≠ some (-1)

instance (s : Simulator) (a : SimulatorAct) : Decidable (s.Provided a) :=
  inferInstanceAs (Decidable (_ ∧ _))

/-- The semaphores of the processes that have arrived. -/
def Intake.semids (i : Intake) : List ℤ :=
  (i.waitingQueue.toList ++ i.tempQueue.toList ++ i.sent).map PCB.syncSemid

/-- What has been got is with a process of the generator, or in a message. -/
structure Got (as : List SimulatorAct) (s : Simulator) : Prop where
  sems : (as.filterMap SimulatorAct.semget).Perm s.admission.intake.semids
  shms : as.filterMap SimulatorAct.shmget = s.admission.intake.sent.map PCB.shmId
  valid : ∀ id ∈ as.filterMap SimulatorAct.shmget, id ≠ -1

/-- The semaphore is removed when the process has finished. -/
theorem sem_keptUntilRetired : KeptUntilRetired (fun p => some p.syncSemid) Effect.removedSem where
  lasting := fun p q h => by
    have hsame : p.lasting.syncSemid = q.lasting.syncSemid := congrArg PCB.syncSemid h
    exact congrArg some hsame
  received := fun _ => rfl
  switch := fun e h => by cases e <;> first | rfl | cases h
  grant := fun _ => rfl
  retired := fun clk finished count value p => by
    unfold retireEffects
    split <;> rfl

/-- So is the shared memory, where there is any. -/
theorem shm_keptUntilRetired :
    KeptUntilRetired (fun p => if p.shmId ≠ -1 then some p.shmId else none) Effect.removedShm where
  lasting := fun p q h => by
    have hsame : p.lasting.shmId = q.lasting.shmId := congrArg PCB.shmId h
    exact congrArg (fun id : ℤ => if id ≠ -1 then some id else none) hsame
  received := fun _ => rfl
  switch := fun e h => by cases e <;> first | rfl | cases h
  grant := fun _ => rfl
  retired := fun clk finished count value p => by
    unfold retireEffects
    split <;> rfl

variable {i i' : Intake} {b : IntakeAct} {a : SimulatorAct} {as : List SimulatorAct}
  {s s' : Simulator} {lines : List Process}

/-- A step of the loop, with what it gets. -/
theorem semids_step (hs : i.QueuesSound) (h : IntakeStep i b i') :
    i'.semids.Perm (i.semids ++ (SimulatorAct.semget (.generator (.main b))).toList) := by
  have hnone : i.semids.Perm (i.semids ++ (none : Option ℤ).toList) := by simp
  cases h with
  | newTick hp hne =>
    have htemp := hs.tempNil (by simp [hp]) (by simp [hp])
    have hempty : (queueInit 100 emptyFront).toList = [] := rfl
    refine List.Perm.trans (.of_eq ?_) hnone
    simp only [Intake.semids, hempty, htemp]
  | serveGranted hp hq =>
    obtain ⟨-, hlist⟩ := queueDequeue_spec hs.waiting (queueSize_pos hq)
    refine List.Perm.trans ?_ hnone
    simp only [Intake.semids, hlist, List.map_append, List.map_cons, List.map_nil]
    rw [← List.append_assoc]
    exact List.perm_append_singleton _ _
  | serveRefused hp hq =>
    obtain ⟨-, hlist⟩ := queueDequeue_spec hs.waiting (queueSize_pos hq)
    obtain ⟨-, hlist'⟩ := queueEnqueue_spec hs.temp (queueFront i.waitingQueue)
    refine List.Perm.trans ?_ hnone
    simp only [Intake.semids, hlist, hlist']
    refine (List.Perm.append_right _ ?_).map _
    rw [← List.append_assoc]
    exact List.perm_append_singleton _ _
  | restore hp hq =>
    obtain ⟨-, hlist⟩ := queueDequeue_spec hs.temp (queueSize_pos hq)
    obtain ⟨-, hlist'⟩ := queueEnqueue_spec hs.waiting (queueFront i.tempQueue)
    refine List.Perm.trans (.of_eq ?_) hnone
    simp only [Intake.semids, hlist, hlist', List.append_assoc, List.cons_append, List.nil_append]
  | admitGranted hp hq harr hsem =>
    simp [Intake.semids, SimulatorAct.semget, AdmissionAct.intake, Process.newPcb]
  | @admitRefused pid shmId syncSemid hp hq harr hsem =>
    have htemp := hs.tempNil (by simp [hp]) (by simp [hp])
    obtain ⟨-, hlist⟩ := queueEnqueue_spec hs.waiting ((pqTop i.pq).newPcb pid shmId syncSemid)
    simp only [Intake.semids, hlist, htemp, List.append_nil, List.map_append, List.map_cons,
      List.map_nil, List.append_assoc, SimulatorAct.semget, AdmissionAct.intake, Option.bind_some,
      Option.toList_some]
    exact List.perm_append_comm.append_left _
  | _ => exact hnone

theorem shmIds_step (h : IntakeStep i b i') : i'.sent.map PCB.shmId =
    i.sent.map PCB.shmId ++ (SimulatorAct.shmget (.generator (.main b))).toList := by
  cases h with
  | serveGranted | admitGranted => exact List.map_append
  | _ => exact (List.append_nil _).symm

theorem got_step (hi : SimulatorInv lines s) (hg : Got as s)
    (h : Guarded Simulator.Provided Simulator.next s a s') : Got (as ++ [a]) s' := by
  obtain ⟨⟨-, hvalid⟩, hstep⟩ := h
  have hids : ∀ id ∈ as.filterMap SimulatorAct.shmget ++ a.shmget.toList, id ≠ -1 := by
    intro id hid
    rcases List.mem_append.mp hid with hid | hid
    · exact hg.valid id hid
    · rintro rfl
      exact hvalid (Option.mem_toList.mp hid)
  have hsnoc {f : SimulatorAct → Option ℤ} :
      (as ++ [a]).filterMap f = as.filterMap f ++ (f a).toList := by
    cases h : f a <;> simp [h]
  suffices hnow : s'.admission.intake.semids.Perm (s.admission.intake.semids ++ a.semget.toList) ∧
      s'.admission.intake.sent.map PCB.shmId =
        s.admission.intake.sent.map PCB.shmId ++ a.shmget.toList by
    refine ⟨?_, ?_, ?_⟩
    · rw [hsnoc]
      exact (hg.sems.append_right _).trans hnow.1.symm
    · rw [hsnoc, hg.shms, hnow.2]
    · rw [hsnoc]
      exact hids
  cases a with
  | tick =>
    cases hstep
    exact ⟨.of_eq (List.append_nil _).symm, (List.append_nil _).symm⟩
  | scheduler c =>
    obtain ⟨w, -, rfl⟩ := next_scheduler hstep
    exact ⟨.of_eq (List.append_nil _).symm, (List.append_nil _).symm⟩
  | generator a =>
    obtain ⟨m, hm, rfl⟩ := next_generator hstep
    rw [(deliver_frame _ _).1]
    rcases admission_intake (admissionStep_of_next hm) with ⟨hnone, hsame⟩ | ⟨b, hb, hb'⟩
    · show m.intake.semids.Perm _ ∧ m.intake.sent.map _ = _
      rw [hsame, SimulatorAct.semget, SimulatorAct.shmget, hnone]
      exact ⟨.of_eq (List.append_nil _).symm, (List.append_nil _).symm⟩
    · have hsem := semids_step hi.intake.toQueuesSound hb'
      have hshm := shmIds_step hb'
      simp only [SimulatorAct.semget, SimulatorAct.shmget, AdmissionAct.intake] at hsem hshm
      rw [SimulatorAct.semget, SimulatorAct.shmget, hb]
      exact ⟨hsem, hshm⟩

theorem got_run {s₀ : Simulator} (h₀ : SimulatorInv lines s₀) (hgot : Got [] s₀)
    (h : Trace (Guarded Simulator.Provided Simulator.next) s₀ as s) :
    SimulatorInv lines s ∧ Got as s := by
  induction h with
  | refl => exact ⟨h₀, hgot⟩
  | snoc _ hr ih => exact ⟨simulatorInv_step ih.1 ⟨hr.1.1, hr.2⟩, got_step ih.1 ih.2 hr⟩

/-- When the scheduler has left its loop, it has removed each semaphore and each segment that the
generator got for a process as often as the generator got it, and no other. -/
theorem ipcObjects_removed (algorithm : SchedulingAlgorithm)
    (quantum clk schedulerPid clkPid : ℤ) (lines : List Process) (as : List SimulatorAct)
    (hv : ∀ p ∈ lines, 0 ≤ p.arrivalTime ∧ p.arrivalTime < 2 ^ 31) (s : Simulator)
    (h : Trace (Guarded Simulator.Provided Simulator.next)
      (Simulator.initial algorithm quantum clk schedulerPid clkPid
        (readProcesses (pqInit 20 .sortByArrivalTime unusedProcess) lines)) as s)
    (hp : s.loop.point = .exited) :
    (s.loop.scheduler.trace.filterMap Effect.removedSem).Perm (as.filterMap SimulatorAct.semget) ∧
      (s.loop.scheduler.trace.filterMap Effect.removedShm).Perm
        (as.filterMap SimulatorAct.shmget) := by
  have hinit := simulatorInv_initial algorithm quantum clk schedulerPid clkPid hv
  obtain ⟨hi, hg⟩ := got_run hinit ⟨.refl _, rfl, by simp⟩ h
  obtain ⟨hwaiting, htemp, -⟩ := sent_of_exited hi hp
  constructor
  · have hremoved := reported_of_exited sem_keptUntilRetired hi hp
    have hsems := hg.sems
    rw [Intake.semids, hwaiting, htemp] at hsems
    have hmap : s.admission.intake.sent.filterMap (fun p => some p.syncSemid) =
        s.admission.intake.sent.map PCB.syncSemid := congrFun List.filterMap_eq_map _
    exact (hmap ▸ hremoved).trans hsems.symm
  · have hremoved := reported_of_exited shm_keptUntilRetired hi hp
    have hmap : s.admission.intake.sent.filterMap
        (fun p => if p.shmId ≠ -1 then some p.shmId else none) =
          s.admission.intake.sent.map PCB.shmId := by
      refine (List.filterMap_congr fun p hmem => if_pos ?_).trans
        (congrFun List.filterMap_eq_map _)
      apply hg.valid
      rw [hg.shms]
      exact List.mem_map_of_mem hmem
    rw [hg.shms]
    exact hmap ▸ hremoved

theorem ipcObjects_removed_two :
    ∃ s, Trace (Guarded Simulator.Provided Simulator.next)
        (Simulator.initial .HPF 0 0 100 101
          (readProcesses (pqInit 20 .sortByArrivalTime unusedProcess)
            [⟨7, 0, 1, 5, 1024⟩, ⟨8, 0, 1, 5, 64⟩])) crowdedRun s ∧
      (s.loop.scheduler.trace.filterMap Effect.removedSem).Perm [5, 6] ∧
      (s.loop.scheduler.trace.filterMap Effect.removedShm).Perm [11, 12] := by
  obtain ⟨s, hrun, htest⟩ := exists_trace_of_execute
    (R := fun (s : Simulator) a t => s.next a = some t) (fun _ _ _ h => h)
    (show (execute Simulator.Provided Simulator.next
      (Simulator.initial .HPF 0 0 100 101
        (readProcesses (pqInit 20 .sortByArrivalTime unusedProcess)
          [⟨7, 0, 1, 5, 1024⟩, ⟨8, 0, 1, 5, 64⟩])) crowdedRun).any
      (fun s => s.loop.point = .exited) = true by decide +kernel)
  exact ⟨s, hrun, ipcObjects_removed .HPF 0 0 100 101 [⟨7, 0, 1, 5, 1024⟩, ⟨8, 0, 1, 5, 64⟩]
    crowdedRun (by decide) s hrun (of_decide_eq_true htest)⟩

end KernelSim
