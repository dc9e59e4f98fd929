import KernelSim.Scheduler.MainLoop

/-! Which calls of the algorithms stop a process, and which only read or dispatch. -/
namespace KernelSim
open Relation

namespace Scheduler

variable {s s' t : Scheduler} {process : ℕ} {p : PCB} {clk : ℤ} {ok : Scheduler → Prop}

/-- A move that stops no process. -/
structure GentleMove (s s' : Scheduler) : Prop extends Move s s' where
  gentle : s.current ≠ none → Reread s s'

/-- `context_switching` gets past its test of the remaining time, with a process to stop. -/
def StopsCurrent (s : Scheduler) : Prop :=
  ∃ process, s.currentProcess = some process ∧
    ((s.updateProcessRemainingTime process).pcbs process).remainingTime ≠ 0

/-- `run_SRTN_Algorithm` finds a shorter process than the current one, and stops this one. -/
def Overtaken (s : Scheduler) : Prop :=
  0 < s.updateCurrent.readyHeap.size ∧
    (∃ process, s.updateCurrent.currentProcess = some process ∧
      (s.updateCurrent.pcbs process).remainingTime >
        (s.updateCurrent.pcbs (s.updateCurrent.readyHeap.processes 0)).remainingTime) ∧
    s.updateCurrent.StopsCurrent

/-- The first half of `run_RR_Algorithm`. -/
def fillCpu (s : Scheduler) : Scheduler :=
  if s.currentProcess = none ∧ 0 < s.rrQueue.size then s.contextSwitching else s

/-- `run_RR_Algorithm` finds the quantum of the current process used up, and stops it. -/
def Expired (s : Scheduler) : Prop :=
  s.fillCpu.updateCurrent.clockValue - s.fillCpu.updateCurrent.timeSliceStart ≥
      s.fillCpu.updateCurrent.quantum ∧
    0 < s.fillCpu.updateCurrent.rrQueue.size ∧ s.fillCpu.updateCurrent.StopsCurrent

/-- `run_algorithm` stops the current process. -/
def Preempts (s : Scheduler) : Prop :=
  match s.algorithm with
  | .HPF => False
  | .SRTN => s.Overtaken
  | .RR => s.Expired

theorem updateCurrent_none (hc : s.currentProcess = none) : s.updateCurrent = s := by
  simp only [updateCurrent, hc]

theorem updateCurrent_some (hc : s.currentProcess = some process) :
    s.updateCurrent = s.updateProcessRemainingTime process := by
  simp only [updateCurrent, hc]

theorem runRRAlgorithm_eq (s : Scheduler) :
    s.runRRAlgorithm = if s.fillCpu.currentProcess = none then s.fillCpu
      else if s.fillCpu.updateCurrent.clockValue - s.fillCpu.updateCurrent.timeSliceStart ≥
          s.fillCpu.updateCurrent.quantum ∧ 0 < s.fillCpu.updateCurrent.rrQueue.size then
        s.fillCpu.updateCurrent.contextSwitching
      else s.fillCpu.updateCurrent := by
  have hfill : (if s.currentProcess = none ∧ 0 < s.rrQueue.size then s.contextSwitching else s) =
      s.fillCpu := rfl
  simp only [runRRAlgorithm, hfill]
  cases hc : s.fillCpu.currentProcess with
  | none => rw [if_pos rfl]
  | some process => rw [if_neg (Option.some_ne_none process), updateCurrent_some hc]

theorem runSRTNAlgorithm_eq (s : Scheduler) :
    s.runSRTNAlgorithm = if 0 < s.updateCurrent.readyHeap.size ∧
        ∀ process, s.updateCurrent.currentProcess = some process →
          (s.updateCurrent.pcbs process).remainingTime >
            (s.updateCurrent.pcbs (s.updateCurrent.readyHeap.processes 0)).remainingTime
      then s.updateCurrent.contextSwitching else s.updateCurrent := by
  unfold runSRTNAlgorithm
  dsimp only
  cases hc : s.updateCurrent.currentProcess with
  | none => simp
  | some process =>
    by_cases hsize : 0 < s.updateCurrent.readyHeap.size <;> simp [hsize]

/-- One reading, or one context switch, which stops a process only where `ok` allows it. -/
inductive Permitted (ok : Scheduler → Prop) (s : Scheduler) : Scheduler → Prop
  | read {process : ℕ} (hc : s.currentProcess = some process) :
      Permitted ok s (s.updateProcessRemainingTime process)
  | switch (h : s.StopsCurrent → ok s) : Permitted ok s s.contextSwitching

theorem stopsCurrent_some (h : s.StopsCurrent) : s.currentProcess ≠ none := by
  obtain ⟨process, hc, -⟩ := h
  simp [hc]

theorem updateCurrent_permitted (s : Scheduler) :
    ReflTransGen (Permitted ok) s s.updateCurrent := by
  unfold updateCurrent
  split
  · exact .refl
  · rename_i process hc
    exact .single (.read hc)

/-- A context switch with no current process stops none. -/
theorem idle_permitted (hc : s.currentProcess = none) : Permitted ok s s.contextSwitching :=
  .switch fun h => absurd hc (stopsCurrent_some h)

theorem fillCpu_permitted (s : Scheduler) : ReflTransGen (Permitted ok) s s.fillCpu := by
  unfold fillCpu
  split
  · rename_i hc
    exact .single (idle_permitted hc.1)
  · exact .refl

theorem runHPF_permitted (s : Scheduler) : ReflTransGen (Permitted ok) s s.runHPFAlgorithm := by
  unfold runHPFAlgorithm
  split
  · rename_i hc
    exact .single (idle_permitted hc.1)
  · exact .refl

theorem runSRTN_permitted (h : s.Overtaken → ok s.updateCurrent) :
    ReflTransGen (Permitted ok) s s.runSRTNAlgorithm := by
  have hread : ReflTransGen (Permitted ok) s s.updateCurrent := updateCurrent_permitted s
  rw [runSRTNAlgorithm_eq]
  split
  · rename_i hcond
    refine hread.tail (.switch fun hstop => h ?_)
    obtain ⟨process, hc⟩ := Option.ne_none_iff_exists'.mp (stopsCurrent_some hstop)
    exact ⟨hcond.1, ⟨process, hc, hcond.2 process hc⟩, hstop⟩
  · exact hread

theorem runRR_permitted (h : s.Expired → ok s.fillCpu.updateCurrent) :
    ReflTransGen (Permitted ok) s s.runRRAlgorithm := by
  have hfill : ReflTransGen (Permitted ok) s s.fillCpu := fillCpu_permitted s
  have hread := hfill.trans (updateCurrent_permitted s.fillCpu)
  rw [runRRAlgorithm_eq]
  split
  · exact hfill
  · split
    · rename_i hcond
      exact hread.tail (.switch fun hstop => h ⟨hcond.1, hcond.2, hstop⟩)
    · exact hread

/-- What the single steps do, the calls do. -/
theorem permitted_lift {R : Scheduler → Scheduler → Prop} (hsound : ∀ t u, R t u → Sound u)
    (hstep : ∀ t u, Sound t → Permitted ok t u → R t u) (hs : Sound s)
    (h : ReflTransGen (Permitted ok) s s') : ReflTransGen R s s' ∧ Sound s' := by
  induction h with
  | refl => exact ⟨.refl, hs⟩
  | tail _ hp ih =>
    have hr := hstep _ _ ih.2 hp
    exact ⟨ih.1.tail hr, hsound _ _ hr⟩

theorem contextSwitching_gentle (hs : Sound s) (h : ¬ s.StopsCurrent) :
    GentleMove s s.contextSwitching := by
  refine ⟨contextSwitching_move hs, fun hc => ?_⟩
  obtain ⟨process, hcp⟩ := Option.ne_none_iff_exists'.mp (current_eq_none.not.mp hc)
  have hzero : ((s.updateProcessRemainingTime process).pcbs process).remainingTime = 0 := by
    by_contra hne
    exact h ⟨process, hcp, hne⟩
  rw [contextSwitching_some hs hcp, if_pos hzero]
  exact updateProcessRemainingTime_reread hs hcp

theorem gentles_moves (h : ReflTransGen GentleMove s s') : ReflTransGen Move s s' :=
  h.lift id fun _ _ hm => hm.toMove

theorem permitted_gentle (hs : Sound s) (h : Permitted (fun _ => False) s s') :
    GentleMove s s' := by
  cases h with
  | read hc => exact ⟨reread_move hs hc, fun _ => updateProcessRemainingTime_reread hs hc⟩
  | switch h => exact contextSwitching_gentle hs h

theorem gentles_of_permitted (hs : Sound s) (h : ReflTransGen (Permitted fun _ => False) s s') :
    ReflTransGen GentleMove s s' :=
  (permitted_lift (fun _ _ hm => hm.sound) (fun _ _ => permitted_gentle) hs h).1

theorem fillCpu_gentle (hs : Sound s) : ReflTransGen GentleMove s s.fillCpu :=
  gentles_of_permitted hs (fillCpu_permitted s)

theorem runSRTN_gentle (hs : Sound s) (h : ¬ s.Overtaken) :
    ReflTransGen GentleMove s s.runSRTNAlgorithm :=
  gentles_of_permitted hs (runSRTN_permitted h)

/-- Without a preemption the algorithms only read and dispatch. -/
theorem runAlgorithm_gentle (hs : Sound s) (h : ¬ s.Preempts) :
    ReflTransGen GentleMove s s.runAlgorithm := by
  apply gentles_of_permitted hs
  unfold runAlgorithm
  unfold Preempts at h
  split <;> rename_i ha <;> simp only [ha] at h
  · exact runHPF_permitted s
  · exact runSRTN_permitted h
  · exact runRR_permitted h

/-- `s'` is `s` after some effects, and `clk` is the time recorded for each process they stop. -/
def StopsAt (clk : ℤ) (s s' : Scheduler) : Prop :=
  ∃ es, s'.trace = s.trace ++ es ∧ ∀ p, .signal .stop p ∈ es → p.lastPremptTime = clk

theorem StopsAt.of_eq (h : s'.trace = s.trace) : StopsAt clk s s' := ⟨[], by simp [h]⟩

theorem StopsAt.trans (h : StopsAt clk s t) (h' : StopsAt clk t s') : StopsAt clk s s' := by
  obtain ⟨es, ht, hes⟩ := h
  obtain ⟨fs, ht', hfs⟩ := h'
  refine ⟨es ++ fs, by rw [ht', ht, List.append_assoc], fun p hp => ?_⟩
  exact (List.mem_append.mp hp).elim (hes p) (hfs p)

theorem stop_notMem_cont {q r : PCB} {event : ProcessEvent} {sent : Bool} :
    .signal .stop r ∉ contEffects event clk sent q := by
  intro h
  rcases mem_contEffects h with h | h <;> cases h

theorem mem_stop {r : PCB} {sent : Bool} (h : .signal .stop r ∈ stopEffects clk sent p) : r = p := by
  rcases mem_stopEffects h with h | h | h <;> cases h
  rfl

theorem move_stopsAt (h : Move s s') : StopsAt s.clockValue s s' := by
  rcases h.outcome with hr | hw
  · exact .of_eq hr.trace
  · cases hw with
    | kept _ _ _ _ ht => exact .of_eq ht
    | idle _ _ _ _ ht => exact .of_eq ht
    | dispatched _ _ _ _ _ ht => exact ⟨_, ht, fun _ hp => absurd hp stop_notMem_cont⟩
    | replaced _ _ _ _ _ _ _ _ _ ht =>
      rw [List.append_assoc] at ht
      refine ⟨_, ht, fun p hp => ?_⟩
      rcases List.mem_append.mp hp with hp | hp
      · rw [mem_stop hp]
        rfl
      · exact absurd hp stop_notMem_cont

theorem moves_stopsAt (h : ReflTransGen Move s s') : StopsAt s.clockValue s s' := by
  induction h with
  | refl => exact .of_eq rfl
  | tail h hm ih => exact ih.trans ((moves_books h).clockValue ▸ move_stopsAt hm)

theorem gentle_stopsAt (h : GentleMove s s') : StopsAt clk s s' := by
  by_cases hc : s.current = none
  · rcases h.outcome with hr | hw
    · exact .of_eq hr.trace
    · cases hw with
      | idle _ _ _ _ ht => exact .of_eq ht
      | dispatched _ _ _ _ _ ht => exact ⟨_, ht, fun _ hp => absurd hp stop_notMem_cont⟩
      | kept _ hc' => simp [hc] at hc'
      | replaced _ _ _ _ _ hc' => simp [hc] at hc'
  · exact .of_eq (h.gentle hc).trace

theorem gentles_stopsAt (h : ReflTransGen GentleMove s s') : StopsAt clk s s' := by
  induction h with
  | refl => exact .of_eq rfl
  | tail _ hm ih => exact ih.trans (gentle_stopsAt hm)

/-- A process has been stopped since `s`, at the time `clk`. -/
def Stopped (clk : ℤ) (s s' : Scheduler) : Prop :=
  ∃ es p, s'.trace = s.trace ++ es ∧ .signal .stop p ∈ es ∧ p.lastPremptTime = clk

theorem Stopped.of_trace (h : Stopped clk t s') (ht : ∃ es, t.trace = s.trace ++ es) :
    Stopped clk s s' := by
  obtain ⟨es, p, heq, hp, hclk⟩ := h
  obtain ⟨fs, ht⟩ := ht
  exact ⟨fs ++ es, p, by rw [heq, ht, List.append_assoc], List.mem_append_right _ hp, hclk⟩

theorem pickProcess_trace (s : Scheduler) : s.pickProcess.1.trace = s.trace := by
  unfold pickProcess
  split
  · split <;> rfl
  · rfl

theorem dispatch_trace (s : Scheduler) : ∃ es, s.dispatch.trace = s.trace ++ es := by
  unfold dispatch
  split
  · exact ⟨[], by simp⟩
  · rename_i process _
    split
    · exact ⟨[], by simp⟩
    · rename_i hsem
      split
      · obtain ⟨-, sent, ht⟩ := startProcess_spec (s := s) (not_le.mp hsem)
        exact ⟨_, ht⟩
      · obtain ⟨-, sent, ht⟩ := resumeProcess_spec s process
        exact ⟨_, ht⟩

theorem contextSwitching_stopped (hs : Sound s) (h : s.StopsCurrent) :
    Stopped s.clockValue s s.contextSwitching := by
  obtain ⟨process, hcp, hne⟩ := h
  obtain ⟨-, v, stopped, -, -, -, ht, -⟩ := preempt_spec s process
  rw [contextSwitching_some hs hcp, if_neg hne]
  generalize (s.updateProcessRemainingTime process).preemptProcess process = t at *
  have hq : (t.requeue process).trace = t.trace := by
    unfold requeue
    split <;> rfl
  obtain ⟨es, hd⟩ := dispatch_trace
    { (t.requeue process).pickProcess.1 with currentProcess := (t.requeue process).pickProcess.2 }
  have hpick : (t.requeue process).pickProcess.1.trace = t.trace :=
    (pickProcess_trace _).trans hq
  refine ⟨stopEffects s.clockValue stopped ((s.pcbs process).preempted s.clockValue v) ++ es,
    (s.pcbs process).preempted s.clockValue v, ?_, ?_, rfl⟩
  · rw [← List.append_assoc, ← ht, ← hpick]
    exact hd
  · exact List.mem_append_left _ List.mem_cons_self

theorem runSRTN_stopped (hs : Sound s) (h : s.Overtaken) :
    Stopped s.clockValue s s.runSRTNAlgorithm := by
  obtain ⟨hsize, ⟨process, hc, hlt⟩, hstop⟩ := h
  have hmoves := updateCurrent_moves hs
  have hcond : ∀ process', s.updateCurrent.currentProcess = some process' →
      (s.updateCurrent.pcbs process').remainingTime >
        (s.updateCurrent.pcbs (s.updateCurrent.readyHeap.processes 0)).remainingTime := by
    intro process' hc'
    obtain rfl : process = process' := Option.some.inj (hc.symm.trans hc')
    exact hlt
  have hswitch := contextSwitching_stopped (moves_sound hs hmoves) hstop
  rw [(moves_books hmoves).clockValue] at hswitch
  rw [runSRTNAlgorithm_eq, if_pos ⟨hsize, hcond⟩]
  exact hswitch.of_trace ⟨[], by simp [(updateCurrent_reread hs).trace]⟩

/-- A preemption stops a process, at the time `clockValue`. -/
theorem runAlgorithm_stopped (hs : Sound s) (h : s.Preempts) :
    Stopped s.clockValue s s.runAlgorithm := by
  unfold runAlgorithm
  unfold Preempts at h
  split <;> rename_i ha <;> simp only [ha] at h
  · exact runSRTN_stopped hs h
  · obtain ⟨hquantum, hsize, hstop⟩ := h
    have hfill := gentles_moves (fillCpu_gentle hs)
    have hmoves := hfill.trans (updateCurrent_moves (moves_sound hs hfill))
    have hc : s.fillCpu.currentProcess ≠ none := by
      intro hc
      rw [updateCurrent_none hc] at hstop
      exact stopsCurrent_some hstop hc
    have hswitch := contextSwitching_stopped (moves_sound hs hmoves) hstop
    rw [(moves_books hmoves).clockValue] at hswitch
    rw [runRRAlgorithm_eq, if_neg hc, if_pos ⟨hquantum, hsize⟩]
    obtain ⟨es, ht, -⟩ := moves_trace hmoves
    exact hswitch.of_trace ⟨es, ht⟩

end Scheduler

end KernelSim
