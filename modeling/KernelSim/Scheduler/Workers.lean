import KernelSim.Scheduler.Scheduler
import Mathlib.Data.List.Perm.Subperm

/-! The simulated processes of `process.c`, and which of them can have a `SIGUSR2` under way. -/
namespace KernelSim

/-- Where a process is in `run_process`. -/
inductive WorkerPhase
  /-- `down_nb(semid)`, until it succeeds -/
  | waiting
  /-- `while (get_clk() == current_clk)` -/
  | working (currentClk : ℤ)
  /-- `*shared_remaining_time = 0;` -/
  | finishing
  /-- `kill(scheduler_pid, SIGUSR2);` -/
  | signalling
  | exited
  deriving DecidableEq

/-- A process in `run_process`, with its shared memory and its semaphore. -/
structure Worker where
  sharedRemainingTime : ℤ
  semaphore : Bool
  phase : WorkerPhase
  stopped : Bool
  deriving DecidableEq

inductive WorkerAct
  | down
  | decrement
  | clear
  | kill
  deriving DecidableEq

/-- The process as `createProcess` leaves it: its shared memory is filled and it is stopped. -/
def Worker.create (remainingTime : ℤ) : Worker :=
  { sharedRemainingTime := remainingTime, semaphore := false, phase := .waiting, stopped := true }

/-- One step at the time `clk`; a stopped process takes none. -/
def Worker.next (w : Worker) (clk : ℤ) (act : WorkerAct) : Option Worker :=
  if w.stopped then none
  else
    match act, w.phase with
    | .down, .waiting =>
      if w.semaphore then some { w with semaphore := false, phase := .working clk } else none
    | .decrement, .working currentClk =>
      if clk ≠ currentClk then
        some { w with
          sharedRemainingTime := w.sharedRemainingTime - 1
          phase := if w.sharedRemainingTime - 1 ≤ 0 then .finishing else .waiting }
      else none
    | .clear, .finishing => some { w with sharedRemainingTime := 0, phase := .signalling }
    | .kill, .signalling => some { w with phase := .exited }
    | _, _ => none

/-- What the processes notice of what the scheduler does. -/
def observe (workers : ℤ → Worker) : Effect → ℤ → Worker
  | .signal .stop p =>
    Function.update workers p.pid { workers p.pid with stopped := true }
  | .signal .cont p =>
    Function.update workers p.pid { workers p.pid with stopped := false }
  | .grant p => Function.update workers p.pid { workers p.pid with semaphore := true }
  | _ => workers

/-- What a step of a process can do. -/
inductive WorkerStep (clk : ℤ) (w : Worker) : WorkerAct → Worker → Prop
  | down (hp : w.phase = .waiting) (hs : w.semaphore = true) :
      WorkerStep clk w .down { w with semaphore := false, phase := .working clk }
  | decrement {currentClk : ℤ} (hp : w.phase = .working currentClk) (hc : clk ≠ currentClk) :
      WorkerStep clk w .decrement
        { w with
          sharedRemainingTime := w.sharedRemainingTime - 1
          phase := if w.sharedRemainingTime - 1 ≤ 0 then .finishing else .waiting }
  | clear (hp : w.phase = .finishing) :
      WorkerStep clk w .clear { w with sharedRemainingTime := 0, phase := .signalling }
  | kill (hp : w.phase = .signalling) : WorkerStep clk w .kill { w with phase := .exited }

variable {onCpu : Option ℤ} {waiting waiting' ended : List ℤ} {workers workers' : ℤ → Worker}
  {signals : List ℤ} {pid pid' : ℤ} {w w' : Worker} {clk remainingTime : ℤ} {act : WorkerAct}

theorem workerStep_of_next (h : w.next clk act = some w') :
    w.stopped = false ∧ WorkerStep clk w act w' := by
  unfold Worker.next at h
  split at h
  · cases h
  · rename_i hstop
    refine ⟨by simpa using hstop, ?_⟩
    split at h
    · rename_i hp
      split at h <;> cases h
      exact .down hp ‹_›
    · rename_i currentClk hp
      split at h <;> cases h
      exact .decrement hp ‹_›
    · rename_i hp
      cases h
      exact .clear hp
    · rename_i hp
      cases h
      exact .kill hp
    · cases h

/-- Who can be credited with a completion: only the process on the CPU runs, and when it has exited
its signal is the one under way. -/
structure Credit (onCpu : Option ℤ) (waiting ended : List ℤ) (workers : ℤ → Worker)
    (signals : List ℤ) : Prop where
  running : ∀ pid, (workers pid).stopped = false →
    (workers pid).phase = .exited ∨ onCpu = some pid
  sender : ∀ pid ∈ signals, onCpu = some pid ∧ (workers pid).phase = .exited
  one : signals.length ≤ 1
  signalled : ∀ pid, onCpu = some pid → (workers pid).phase = .exited → pid ∈ signals
  unfinished : ∀ pid ∈ waiting, (workers pid).phase ≠ .exited
  exited : ∀ pid ∈ ended, (workers pid).phase = .exited
  zero : ∀ pid, (workers pid).phase = .exited ∨ (workers pid).phase = .signalling →
    (workers pid).sharedRemainingTime = 0
  distinct : (onCpu.toList ++ waiting).Nodup

/-- No signal is under way while the process on the CPU has not exited. -/
theorem Credit.silent (h : Credit onCpu waiting ended workers signals)
    (hp : ∀ pid, onCpu = some pid → (workers pid).phase ≠ .exited) : signals = [] := by
  by_contra hne
  obtain ⟨pid, hpid⟩ := List.exists_mem_of_ne_nil _ hne
  obtain ⟨hcpu, hexit⟩ := h.sender pid hpid
  exact hp pid hcpu hexit

theorem Credit.notMem_waiting (h : Credit (some pid) waiting ended workers signals) :
    pid ∉ waiting := (List.nodup_cons.mp h.distinct).1

/-- A step of a process is one of the process on the CPU. -/
theorem Credit.step (h : Credit onCpu waiting ended workers signals)
    (hstop : (workers pid).stopped = false) (hw : WorkerStep clk (workers pid) act w') :
    Credit onCpu waiting ended (Function.update workers pid w')
      (if act = .kill then signals ++ [pid] else signals) := by
  have hphase : (workers pid).phase ≠ .exited := by
    cases hw with
    | down hp | decrement hp | clear hp | kill hp => simp [hp]
  have hcpu : onCpu = some pid := (h.running pid hstop).resolve_left hphase
  subst hcpu
  have hsilent : signals = [] := h.silent fun pid' heq => by
    obtain rfl : pid = pid' := Option.some.inj heq
    exact hphase
  have hother : ∀ pid', pid' ≠ pid → Function.update workers pid w' pid' = workers pid' :=
    fun pid' hne => Function.update_of_ne hne _ _
  have hzero : w'.phase = .exited ∨ w'.phase = .signalling → w'.sharedRemainingTime = 0 := by
    cases hw with
    | down => simp
    | decrement => dsimp only; split <;> simp
    | clear => exact fun _ => rfl
    | kill hp => exact fun _ => h.zero pid (Or.inr hp)
  have hkill : w'.phase = .exited → act = .kill := by
    cases hw with
    | decrement => dsimp only; split <;> simp
    | down | clear => simp
    | kill => exact fun _ => rfl
  have hsent : act = .kill → w'.phase = .exited := by
    rintro rfl
    cases hw
    rfl
  subst hsilent
  refine ⟨?_, ?_, ?_, ?_, ?_, ?_, ?_, h.distinct⟩
  · intro pid' hrun
    by_cases heq : pid' = pid
    · exact Or.inr (by rw [heq])
    · rw [hother pid' heq] at hrun ⊢
      exact h.running pid' hrun
  · intro pid' hmem
    split at hmem
    · rename_i hact
      obtain rfl : pid' = pid := by simpa using hmem
      rw [Function.update_self]
      exact ⟨rfl, hsent hact⟩
    · simp at hmem
  · split <;> simp
  · intro pid' heq hexit
    obtain rfl : pid = pid' := Option.some.inj heq
    rw [Function.update_self] at hexit
    simp [hkill hexit]
  · intro pid' hmem
    have hne : pid' ≠ pid := by
      rintro rfl
      exact h.notMem_waiting hmem
    rw [hother pid' hne]
    exact h.unfinished pid' hmem
  · intro pid' hmem
    have hne : pid' ≠ pid := by
      rintro rfl
      exact hphase (h.exited pid' hmem)
    rw [hother pid' hne]
    exact h.exited pid' hmem
  · intro pid'
    by_cases heq : pid' = pid
    · subst heq
      rw [Function.update_self]
      exact hzero
    · rw [hother pid' heq]
      exact h.zero pid'

/-- Only what a process is granted changes. -/
theorem Credit.congr (h : Credit onCpu waiting ended workers signals)
    (hw : ∀ pid, (workers' pid).phase = (workers pid).phase ∧
      (workers' pid).stopped = (workers pid).stopped ∧
      (workers' pid).sharedRemainingTime = (workers pid).sharedRemainingTime) :
    Credit onCpu waiting ended workers' signals := by
  refine ⟨?_, ?_, h.one, ?_, ?_, ?_, ?_, h.distinct⟩
  · intro pid
    rw [(hw pid).1, (hw pid).2.1]
    exact h.running pid
  · intro pid hmem
    rw [(hw pid).1]
    exact h.sender pid hmem
  · intro pid heq
    rw [(hw pid).1]
    exact h.signalled pid heq
  · intro pid hmem
    rw [(hw pid).1]
    exact h.unfinished pid hmem
  · intro pid hmem
    rw [(hw pid).1]
    exact h.exited pid hmem
  · intro pid
    rw [(hw pid).1, (hw pid).2.2]
    exact h.zero pid

theorem Credit.subperm (h : Credit onCpu waiting ended workers signals)
    (hsub : waiting'.Subperm waiting) : Credit onCpu waiting' ended workers signals := by
  refine ⟨h.running, h.sender, h.one, h.signalled, fun pid hmem => h.unfinished pid (hsub.subset hmem),
    h.exited, h.zero, ?_⟩
  obtain ⟨l, hl, hs⟩ := (List.subperm_append_left onCpu.toList).mpr hsub
  exact hl.nodup_iff.mp (h.distinct.sublist hs)

/-- Signals leave a process where it is. -/
theorem setStopped_phase (workers : ℤ → Worker) (pid : ℤ) (stopped : Bool) (pid' : ℤ) :
    (Function.update workers pid { workers pid with stopped } pid').phase = (workers pid').phase ∧
      (Function.update workers pid { workers pid with stopped } pid').sharedRemainingTime =
        (workers pid').sharedRemainingTime := by
  by_cases heq : pid' = pid
  · subst heq
    simp
  · simp [Function.update_of_ne heq]

/-- Neither do they undo the end of one. -/
theorem Credit.exited_setStopped (h : Credit onCpu waiting ended workers signals) (pid : ℤ)
    (stopped : Bool) : ∀ pid' ∈ ended,
      (Function.update workers pid { workers pid with stopped } pid').phase = .exited := by
  intro pid' hmem
  rw [(setStopped_phase workers pid stopped pid').1]
  exact h.exited pid' hmem

theorem Credit.zero_setStopped (h : Credit onCpu waiting ended workers signals) (pid : ℤ)
    (stopped : Bool) : ∀ pid',
      (Function.update workers pid { workers pid with stopped } pid').phase = .exited ∨
        (Function.update workers pid { workers pid with stopped } pid').phase = .signalling →
      (Function.update workers pid { workers pid with stopped } pid').sharedRemainingTime = 0 := by
  intro pid'
  obtain ⟨hphase, hshared⟩ := setStopped_phase workers pid stopped pid'
  rw [hphase, hshared]
  exact h.zero pid'

/-- `SIGSTOP`, to a process that has not exited. -/
theorem Credit.stop (h : Credit (some pid) waiting ended workers signals)
    (hp : (workers pid).phase ≠ .exited) :
    Credit none (pid :: waiting) ended
      (Function.update workers pid { workers pid with stopped := true }) signals := by
  obtain rfl : signals = [] := h.silent fun pid' heq => by
    obtain rfl : pid = pid' := Option.some.inj heq
    exact hp
  have hphase := setStopped_phase workers pid true
  refine ⟨?_, by simp, by simp, by simp, ?_, h.exited_setStopped pid true,
    h.zero_setStopped pid true, h.distinct⟩
  · intro pid' hrun
    by_cases heq : pid' = pid
    · subst heq
      simp at hrun
    · rw [Function.update_of_ne heq] at hrun ⊢
      refine (h.running pid' hrun).imp_right fun hcpu => ?_
      exact absurd (Option.some.inj hcpu).symm heq
  · intro pid' hmem
    rw [(hphase pid').1]
    rcases List.mem_cons.mp hmem with rfl | hmem
    · exact hp
    · exact h.unfinished pid' hmem

/-- `SIGCONT`, to a process that was waiting. -/
theorem Credit.dispatch (h : Credit none waiting ended workers signals)
    (hperm : waiting.Perm (pid :: waiting')) :
    Credit (some pid) waiting' ended
      (Function.update workers pid { workers pid with stopped := false }) signals := by
  obtain rfl : signals = [] := h.silent fun pid' heq => by cases heq
  have hpid := h.unfinished pid (hperm.mem_iff.mpr List.mem_cons_self)
  have hphase := setStopped_phase workers pid false
  refine ⟨?_, by simp, by simp, ?_, ?_, h.exited_setStopped pid false,
    h.zero_setStopped pid false, hperm.nodup_iff.mp h.distinct⟩
  · intro pid' hrun
    by_cases heq : pid' = pid
    · exact Or.inr (by rw [heq])
    · rw [Function.update_of_ne heq] at hrun ⊢
      exact (h.running pid' hrun).imp_right fun hcpu => by cases hcpu
  · intro pid' heq hexit
    obtain rfl : pid = pid' := Option.some.inj heq
    rw [(hphase pid).1] at hexit
    exact absurd hexit hpid
  · intro pid' hmem
    rw [(hphase pid').1]
    exact h.unfinished pid' (hperm.mem_iff.mpr (List.mem_cons_of_mem _ hmem))

/-- The completion of the process on the CPU, on its own signal. -/
theorem Credit.retire {ended' : List ℤ} (h : Credit (some pid) waiting ended workers (pid' :: signals))
    (hended : ∀ q ∈ ended', q ∈ ended ∨ q = pid) :
    Credit none waiting ended' workers signals := by
  obtain ⟨heq, hexit⟩ := h.sender pid' List.mem_cons_self
  obtain rfl : pid = pid' := Option.some.inj heq
  have hone := h.one
  obtain rfl : signals = [] := by
    rw [List.length_cons] at hone
    exact List.length_eq_zero_iff.mp (by omega)
  refine ⟨?_, by simp, by simp, by simp, h.unfinished, ?_, h.zero, (List.nodup_cons.mp h.distinct).2⟩
  · intro q hrun
    refine Or.inl ((h.running q hrun).elim id fun hcpu => ?_)
    obtain rfl : pid = q := Option.some.inj hcpu
    exact hexit
  · intro q hmem
    rcases hended q hmem with hmem | rfl
    · exact h.exited q hmem
    · exact hexit

/-- A new process, stopped from the start. -/
theorem Credit.arrive (h : Credit onCpu waiting ended workers signals) (remainingTime : ℤ)
    (hcpu : onCpu ≠ some pid) (hw : pid ∉ waiting) (he : pid ∉ ended) :
    Credit onCpu (pid :: waiting) ended
      (Function.update workers pid (.create remainingTime)) signals := by
  have hother : ∀ pid', pid' ≠ pid →
      Function.update workers pid (Worker.create remainingTime) pid' = workers pid' :=
    fun pid' hne => Function.update_of_ne hne _ _
  have hne : ∀ {pid'}, onCpu = some pid' → pid' ≠ pid := by
    rintro pid' heq rfl
    exact hcpu heq
  refine ⟨?_, ?_, h.one, ?_, ?_, ?_, ?_, ?_⟩
  · intro pid' hrun
    by_cases heq : pid' = pid
    · subst heq
      simp [Worker.create] at hrun
    · rw [hother pid' heq] at hrun ⊢
      exact h.running pid' hrun
  · intro pid' hmem
    have hs := h.sender pid' hmem
    rw [hother pid' (hne hs.1)]
    exact hs
  · intro pid' heq hexit
    rw [hother pid' (hne heq)] at hexit
    exact h.signalled pid' heq hexit
  · intro pid' hmem
    rcases List.mem_cons.mp hmem with rfl | hmem
    · simp [Worker.create]
    · rw [hother pid' fun heq => hw (heq ▸ hmem)]
      exact h.unfinished pid' hmem
  · intro pid' hmem
    rw [hother pid' fun heq => he (heq ▸ hmem)]
    exact h.exited pid' hmem
  · intro pid'
    by_cases heq : pid' = pid
    · subst heq
      simp [Worker.create]
    · rw [hother pid' heq]
      exact h.zero pid'
  · refine List.perm_middle.nodup_iff.mpr (List.nodup_cons.mpr ⟨fun hmem => ?_, h.distinct⟩)
    rcases List.mem_append.mp hmem with hmem | hmem
    · exact hcpu (Option.mem_toList.mp hmem)
    · exact hw hmem

end KernelSim
