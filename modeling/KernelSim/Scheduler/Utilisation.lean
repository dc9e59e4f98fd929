import KernelSim.Scheduler.Workload
import KernelSim.Scheduler.Shutdown
import KernelSim.Scheduler.Dispatcher
import KernelSim.Scheduler.Clock

/-! The processor time charged, against the ticks that pass. -/
namespace KernelSim
open Runs Relation Scheduler Tally

/-- A process, as far as its grants and its remaining time go. -/
structure SameWork (w w' : Worker) : Prop where
  phase : w'.phase = w.phase
  semaphore : w'.semaphore = w.semaphore
  sharedRemainingTime : w'.sharedRemainingTime = w.sharedRemainingTime

namespace Scheduler

variable {s : Scheduler} {p : PCB}

theorem receiveMessage_pids (hs : Sound s) (hsem : 0 < p.syncSemid) :
    (s.receiveMessage p).receivedPids = s.receivedPids ++ [p.pid] := by
  obtain ⟨hsound, -, -, -, -, ht⟩ := handleProcessArrival_spec hs hsem
  have harr : (s.handleProcessArrival p).receivedPids = s.receivedPids ++ [p.pid] := by
    simp [receivedPids, ht, Effect.receivedPid]
  obtain ⟨es, hrun, hes⟩ := moves_trace (moved_moves (preemptOnArrival_moved hsound).1)
  rw [← harr, ← (pids_ofSwitch hrun hes).2]
  obtain ⟨_, heq⟩ := receiveMessage_eq s p
  rw [heq]
  rfl

theorem completion_pids (hs : Sound s) (clk : ℤ) :
    (s.handleProcessCompletion clk).receivedPids = s.receivedPids := by
  obtain ⟨-, hsame⟩ | ⟨process, hcp, hor⟩ := completeCurrent_moved (hs.withClock clk)
  · rw [handleProcessCompletion, hsame]
    rfl
  · obtain ⟨value, hsound, -, -, -, ht⟩ := retire_spec (hs.withClock clk) hcp
    have hretired := (pids_retire ht).2
    rw [handleProcessCompletion]
    rcases hor with hsame | ⟨-, hmoved⟩
    · rw [hsame]
      exact hretired
    · obtain ⟨es, hrun, hes⟩ := moves_trace (moved_moves (.single hmoved))
      exact (pids_ofSwitch hrun hes).2.trans hretired

end Scheduler

namespace Worker

/-- The units of its run time `executionTime` that a process has been granted. -/
def units (w : Worker) (executionTime : ℤ) : ℤ :=
  match w.phase with
  | .waiting => executionTime - w.sharedRemainingTime + if w.semaphore then 1 else 0
  | .working _ => executionTime - w.sharedRemainingTime + (if w.semaphore then 1 else 0) + 1
  | _ => executionTime

/-- A process has no more left than its run time. -/
def Within (w : Worker) (executionTime : ℤ) : Prop :=
  w.unfinished = true → w.sharedRemainingTime ≤ executionTime

variable {w w' : Worker} {clk e : ℤ} {act : WorkerAct}

theorem units_nonneg (h : w.Within e) (he : 0 ≤ e) : 0 ≤ w.units e := by
  unfold Within unfinished at h
  unfold units
  split <;> rename_i hp <;> simp only [hp, true_implies] at h
  · split <;> omega
  · split <;> omega
  · exact he

/-- A unit that is granted and not yet run. -/
theorem one_le_units (h : w.Within e) (hun : w.unfinished = true) (hg : w.Granted clk) :
    1 ≤ w.units e := by
  have hle := h hun
  unfold unfinished at hun
  unfold units
  split <;> rename_i hp <;> simp only [hp] at hun
  · have hsem : w.semaphore = true := hg.resolve_right (by simp [hp])
    rw [if_pos hsem]
    omega
  · split <;> omega
  · simp at hun

theorem within_step (h : w.Within e) (hw : WorkerStep clk w act w') : w'.Within e := by
  cases hw with
  | down hp hs => exact fun _ => h (by rw [unfinished, hp])
  | decrement hp hc =>
    have hle := h (by rw [unfinished, hp])
    intro _
    dsimp only
    omega
  | clear hp | kill hp => exact fun hun => by simp [unfinished] at hun

/-- A step of a process grants it nothing. -/
theorem units_step (hw : WorkerStep clk w act w') : w'.units e ≤ w.units e := by
  cases hw with
  | down hp hs => simp [units, hp, hs]
  | decrement hp hc =>
    by_cases hzero : w.sharedRemainingTime - 1 ≤ 0
    · simp only [units, hp, if_pos hzero]
      split <;> omega
    · simp only [units, hp, if_neg hzero]
      split <;> omega
  | clear hp | kill hp => simp [units, hp]

/-- A unit granted and not run within its tick is still there after a step, unless the process is
done with fewer. -/
theorem fresh_step (hun : w.unfinished = true) (hg : w.Granted clk)
    (hw : WorkerStep clk w act w') :
    w'.unfinished = true ∧ w'.Granted clk ∨ w'.units e + 1 ≤ w.units e := by
  cases hw with
  | down hp hs => exact Or.inl ⟨rfl, Or.inr rfl⟩
  | @decrement c hp hc =>
    have hsem : w.semaphore = true := by
      apply hg.resolve_right
      intro hclk
      rw [hp, WorkerPhase.working.injEq] at hclk
      exact hc hclk.symm
    by_cases hzero : w.sharedRemainingTime - 1 ≤ 0
    · right
      simp only [units, hp, if_pos hzero, if_pos hsem]
      omega
    · left
      refine ⟨?_, Or.inl hsem⟩
      simp only [unfinished, if_neg hzero]
  | clear hp | kill hp => simp [unfinished, hp] at hun

/-- What `SETVAL` to 1 leaves of a process. -/
structure Posted (w w' : Worker) : Prop where
  phase : w'.phase = w.phase
  semaphore : w'.semaphore = true
  sharedRemainingTime : w'.sharedRemainingTime = w.sharedRemainingTime

theorem Posted.unfinished (h : Posted w w') : w'.unfinished = w.unfinished := by
  unfold Worker.unfinished
  rw [h.phase]

/-- It is one unit at most, and none for a process that is done. -/
theorem Posted.units (h : Posted w w') (e : ℤ) :
    w'.units e ≤ w.units e + 1 ∧ (w.unfinished = true ∨ w'.units e = w.units e) := by
  obtain ⟨hphase, hsem, hshared⟩ := h
  cases hp : w.phase with
  | waiting | working c =>
    refine ⟨?_, Or.inl (by rw [Worker.unfinished, hp])⟩
    cases hs : w.semaphore <;> simp [Worker.units, hphase, hp, hs, hsem, hshared]
  | finishing | signalling | exited => simp [Worker.units, hphase, hp]

end Worker

variable {jobs jobs' : List (ℤ × ℤ)} {job : ℤ × ℤ} {received : List ℤ}
  {workers workers' : ℤ → Worker}
  {signals : List ℤ} {pid clk : ℤ} {w : Worker} {act : WorkerAct}

theorem SameWork.units {w w' : Worker} (h : SameWork w w') (e : ℤ) : w'.units e = w.units e := by
  unfold Worker.units
  rw [h.phase, h.semaphore, h.sharedRemainingTime]

theorem SameWork.unfinished {w w' : Worker} (h : SameWork w w') : w'.unfinished = w.unfinished := by
  unfold Worker.unfinished
  rw [h.phase]

/-- The units granted to the processes of `jobs`. -/
def unitsHeld (workers : ℤ → Worker) (jobs : List (ℤ × ℤ)) : ℤ :=
  tally Prod.fst (fun job w => w.units job.2) workers jobs

/-- One of them has a grant of this tick. -/
def Fresh (workers : ℤ → Worker) (jobs : List (ℤ × ℤ)) (clk : ℤ) : Prop :=
  ∃ job ∈ jobs, (workers job.1).unfinished = true ∧ (workers job.1).Granted clk

/-- The processes held are different ones that were received; and what was not received has no part
in the run. -/
structure Roster (jobs : List (ℤ × ℤ)) (received : List ℤ) (workers : ℤ → Worker)
    (signals : List ℤ) : Prop where
  distinct : (jobs.map Prod.fst).Nodup
  known : ∀ job ∈ jobs, job.1 ∈ received
  within : ∀ job ∈ jobs, 0 ≤ job.2 ∧ (workers job.1).Within job.2
  strangers : ∀ pid, pid ∉ received →
    (workers pid).phase = .waiting ∧ (workers pid).semaphore = false
  sender : ∀ pid ∈ signals, (workers pid).phase = .exited ∧ pid ∈ received

namespace Roster

theorem units_nonneg (h : Roster jobs received workers signals) : 0 ≤ unitsHeld workers jobs :=
  tally_nonneg fun job hjob => Worker.units_nonneg (h.within job hjob).2 (h.within job hjob).1

theorem one_le_units (h : Roster jobs received workers signals) (hf : Fresh workers jobs clk) :
    1 ≤ unitsHeld workers jobs := by
  obtain ⟨job, hjob, hun, hg⟩ := hf
  have hone := Worker.one_le_units (h.within job hjob).2 hun hg
  have hall : ∀ b ∈ jobs, 0 ≤ (workers b.1).units b.2 :=
    fun b hb => Worker.units_nonneg (h.within b hb).2 (h.within b hb).1
  have hle : (workers job.1).units job.2 ≤ unitsHeld workers jobs := le_tally hall hjob
  exact hone.trans hle

/-- Signals, and moves on and off the processor, change nothing here. -/
theorem congr (h : Roster jobs received workers signals)
    (hw : ∀ pid, SameWork (workers pid) (workers' pid)) (hp : jobs'.Perm jobs) :
    Roster jobs' received workers' signals ∧ unitsHeld workers' jobs' = unitsHeld workers jobs ∧
      ∀ clk, Fresh workers jobs clk → Fresh workers' jobs' clk := by
  refine ⟨⟨?_, ?_, ?_, ?_, ?_⟩, ?_, ?_⟩
  · exact (hp.map Prod.fst).nodup_iff.mpr h.distinct
  · exact fun job hjob => h.known job (hp.mem_iff.mp hjob)
  · intro job hjob
    obtain ⟨hnonneg, hle⟩ := h.within job (hp.mem_iff.mp hjob)
    refine ⟨hnonneg, fun hun => ?_⟩
    rw [(hw job.1).sharedRemainingTime]
    exact hle ((hw job.1).unfinished.symm.trans hun)
  · intro pid hpid
    rw [(hw pid).phase, (hw pid).semaphore]
    exact h.strangers pid hpid
  · intro pid hpid
    rw [(hw pid).phase]
    exact h.sender pid hpid
  · exact (tally_perm hp).trans (tally_congr fun job _ => (hw job.1).units job.2)
  · rintro clk ⟨job, hjob, hun, hg⟩
    refine ⟨job, hp.mem_iff.mpr hjob, (hw job.1).unfinished.trans hun, ?_⟩
    rw [Worker.Granted, (hw job.1).phase, (hw job.1).semaphore]
    exact hg

/-- A process not received before, whether or not the heap takes it. -/
theorem arrive (h : Roster jobs received workers signals) {p : PCB} (hnew : p.pid ∉ received)
    (hexec : 1 ≤ p.executionTime) (hjobs : jobs' = p.job :: jobs ∨ jobs' = jobs) :
    Roster jobs' (received ++ [p.pid])
        (Function.update workers p.pid (.create p.executionTime)) signals ∧
      unitsHeld (Function.update workers p.pid (.create p.executionTime)) jobs' =
        unitsHeld workers jobs ∧
      ∀ clk, Fresh workers jobs clk →
        Fresh (Function.update workers p.pid (.create p.executionTime)) jobs' clk := by
  have hne : ∀ job ∈ jobs, job.1 ≠ p.pid := fun job hjob heq => hnew (heq ▸ h.known job hjob)
  have hnot : p.pid ∉ jobs.map Prod.fst := by
    intro hmem
    obtain ⟨job, hjob, heq⟩ := List.mem_map.mp hmem
    exact hne job hjob heq
  have hsub : ∀ job ∈ jobs, job ∈ jobs' := by
    rintro job hjob
    rcases hjobs with rfl | rfl
    · exact List.mem_cons_of_mem _ hjob
    · exact hjob
  have hcases : ∀ job ∈ jobs', job = p.job ∨ job ∈ jobs := by
    intro job hjob
    rcases hjobs with rfl | rfl
    · exact List.mem_cons.mp hjob
    · exact Or.inr hjob
  have hunits : unitsHeld (Function.update workers p.pid (.create p.executionTime)) jobs =
      unitsHeld workers jobs := tally_update_of_notMem hnot
  refine ⟨⟨?_, ?_, ?_, ?_, ?_⟩, ?_, ?_⟩
  · rcases hjobs with rfl | rfl
    · exact List.nodup_cons.mpr ⟨hnot, h.distinct⟩
    · exact h.distinct
  · intro job hjob
    rcases hcases job hjob with rfl | hjob
    · exact List.mem_append_right _ List.mem_cons_self
    · exact List.mem_append_left _ (h.known job hjob)
  · intro job hjob
    rcases hcases job hjob with rfl | hjob
    · refine ⟨by dsimp only [PCB.job]; omega, ?_⟩
      rw [PCB.job, Function.update_self]
      exact fun _ => le_refl _
    · rw [Function.update_of_ne (hne job hjob)]
      exact h.within job hjob
  · intro pid hpid
    have hpid : pid ∉ received ∧ pid ≠ p.pid := by simpa [not_or] using hpid
    rw [Function.update_of_ne hpid.2]
    exact h.strangers pid hpid.1
  · intro pid hpid
    obtain ⟨hphase, hmem⟩ := h.sender pid hpid
    have hne : pid ≠ p.pid := fun heq => hnew (heq ▸ hmem)
    rw [Function.update_of_ne hne]
    exact ⟨hphase, List.mem_append_left _ hmem⟩
  · rcases hjobs with rfl | rfl
    · rw [unitsHeld, tally_cons, ← unitsHeld, hunits, PCB.job, Function.update_self]
      simp [Worker.units, Worker.create]
    · exact hunits
  · rintro clk ⟨job, hjob, hfresh⟩
    refine ⟨job, hsub job hjob, ?_⟩
    rw [Function.update_of_ne (hne job hjob)]
    exact hfresh

/-- The process that has exited leaves, with all of its run time. -/
theorem retire (h : Roster (job :: jobs) received workers (pid :: signals))
    (hpid : job.1 = pid) :
    Roster jobs received workers signals ∧
      unitsHeld workers (job :: jobs) = job.2 + unitsHeld workers jobs ∧
      ∀ clk, Fresh workers (job :: jobs) clk → Fresh workers jobs clk := by
  have hexit : (workers job.1).phase = .exited := hpid ▸ (h.sender pid List.mem_cons_self).1
  refine ⟨⟨(List.nodup_cons.mp h.distinct).2, ?_, ?_, h.strangers, ?_⟩, ?_, ?_⟩
  · exact fun job hjob => h.known job (List.mem_cons_of_mem _ hjob)
  · exact fun job hjob => h.within job (List.mem_cons_of_mem _ hjob)
  · exact fun pid hmem => h.sender pid (List.mem_cons_of_mem _ hmem)
  · rw [unitsHeld, tally_cons, unitsHeld, Worker.units, hexit]
  · rintro clk ⟨job', hjob', hun, hg⟩
    rcases List.mem_cons.mp hjob' with rfl | hjob'
    · simp [Worker.unfinished, hexit] at hun
    · exact ⟨job', hjob', hun, hg⟩

/-- A step of a process. -/
theorem step (h : Roster jobs received workers signals)
    (hw : WorkerStep clk (workers pid) act w) :
    Roster jobs received (Function.update workers pid w)
        (if act = .kill then signals ++ [pid] else signals) ∧
      unitsHeld (Function.update workers pid w) jobs ≤ unitsHeld workers jobs ∧
      (Fresh workers jobs clk → Fresh (Function.update workers pid w) jobs clk ∨
        unitsHeld (Function.update workers pid w) jobs + 1 ≤ unitsHeld workers jobs) := by
  have hknown : pid ∈ received := by
    by_contra hnew
    obtain ⟨hphase, hsem⟩ := h.strangers pid hnew
    cases hw with
    | down hp hs => simp [hsem] at hs
    | decrement hp | clear hp | kill hp => simp [hphase] at hp
  have hlive : (workers pid).phase ≠ .exited := by
    cases hw with
    | down hp | decrement hp | clear hp | kill hp => simp [hp]
  refine ⟨⟨h.distinct, h.known, ?_, ?_, ?_⟩, ?_, ?_⟩
  · intro job hjob
    obtain ⟨hnonneg, hle⟩ := h.within job hjob
    refine ⟨hnonneg, ?_⟩
    by_cases heq : job.1 = pid
    · subst heq
      rw [Function.update_self]
      exact Worker.within_step hle hw
    · rw [Function.update_of_ne heq]
      exact hle
  · intro pid' hnew
    have hne : pid' ≠ pid := fun heq => hnew (heq ▸ hknown)
    rw [Function.update_of_ne hne]
    exact h.strangers pid' hnew
  · intro pid' hmem
    by_cases heq : pid' = pid
    · subst heq
      rw [Function.update_self]
      split at hmem
      · rename_i hkill
        subst hkill
        cases hw
        exact ⟨rfl, hknown⟩
      · exact absurd (h.sender pid' hmem).1 hlive
    · rw [Function.update_of_ne heq]
      refine h.sender pid' ?_
      split at hmem
      · simpa [heq] using hmem
      · exact hmem
  · apply tally_update_le
    intro job _ _
    exact Worker.units_step hw
  · rintro ⟨job, hjob, hun, hg⟩
    by_cases heq : job.1 = pid
    · subst heq
      rcases Worker.fresh_step (e := job.2) hun hg hw with hfresh | hdone
      · left
        refine ⟨job, hjob, ?_⟩
        rwa [Function.update_self]
      · right
        have hsum : unitsHeld (Function.update workers job.1 w) jobs + (workers job.1).units job.2 =
            unitsHeld workers jobs + w.units job.2 := tally_update h.distinct hjob
        omega
    · left
      refine ⟨job, hjob, ?_⟩
      rw [Function.update_of_ne heq]
      exact ⟨hun, hg⟩

/-- The grant of a tick. -/
theorem grant (h : Roster jobs received workers signals) (hjob : job ∈ jobs)
    (hw : (workers job.1).Posted w) (clk : ℤ) :
    Roster jobs received (Function.update workers job.1 w) signals ∧
      (unitsHeld (Function.update workers job.1 w) jobs = unitsHeld workers jobs ∨
        unitsHeld (Function.update workers job.1 w) jobs ≤ unitsHeld workers jobs + 1 ∧
          Fresh (Function.update workers job.1 w) jobs clk) := by
  have hsum : unitsHeld (Function.update workers job.1 w) jobs + (workers job.1).units job.2 =
      unitsHeld workers jobs + w.units job.2 := tally_update h.distinct hjob
  obtain ⟨hle, hor⟩ := hw.units job.2
  refine ⟨⟨h.distinct, h.known, ?_, ?_, ?_⟩, ?_⟩
  · intro job' hjob'
    obtain ⟨hnonneg, hwithin⟩ := h.within job' hjob'
    refine ⟨hnonneg, ?_⟩
    by_cases heq : job'.1 = job.1
    · rw [heq] at hwithin ⊢
      rw [Function.update_self]
      intro hun
      rw [hw.sharedRemainingTime]
      exact hwithin (hw.unfinished.symm.trans hun)
    · rw [Function.update_of_ne heq]
      exact hwithin
  · intro pid hnew
    have hne : pid ≠ job.1 := fun heq => hnew (heq ▸ h.known job hjob)
    rw [Function.update_of_ne hne]
    exact h.strangers pid hnew
  · intro pid hpid
    obtain ⟨hexit, hmem⟩ := h.sender pid hpid
    refine ⟨?_, hmem⟩
    by_cases heq : pid = job.1
    · subst heq
      rw [Function.update_self, hw.phase]
      exact hexit
    · rw [Function.update_of_ne heq]
      exact hexit
  · rcases hor with hunfinished | hsame
    · right
      refine ⟨by omega, job, hjob, ?_⟩
      rw [Function.update_self]
      exact ⟨hw.unfinished.trans hunfinished, Or.inl hw.semaphore⟩
    · left
      omega

end Roster

/-- Before the clock is read in an iteration. -/
def LoopPoint.Unread : LoopPoint → Prop
  | .test | .downNb | .receive | .getClk => True
  | _ => False

/-- Reception has left -1 in `clockValue`, if no process was current. -/
def LoopPoint.Forgets : LoopPoint → Prop
  | .receive | .getClk | .compare | .assign => True
  | _ => False

/-- Every unit granted is paid by a tick since `start_time`: by the one that is passing, if it was
granted in this one and has still to be run. -/
structure Meter (l : Loop) (units : ℤ) (fresh : Prop) : Prop where
  real : -1 ≤ l.scheduler.clockValue
  unstarted : l.scheduler.startTime = -1 → units + l.scheduler.settled ≤ 0
  paid : l.scheduler.startTime ≠ -1 →
    units + l.scheduler.settled ≤ l.currentTime - l.scheduler.startTime ∨
      ¬ l.point.BeforeGrant ∧
        units + l.scheduler.settled ≤ l.currentTime - l.scheduler.startTime + 1 ∧
        (l.currentTime < l.clock ∨ fresh)
  recorded : l.scheduler.startTime ≠ -1 →
    l.scheduler.settled ≤ l.scheduler.clockValue - l.scheduler.startTime ∨
      l.scheduler.clockValue = -1 ∧ l.point.Forgets
  unread : l.point.Unread → l.scheduler.startTime = -1 ∨ l.currentTime < l.clock
  first : l.point = .runAlgorithm → l.scheduler.startTime = -1 →
    l.scheduler.clockValue = l.currentTime

variable {l l' : Loop} {units units' : ℤ} {fresh fresh' : Prop}

/-- The account is as before, at another point of the loop. -/
theorem Meter.goto (h : Meter l units fresh) (hst : l'.scheduler.startTime = l.scheduler.startTime)
    (hset : l'.scheduler.settled = l.scheduler.settled)
    (hclk : l'.scheduler.clockValue = l.scheduler.clockValue)
    (hcur : l'.currentTime = l.currentTime) (hclock : l'.clock = l.clock)
    (hgrant : l'.point.BeforeGrant → l.point.BeforeGrant)
    (hforgets : l.scheduler.clockValue = -1 → l.point.Forgets → l'.point.Forgets)
    (hunread : l'.point.Unread → l.point.Unread ∨ l.currentTime < l.clock)
    (hfirst : l'.point = .runAlgorithm → l.point = .runAlgorithm) : Meter l' units fresh := by
  refine ⟨?_, ?_, ?_, ?_, ?_, ?_⟩
  · rw [hclk]
    exact h.real
  · rw [hst, hset]
    exact h.unstarted
  · rw [hst, hset, hcur, hclock]
    intro hne
    exact (h.paid hne).imp_right fun ⟨hp, hle⟩ => ⟨fun hp' => hp (hgrant hp'), hle⟩
  · rw [hst, hset, hclk]
    intro hne
    exact (h.recorded hne).imp_right fun ⟨hforgot, hp⟩ => ⟨hforgot, hforgets hforgot hp⟩
  · rw [hst, hcur, hclock]
    intro hp
    exact (hunread hp).elim h.unread Or.inr
  · rw [hst, hclk, hcur]
    exact fun hp => h.first (hfirst hp)

/-- The same units, or fewer where the one of this tick is not needed any more. -/
theorem Meter.lower (h : Meter l units fresh) (hle : units' ≤ units)
    (hfresh : fresh → fresh' ∨ units' + 1 ≤ units) : Meter l units' fresh' := by
  refine ⟨h.real, ?_, ?_, h.recorded, h.unread, h.first⟩
  · intro hst
    have := h.unstarted hst
    omega
  · intro hst
    rcases h.paid hst with hpaid | ⟨hp, hpaid, hlt | hf⟩
    · left
      omega
    · exact Or.inr ⟨hp, by omega, Or.inl hlt⟩
    · rcases hfresh hf with hf' | hless
      · exact Or.inr ⟨hp, by omega, Or.inr hf'⟩
      · left
        omega

namespace Simulation

/-- The invariant of runs in which no process is forgotten. -/
structure Metered (s : Simulation) : Prop where
  clocked : Clocked s.loop
  dated : Dated s.loop.scheduler
  roster : Roster s.loop.scheduler.jobs s.loop.scheduler.receivedPids s.workers s.signals
  meter : Meter s.loop (unitsHeld s.workers s.loop.scheduler.jobs)
    (Fresh s.workers s.loop.scheduler.jobs s.loop.clock)
  left : s.loop.point = .exited → s.loop.scheduler.held = []

variable {s s' : Simulation} {i : Inputs} {p : PCB}

/-- Effects other than grants leave the work of the processes alone. -/
theorem observe_sameWork {es : List Effect} (hes : es.filterMap Effect.grantedSemid = [])
    (workers : ℤ → Worker) (pid : ℤ) : SameWork (workers pid) (es.foldl observe workers pid) := by
  induction es generalizing workers with
  | nil => exact ⟨rfl, rfl, rfl⟩
  | cons e es ih =>
    rw [List.foldl_cons]
    cases e with
    | grant p => simp [Effect.grantedSemid] at hes
    | signal signal p =>
      obtain ⟨hphase, hsem, hshared⟩ := ih hes (observe workers (.signal signal p))
      have hone : SameWork (workers pid) (observe workers (.signal signal p) pid) := by
        cases signal <;> by_cases heq : pid = p.pid
        all_goals constructor <;> simp [observe, heq, Function.update_of_ne]
      exact ⟨hphase.trans hone.phase, hsem.trans hone.semaphore,
        hshared.trans hone.sharedRemainingTime⟩
    | _ => exact ih hes workers

/-- A step of the loop that grants nothing, with what it leaves. -/
theorem metered_observing {workers : ℤ → Worker} {signals : List ℤ} (hclocked : Clocked l)
    (hun : Ungranted s.loop.scheduler l.scheduler) (hdated : Dated l.scheduler)
    (hjobs : l.scheduler.jobs.Perm jobs)
    (hroster : Roster jobs l.scheduler.receivedPids workers signals)
    (hmeter : Meter l (unitsHeld workers jobs) (Fresh workers jobs l.clock))
    (hleft : l.point = .exited → l.scheduler.held = []) :
    Metered (({ s with workers, signals } : Simulation).observing l) := by
  obtain ⟨es, ht, hes⟩ := hun
  rw [observing_eq (s := { s with workers, signals }) ht]
  obtain ⟨hroster', hunits, hfresh⟩ :=
    hroster.congr (fun pid => observe_sameWork hes workers pid) hjobs
  refine ⟨hclocked, hdated, hroster', ?_, hleft⟩
  exact hmeter.lower hunits.le fun hf => Or.inl (hfresh _ hf)

/-- A step of the loop that leaves the processes and the accounting alone. -/
theorem metered_goto (h : Metered s) (hclocked : Clocked l)
    (ht : l.scheduler.trace = s.loop.scheduler.trace)
    (hturn : Turnover s.loop.scheduler l.scheduler s.loop.scheduler.jobs 0)
    (hclk : l.scheduler.clockValue = s.loop.scheduler.clockValue)
    (hcur : l.currentTime = s.loop.currentTime) (hclock : l.clock = s.loop.clock)
    (hgrant : l.point.BeforeGrant → s.loop.point.BeforeGrant)
    (hforgets : s.loop.scheduler.clockValue = -1 → s.loop.point.Forgets → l.point.Forgets)
    (hunread : l.point.Unread → s.loop.point.Unread ∨ s.loop.currentTime < s.loop.clock)
    (hfirst : l.point = .runAlgorithm → s.loop.point = .runAlgorithm)
    (hleft : l.point = .exited → l.scheduler.held = []) : Metered (s.observing l) := by
  have hset := hturn.settled
  rw [add_zero] at hset
  have hroster := h.roster
  rw [← (pids_eq ht).2] at hroster
  have hmeter := h.meter.goto hturn.startTime hset hclk hcur hclock hgrant hforgets hunread hfirst
  rw [← hclock] at hmeter
  exact metered_observing hclocked (.of_eq ht) hturn.dated hturn.jobs hroster hmeter hleft

theorem metered_worker {pid : ℤ} {act : WorkerAct} {w : Worker} (h : Metered s)
    (hw : (s.workers pid).next s.loop.clock act = some w) :
    Metered { s with
      workers := Function.update s.workers pid w
      signals := if act = .kill then s.signals ++ [pid] else s.signals } := by
  obtain ⟨hroster, hle, hfresh⟩ := h.roster.step (workerStep_of_next hw).2
  exact ⟨h.clocked, h.dated, hroster, h.meter.lower hle hfresh, h.left⟩

theorem metered_tick (h : Metered s) :
    Metered (s.observing { s.loop with clock := s.loop.clock + 1 }) := by
  have hle := h.clocked.currentTime_le
  obtain ⟨hreal, hunstarted, hpaid, hrecorded, hunread, hfirst⟩ := h.meter
  refine metered_observing (clocked_step h.clocked (a := .tick) trivial .tick) (.of_eq rfl) h.dated
    (.refl _) h.roster ⟨hreal, hunstarted, ?_, hrecorded, ?_, hfirst⟩ h.left
  · intro hst
    refine (hpaid hst).imp_right fun ⟨hp, hpaid, _⟩ => ⟨hp, hpaid, Or.inl ?_⟩
    dsimp only
    omega
  · intro hp
    refine (hunread hp).imp_right fun hlt => ?_
    dsimp only
    omega

theorem metered_receive (h : Metered s) (hp : s.loop.point = .receive)
    (hload : Workload s (.loop (.receive p i))) (hroom : RoomToPreempt s (.loop (.receive p i))) :
    Metered (({ s with workers := Function.update s.workers p.pid (.create p.executionTime) }
      : Simulation).observing
        { s.loop with scheduler := (s.loop.scheduler.feed i).receiveMessage p }) := by
  obtain ⟨hsem, hexec, hnew⟩ := hload
  have hfeed := h.clocked.sound.feed i
  have hdated : Dated (s.loop.scheduler.feed i) := ⟨h.dated.started, h.dated.unstarted⟩
  have hstep : LoopStep s.loop (.receive p i)
      { s.loop with scheduler := (s.loop.scheduler.feed i).receiveMessage p } := .receive hp
  have hclocked := clocked_step h.clocked (a := .receive p i) hsem hstep
  have hclk : (s.loop.scheduler.feed i).current ≠ none →
      (s.loop.scheduler.feed i).clockValue ≠ -1 := by
    intro hne heq
    have h0 := h.clocked.current hne
    have heq : s.loop.scheduler.clockValue = -1 := heq
    omega
  have hturn := receiveMessage_turnover hfeed hsem hdated hclk hroom
  have hrec : ((s.loop.scheduler.feed i).receiveMessage p).receivedPids =
      s.loop.scheduler.receivedPids ++ [p.pid] := receiveMessage_pids hfeed hsem
  obtain ⟨-, hvalue⟩ := receiveMessage_clockValue hfeed hsem
  have hfinish : ∀ jobs, (jobs = p.job :: s.loop.scheduler.jobs ∨ jobs = s.loop.scheduler.jobs) →
      Turnover (s.loop.scheduler.feed i) ((s.loop.scheduler.feed i).receiveMessage p) jobs 0 →
      Metered (({ s with workers := Function.update s.workers p.pid (.create p.executionTime) }
        : Simulation).observing
          { s.loop with scheduler := (s.loop.scheduler.feed i).receiveMessage p }) := by
    intro jobs hjobs hturn
    obtain ⟨hroster, hunits, hfresh⟩ := h.roster.arrive hnew hexec hjobs
    have hset : ((s.loop.scheduler.feed i).receiveMessage p).settled = s.loop.scheduler.settled :=
      hturn.settled.trans (add_zero _)
    have hstart : ((s.loop.scheduler.feed i).receiveMessage p).startTime =
      s.loop.scheduler.startTime := hturn.startTime
    refine metered_observing hclocked (receiveMessage_ungranted hfeed hsem) hturn.dated hturn.jobs
      (hrec ▸ hroster) ?_ (fun hexit => by simp [hp] at hexit)
    have hmeter := h.meter.lower hunits.le fun hf => Or.inl (hfresh _ hf)
    obtain ⟨hreal, hunstarted, hpaid, hrecorded, hunread, -⟩ := hmeter
    refine ⟨?_, ?_, ?_, ?_, ?_, fun hrun => by simp [hp] at hrun⟩
    · rcases hvalue with ⟨heq, -⟩ | ⟨heq, -⟩
      · exact hreal.trans heq.ge
      · exact heq.ge
    · rw [hstart, hset]
      exact hunstarted
    · rw [hstart, hset]
      exact hpaid
    · rw [hstart, hset]
      intro hst
      rcases hvalue with ⟨heq, hcur⟩ | ⟨heq, -⟩
      · left
        rcases hrecorded hst with hrec | ⟨hforgot, -⟩
        · exact hrec.trans (sub_le_sub_right heq.ge _)
        · exact absurd hforgot (hclk hcur)
      · right
        exact ⟨heq, by rw [hp]; trivial⟩
    · rw [hstart]
      exact hunread
  exact hturn.elim (hfinish _ (Or.inl rfl)) (hfinish _ (Or.inr rfl))

/-- The handler: what its process was charged is paid by the ticks up to now. -/
theorem metered_sigusr2 {pid : ℤ} {signals : List ℤ} (h : Metered s)
    (hsig : s.signals = pid :: signals) (hp : s.loop.point ≠ .exited)
    (hplace : ¬ s.loop.scheduler.Overruns) (hload : Workload s (.loop (.sigusr2 i))) :
    Metered (({ s with signals } : Simulation).observing (s.loop.complete i)) := by
  have hcpu : s.loop.scheduler.current.map PCB.pid = some pid := hload pid (by simp [hsig])
  obtain ⟨p, hc, hpid⟩ := Option.map_eq_some_iff.mp hcpu
  have hfeed := h.clocked.sound.feed i
  have hdated : Dated (s.loop.scheduler.feed i) := ⟨h.dated.started, h.dated.unstarted⟩
  have hclocked := clocked_step h.clocked (a := .sigusr2 i) trivial (.sigusr2 hp hplace)
  have h0 := h.clocked.currentTime
  have hle := h.clocked.currentTime_le
  have hturn : Turnover s.loop.scheduler (s.loop.complete i).scheduler
      (s.loop.scheduler.ready.map PCB.job) p.executionTime := by
    obtain ⟨hjobs, hset, hstart, hd⟩ := completion_turnover (s := s.loop.scheduler.feed i) hfeed
      hdated hc (show s.loop.clock ≠ -1 by omega)
    exact ⟨hjobs, hset, hstart, hd⟩
  have hbooks := s.loop.complete_clockValue i
  have hbegun : s.loop.scheduler.startTime ≠ -1 := h.dated.begun (by simp [hc])
  have hjobs : s.loop.scheduler.jobs = p.job :: s.loop.scheduler.ready.map PCB.job := by
    rw [jobs, held_some hc, List.map_cons]
  have hroster := h.roster
  rw [hjobs, hsig] at hroster
  obtain ⟨hroster', hunits, hfresh⟩ := hroster.retire hpid
  have hrec : (s.loop.complete i).scheduler.receivedPids = s.loop.scheduler.receivedPids :=
    completion_pids hfeed s.loop.clock
  have hset : (s.loop.complete i).scheduler.settled =
    s.loop.scheduler.settled + p.executionTime := hturn.settled
  have hstart : (s.loop.complete i).scheduler.startTime = s.loop.scheduler.startTime :=
    hturn.startTime
  have hvalue : (s.loop.complete i).scheduler.clockValue = s.loop.clock := hbooks
  have hnonneg := hroster'.units_nonneg
  have hone : Fresh s.workers (s.loop.scheduler.ready.map PCB.job) s.loop.clock →
      1 ≤ unitsHeld s.workers (s.loop.scheduler.ready.map PCB.job) := hroster'.one_le_units
  have hmeter := h.meter
  rw [hjobs, hunits] at hmeter
  have hjob : p.job.2 = p.executionTime := rfl
  have hpaid := hmeter.paid hbegun
  refine metered_observing hclocked (completion_ungranted hfeed s.loop.clock) hturn.dated
    hturn.jobs (hrec ▸ hroster') ⟨?_, ?_, ?_, ?_, ?_, ?_⟩ (fun hexit => absurd hexit hp)
  · rw [hvalue]
    omega
  · rw [hstart]
    exact fun hst => absurd hst hbegun
  · rw [hstart, hset]
    intro _
    rcases hpaid with hpaid | ⟨hpoint, hpaid, hor⟩
    · left
      show _ ≤ s.loop.currentTime - _
      omega
    · refine Or.inr ⟨hpoint, ?_, hor.imp_right (hfresh _)⟩
      show _ ≤ s.loop.currentTime - _ + 1
      omega
  · rw [hstart, hset, hvalue]
    intro _
    left
    rcases hpaid with hpaid | ⟨-, hpaid, hlt | hf⟩
    · omega
    · omega
    · have := hone (hfresh _ hf)
      omega
  · rw [hstart]
    exact hmeter.unread
  · rw [hstart]
    exact fun _ hst => absurd hst hbegun

/-- The first process started sets `start_time` to the time the loop has read. -/
theorem metered_runAlgorithm (h : Metered s) (hp : s.loop.point = .runAlgorithm)
    (hroom : RoomToPreempt s (.loop (.advance i))) :
    Metered (s.observing { s.loop with
      scheduler := (s.loop.scheduler.feed i).runAlgorithm, point := .grant }) := by
  have hfeed := h.clocked.sound.feed i
  have hdated : Dated (s.loop.scheduler.feed i) := ⟨h.dated.started, h.dated.unstarted⟩
  have h0 := h.clocked.run hp
  have hclocked := clocked_step h.clocked (a := .advance i) trivial (.runAlgorithm hp)
  have hmoves := runAlgorithm_moves hfeed
  have hclk : (s.loop.scheduler.feed i).clockValue ≠ -1 := by
    show s.loop.scheduler.clockValue ≠ -1
    omega
  obtain ⟨hjobs, hset, hstart, hdated'⟩ := runAlgorithm_carried hfeed hdated hclk (hroom hp)
  have hset : (s.loop.scheduler.feed i).runAlgorithm.settled = s.loop.scheduler.settled := hset
  have hvalue : (s.loop.scheduler.feed i).runAlgorithm.clockValue =
    s.loop.scheduler.clockValue := (moves_books hmoves).clockValue
  obtain ⟨es, ht, hes⟩ := moves_trace hmoves
  have hrec : (s.loop.scheduler.feed i).runAlgorithm.receivedPids =
    s.loop.scheduler.receivedPids := (pids_ofSwitch ht hes).2
  obtain ⟨hreal, hunstarted, hpaid, hrecorded, -, hfirst⟩ := h.meter
  have hnonneg := h.roster.units_nonneg
  have hun : Ungranted (s.loop.scheduler.feed i) (s.loop.scheduler.feed i).runAlgorithm :=
    moves_ungranted hmoves
  refine metered_observing hclocked hun hdated' hjobs (hrec ▸ h.roster)
    ⟨hvalue ▸ hreal, ?_, ?_, ?_, False.elim, by simp⟩ (by simp)
  · rw [hset]
    intro hst
    apply hunstarted
    rcases hstart with heq | ⟨hnew, -⟩
    · exact heq.symm.trans hst
    · exact hnew
  · rw [hset]
    intro hst
    left
    rcases hstart with heq | ⟨hnew, heq⟩
    · rw [heq] at hst ⊢
      rcases hpaid hst with hpaid | ⟨hpoint, -⟩
      · exact hpaid
      · simp [hp, LoopPoint.BeforeGrant] at hpoint
    · have heq : (s.loop.scheduler.feed i).runAlgorithm.startTime = s.loop.currentTime :=
        heq.trans (hfirst hp hnew)
      rw [heq, sub_self]
      exact hunstarted hnew
  · rw [hset, hvalue]
    intro hst
    left
    rcases hstart with heq | ⟨hnew, heq⟩
    · rw [heq] at hst ⊢
      rcases hrecorded hst with hrec | ⟨-, hpoint⟩
      · exact hrec
      · simp [hp, LoopPoint.Forgets] at hpoint
    · have heq : (s.loop.scheduler.feed i).runAlgorithm.startTime = s.loop.scheduler.clockValue :=
        heq
      have hle := hunstarted hnew
      rw [heq, sub_self]
      omega

/-- The grant is one more unit, of the tick that is passing. -/
theorem metered_grant (h : Metered s) (hp : s.loop.point = .grant) :
    Metered (s.observing { s.loop with
      scheduler := s.loop.scheduler.grantTick, point := .refresh }) := by
  have hclocked := clocked_step h.clocked (a := .advance {}) trivial (.grant hp)
  cases hcp : s.loop.scheduler.currentProcess with
  | none =>
    have hturn := grantTick_turnover h.dated
    rw [grantTick_none hcp] at hturn hclocked ⊢
    exact metered_goto h hclocked rfl hturn rfl rfl rfl False.elim (by simp [hp, LoopPoint.Forgets])
      False.elim (by simp) (by simp)
  | some process =>
    rw [grantTick_some hcp] at hclocked ⊢
    have hcur := current_some hcp
    have ht : (s.loop.scheduler.emit (.grant (s.loop.scheduler.pcbs process))).trace =
      s.loop.scheduler.trace ++ [.grant (s.loop.scheduler.pcbs process)] := rfl
    have hsame := observing_eq (s := s) (l := { s.loop with
      scheduler := s.loop.scheduler.emit (.grant (s.loop.scheduler.pcbs process))
      point := .refresh }) ht
    have hjob : (s.loop.scheduler.pcbs process).job ∈ s.loop.scheduler.jobs := by
      rw [jobs, held_some hcur]
      exact List.mem_cons_self
    have hposted : (s.workers (s.loop.scheduler.pcbs process).job.1).Posted
        { s.workers (s.loop.scheduler.pcbs process).job.1 with semaphore := true } :=
      ⟨rfl, rfl, rfl⟩
    obtain ⟨hroster, hor⟩ := h.roster.grant hjob hposted s.loop.clock
    have hrec := (pids_grant s.loop.scheduler (s.loop.scheduler.pcbs process)).2
    obtain ⟨hreal, hunstarted, hpaid, hrecorded, -, -⟩ := h.meter
    have hbegun : s.loop.scheduler.startTime ≠ -1 := h.dated.begun (by simp [hcur])
    rw [hsame]
    refine ⟨hclocked, ⟨h.dated.started, h.dated.unstarted⟩, ?_, ⟨hreal, ?_, ?_, ?_, False.elim,
      by simp⟩, by simp⟩
    · show Roster _ (s.loop.scheduler.emit _).receivedPids _ _
      rw [hrec]
      exact hroster
    · exact fun hst => absurd hst hbegun
    · intro hst
      have hbefore : unitsHeld s.workers s.loop.scheduler.jobs + s.loop.scheduler.settled ≤
          s.loop.currentTime - s.loop.scheduler.startTime := by
        rcases hpaid hst with hpaid | ⟨hpoint, -⟩
        · exact hpaid
        · simp [hp, LoopPoint.BeforeGrant] at hpoint
      rcases hor with heq | ⟨hle, hfresh⟩
      · left
        exact (add_le_add_left heq.le _).trans hbefore
      · right
        refine ⟨id, ?_, Or.inr hfresh⟩
        refine (add_le_add_left hle _).trans ?_
        rw [add_right_comm]
        exact add_le_add_left hbefore 1
    · intro hst
      rcases hrecorded hst with hrec | ⟨-, hpoint⟩
      · exact Or.inl hrec
      · simp [hp, LoopPoint.Forgets] at hpoint

/-- A statement of the loop, or its end. -/
theorem metered_advance (h : Metered s) (hroom : RoomToPreempt s (.loop (.advance i)))
    (hstep : LoopStep s.loop (.advance i) l) : Metered (s.observing l) := by
  have hclocked := clocked_step h.clocked (a := .advance i) trivial hstep
  have hle := h.clocked.currentTime_le
  have h0 := h.clocked.currentTime
  have hstay : Turnover s.loop.scheduler s.loop.scheduler s.loop.scheduler.jobs 0 :=
    ⟨.refl _, (add_zero _).symm, rfl, h.dated⟩
  obtain ⟨hreal, hunstarted, hpaid, hrecorded, hunread, hfirst⟩ := h.meter
  have hnonneg := h.roster.units_nonneg
  cases hstep with
  | exit hp hd =>
    obtain ⟨-, hready, hcur⟩ := isDone_idle hd
    exact metered_goto h hclocked rfl hstay rfl rfl rfl False.elim
      (by simp [hp, LoopPoint.Forgets]) False.elim (by simp) (fun _ => (held_none hcur).trans hready)
  | test hp hd =>
    exact metered_goto h hclocked rfl hstay rfl rfl rfl False.elim
      (by simp [hp, LoopPoint.Forgets]) (fun _ => Or.inl (by rw [hp]; trivial)) (by simp) (by simp)
  | getClk hp =>
    refine metered_observing hclocked (.of_eq rfl) h.dated (.refl _) h.roster
      ⟨hreal, hunstarted, ?_, ?_, False.elim, by simp⟩ (by simp)
    · intro hst
      left
      have hlt : s.loop.currentTime < s.loop.clock :=
        (hunread (by rw [hp]; trivial)).resolve_left hst
      have hpaid := hpaid hst
      dsimp only at hpaid ⊢
      rcases hpaid with hpaid | ⟨-, hpaid, -⟩ <;> omega
    · exact fun hst => (hrecorded hst).imp_right fun hor => ⟨hor.1, trivial⟩
  | differs hp hne =>
    exact metered_goto h hclocked rfl hstay rfl rfl rfl (by simp [hp, LoopPoint.BeforeGrant])
      (fun _ _ => trivial) False.elim (by simp) (by simp)
  | equals hp heq =>
    exact metered_goto h hclocked rfl hstay rfl rfl rfl False.elim
      (fun hforgot => by rw [heq, hforgot] at h0; omega) False.elim (by simp) (by simp)
  | assign hp =>
    refine metered_observing hclocked (.of_eq rfl) ⟨h.dated.started, h.dated.unstarted⟩ (.refl _)
      h.roster ⟨?_, hunstarted, ?_, ?_, False.elim, fun _ _ => rfl⟩ (by simp)
    · show -1 ≤ s.loop.currentTime
      omega
    · exact fun hst => (hpaid hst).imp_right fun hor => absurd (by rw [hp]; trivial) hor.1
    · intro hst
      left
      rcases hpaid hst with hpaid | ⟨hpoint, -⟩
      · exact (le_add_of_nonneg_left hnonneg).trans hpaid
      · exact absurd (by rw [hp]; trivial) hpoint
  | runAlgorithm hp => exact metered_runAlgorithm h hp hroom
  | grant hp => exact metered_grant h hp
  | refresh hp =>
    have hfeed := h.clocked.sound.feed i
    have hdated : Dated (s.loop.scheduler.feed i) := ⟨h.dated.started, h.dated.unstarted⟩
    obtain ⟨hjobs, hset, -, hdated'⟩ := updateCurrent_carried hfeed hdated
    have htimes := (updateCurrent_times (s.loop.scheduler.feed i)).startTime
    have hvalue := (moves_books (updateCurrent_moves hfeed)).clockValue
    exact metered_goto h hclocked (updateCurrent_reread hfeed).trace
      ⟨hjobs, hset.trans (add_zero _).symm, htimes, hdated'⟩ hvalue rfl rfl False.elim
      (by simp [hp, LoopPoint.Forgets]) False.elim (by simp) (by simp)
  | again hp hne =>
    refine metered_goto h hclocked rfl hstay rfl rfl rfl False.elim
      (by simp [hp, LoopPoint.Forgets]) (fun _ => Or.inr ?_) (by simp) (by simp)
    omega

theorem metered_next {a : SimulationAct} (h : Metered s) (hload : Workload s a)
    (hroom : RoomToPreempt s a) (hstep : s.next a = some s') : Metered s' := by
  have hstay : Turnover s.loop.scheduler s.loop.scheduler s.loop.scheduler.jobs 0 :=
    ⟨.refl _, (add_zero _).symm, rfl, h.dated⟩
  cases simulationStep_of_next hstep with
  | worker hw => exact metered_worker h hw
  | sigusr2 hsig hl =>
    cases hl with
    | sigusr2 hp hplace => exact metered_sigusr2 h hsig hp hplace hload
  | receive hl =>
    cases hl with
    | receive hp => exact metered_receive h hp hload hroom
  | @loop act l ha hl =>
    cases act with
    | receive | sigusr2 => exact ha.elim
    | tick =>
      cases hl
      exact metered_tick h
    | sigusr1 =>
      have hclocked := clocked_step h.clocked (a := .sigusr1) trivial hl
      cases hl with
      | sigusr1 hp =>
        exact metered_goto h hclocked rfl ⟨.refl _, (add_zero _).symm, rfl, h.dated.started,
          h.dated.unstarted⟩ rfl rfl rfl id (fun _ => id) Or.inl id (fun hexit => absurd hexit hp)
    | downNb taken =>
      have hclocked := clocked_step h.clocked (a := .downNb taken) trivial hl
      cases hl with
      | refused hp | taken hp =>
        exact metered_goto h hclocked rfl hstay rfl rfl rfl False.elim
          (by simp [hp, LoopPoint.Forgets]) (fun _ => Or.inl (by rw [hp]; trivial)) (by simp)
          (by simp)
    | noMessage =>
      have hclocked := clocked_step h.clocked (a := .noMessage) trivial hl
      cases hl with
      | noMessage hp =>
        exact metered_goto h hclocked rfl hstay rfl rfl rfl False.elim (fun _ _ => trivial)
          (fun _ => Or.inl (by rw [hp]; trivial)) (by simp) (by simp)
    | advance i => exact metered_advance h hroom hl

theorem metered_initial (algorithm : SchedulingAlgorithm) (quantum : ℤ) (clk : ℕ) :
    Metered (initial algorithm quantum clk) := by
  have hclk : (0 : ℤ) ≤ clk := Int.natCast_nonneg clk
  have hheld := initial_held algorithm quantum clk
  have hjobs : (Scheduler.initial algorithm quantum clk).jobs = [] := by
    rw [jobs, hheld, List.map_nil]
  have hset : (Scheduler.initial algorithm quantum clk).settled = 0 := settled_nil hheld
  have hunits : ∀ workers, unitsHeld workers [] = 0 := fun _ => rfl
  refine ⟨clocked_initial algorithm quantum hclk, ⟨?_, ?_⟩, ?_, ⟨?_, ?_, ?_, ?_, ?_, ?_⟩, ?_⟩
  · intro p hp
    have hnone : (Scheduler.initial algorithm quantum clk).current = none := rfl
    rw [show (initial algorithm quantum clk).loop.scheduler =
      Scheduler.initial algorithm quantum clk from rfl, hnone] at hp
    cases hp
  · intro _ p hp
    rw [show (initial algorithm quantum clk).loop.scheduler =
      Scheduler.initial algorithm quantum clk from rfl, hheld] at hp
    cases hp
  · rw [show (initial algorithm quantum clk).loop.scheduler.jobs = [] from hjobs]
    exact ⟨List.nodup_nil, by simp, by simp, fun pid _ => ⟨rfl, rfl⟩, by simp [initial]⟩
  · show -1 ≤ (clk : ℤ) - 1
    omega
  · intro _
    rw [show (initial algorithm quantum clk).loop.scheduler.jobs = [] from hjobs,
      show (initial algorithm quantum clk).loop.scheduler.settled = 0 from hset, hunits, add_zero]
  · exact fun hst => absurd rfl hst
  · exact fun hst => absurd rfl hst
  · exact fun _ => Or.inl rfl
  · intro h
    cases h
  · exact fun _ => hheld

end Simulation

/-- Utilisation is at most 100 percent when the loop is left. -/
def WithinElapsed (l : Loop) : Prop :=
  l.point = .exited → l.scheduler.activeCpuTime ≤ l.scheduler.clockValue - l.scheduler.startTime

/-- After a preemption that found the heap full. -/
def Simulation.Overfull (s : Simulation) : Prop :=
  Sound s.loop.scheduler ∧ Crowded s.loop.scheduler

variable {s s' : Simulation} {a : SimulationAct}

theorem overfull_next (h : s.Overfull) (hload : Workload s a) (hstep : s.next a = some s') :
    s'.Overfull := by
  have hstep := simulationStep_of_next hstep
  cases a with
  | worker =>
    rw [Simulation.Overfull, simulationStep_worker hstep]
    exact h
  | loop act =>
    have hl := simulationStep_loop hstep
    refine ⟨sound_preserved.step h.1 ?_ hl, loopStep_crowded h.1 hload.semids h.2 hl⟩
    rintro p i rfl
    exact hload.1

theorem overfull_of_noRoom (hs : Sound s.loop.scheduler) (hload : Workload s a)
    (hroom : ¬ RoomToPreempt s a) (hstep : s.next a = some s') : s'.Overfull := by
  have hstep := simulationStep_of_next hstep
  cases a with
  | worker => exact absurd trivial hroom
  | loop act =>
    have hl := simulationStep_loop hstep
    refine ⟨sound_preserved.step hs ?_ hl, loopStep_fills hs hload hroom hl⟩
    rintro p i rfl
    exact hload.1

/-- The invariant of a workload: its time is accounted for, unless it can no longer end. -/
structure Simulation.Billed (s : Simulation) : Prop where
  metered : s.Metered ∨ s.Overfull
  done : s.loop.point = .exited → s.loop.scheduler.isDone = true
  places : s.loop.scheduler.finishedProcesses ≤ 100

theorem billed_next (h : s.Billed) (hload : Workload s a) (hstep : s.next a = some s') :
    s'.Billed := by
  obtain ⟨hmetered, hdone, hplaces⟩ := h
  refine ⟨?_, ?_, ?_⟩
  · rcases hmetered with hmetered | hover
    · by_cases hroom : RoomToPreempt s a
      · exact Or.inl (Simulation.metered_next hmetered hload hroom hstep)
      · exact Or.inr (overfull_of_noRoom hmetered.clocked.sound hload hroom hstep)
    · exact Or.inr (overfull_next hover hload hstep)
  · have hstep := simulationStep_of_next hstep
    cases a with
    | worker =>
      rw [simulationStep_worker hstep]
      exact hdone
    | loop act => exact exited_done (simulationStep_loop hstep) hdone
  · have hstep := simulationStep_of_next hstep
    cases a with
    | worker =>
      rw [simulationStep_worker hstep]
      exact hplaces
    | loop act => exact finished_le_step hplaces (simulationStep_loop hstep)

/-- What `Metered` says once the loop has been left. -/
theorem Simulation.Metered.within (h : s.Metered) : WithinElapsed s.loop := by
  intro hexit
  have hheld := h.left hexit
  have hset := settled_nil hheld
  have hjobs : s.loop.scheduler.jobs = [] := by rw [jobs, hheld, List.map_nil]
  have hunits : unitsHeld s.workers s.loop.scheduler.jobs = 0 := by
    rw [hjobs]
    rfl
  rw [← hset]
  by_cases hst : s.loop.scheduler.startTime = -1
  · have hle := h.meter.unstarted hst
    have hreal := h.meter.real
    omega
  · rcases h.meter.recorded hst with hrec | ⟨-, hpoint⟩
    · exact hrec
    · simp [hexit, LoopPoint.Forgets] at hpoint

/-- So it is in every workload. A process that a full heap forgets has been charged for nothing, but
then 1024 others are unfinished, and the arrays of statistics are full before they have ended. -/
theorem withinElapsed_always (algorithm : SchedulingAlgorithm) (quantum : ℤ) (clk : ℕ)
    (as : List SimulationAct) :
    Always (Guarded Workload Simulation.next) (Simulation.initial algorithm quantum clk) as
      (fun s => WithinElapsed s.loop) := by
  intro pre s _ ht hexit
  have hin : s.Billed := by
    refine ht.invariant ?_ ⟨Or.inl (Simulation.metered_initial algorithm quantum clk), ?_, ?_⟩
    · rintro s a s' h ⟨hload, hstep⟩
      exact billed_next h hload hstep
    · intro hp
      cases hp
    · exact Nat.zero_le _
  rcases hin.metered with hmetered | ⟨-, hcrowded⟩
  · exact hmetered.within hexit
  · obtain ⟨-, hready, hcur⟩ := isDone_idle (hin.done hexit)
    have hplaces := hin.places
    rw [Crowded, held_none hcur, hready, List.length_nil] at hcrowded
    omega

/-- A process of two ticks is stopped for one of a single tick, and gets its second tick later. -/
def sharedCpuRun : List SimulationAct :=
  [.loop (.advance {}), .loop (.downNb true),
    .loop (.receive (Process.newPcb ⟨1, 0, 2, 0, 64⟩ 101 11 21) {}),
    .loop (.receive (Process.newPcb ⟨2, 0, 1, 0, 64⟩ 102 12 22) {}), .loop .noMessage] ++
  List.replicate 5 (.loop (.advance {})) ++
  [.worker 101 .down, .loop (.advance ⟨[some 2], []⟩), .loop .tick, .worker 101 .decrement,
    .loop (.advance {}), .loop (.advance {}), .loop (.downNb true), .loop .noMessage] ++
  List.replicate 3 (.loop (.advance {})) ++
  [.loop (.advance ⟨[some 1], []⟩), .loop (.advance {}), .worker 102 .down,
    .loop (.advance ⟨[some 1], []⟩), .loop .tick, .worker 102 .decrement, .worker 102 .clear,
    .worker 102 .kill, .loop (.sigusr2 ⟨[some 0], []⟩), .loop (.advance {}), .loop (.advance {}),
    .loop (.downNb true), .loop .noMessage, .loop .tick] ++
  List.replicate 5 (.loop (.advance {})) ++
  [.worker 101 .down, .loop (.advance ⟨[some 1], []⟩), .loop .tick, .worker 101 .decrement,
    .worker 101 .clear, .worker 101 .kill, .loop .sigusr1, .loop (.sigusr2 ⟨[some 0], []⟩),
    .loop (.advance {}), .loop (.advance {})]

theorem withinElapsed_shared :
    ∃ s, (s.loop.point = .exited ∧ s.loop.scheduler.activeCpuTime = 3 ∧
        s.loop.scheduler.clockValue = 4) ∧
      Trace (Guarded Workload Simulation.next) (Simulation.initial .RR 1 (0 : ℕ)) sharedCpuRun s ∧
      s.loop.scheduler.activeCpuTime ≤ s.loop.scheduler.clockValue - s.loop.scheduler.startTime := by
  obtain ⟨s, hrun, htest⟩ := exists_trace_of_execute
    (R := fun s a t => Simulation.next s a = some t) (fun _ _ _ h => h)
    (show (execute Workload Simulation.next (Simulation.initial .RR 1 (0 : ℕ)) sharedCpuRun).any
      (fun s => s.loop.point = .exited ∧ s.loop.scheduler.activeCpuTime = 3 ∧
        s.loop.scheduler.clockValue = 4) = true by decide +kernel)
  have hend := of_decide_eq_true htest
  exact ⟨s, hend, hrun, withinElapsed_always .RR 1 0 _ _ s (List.prefix_refl _) hrun hend.1⟩

end KernelSim
