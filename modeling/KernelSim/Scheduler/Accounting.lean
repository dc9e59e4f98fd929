import KernelSim.Scheduler.Completion
import KernelSim.Scheduler.Preemption

/-! The ticks a process has run for and those it has waited for, while it is moved on and off the
CPU. -/
namespace KernelSim
open Relation

namespace Worker

/-- The process has still to take a grant or to decrement its remaining time. -/
def unfinished (w : Worker) : Bool :=
  match w.phase with
  | .waiting | .working _ => true
  | _ => false

/-- The ticks, ended at the time `clk`, for which a process of run time `executionTime` took a
grant. -/
def spent (w : Worker) (clk executionTime : ℤ) : ℤ :=
  match w.phase with
  | .working currentClk =>
    if currentClk = clk then executionTime - w.sharedRemainingTime
    else executionTime - w.sharedRemainingTime + 1
  | _ => executionTime - w.sharedRemainingTime

/-- The process has a grant, or has taken one at the time `clk`. -/
def Granted (w : Worker) (clk : ℤ) : Prop := w.semaphore = true ∨ w.phase = .working clk

/-- A process stops decrementing when its remaining time is 0. -/
structure Regular (w : Worker) (clk : ℤ) : Prop where
  left : w.unfinished = true → 1 ≤ w.sharedRemainingTime
  used : w.unfinished = false → w.sharedRemainingTime = 0
  past : ∀ currentClk, w.phase = .working currentClk → currentClk ≤ clk

variable {w w' : Worker} {clk e : ℤ} {act : WorkerAct}

theorem regular_step (h : w.Regular clk) (hw : WorkerStep clk w act w') : w'.Regular clk := by
  obtain ⟨hleft, hused, hpast⟩ := h
  cases hw with
  | down hp hs =>
    refine ⟨fun _ => hleft ?_, nofun, ?_⟩
    · rw [unfinished, hp]
    · rintro c ⟨⟩
      exact le_refl _
  | decrement hp hc =>
    have hleft := hleft (by rw [unfinished, hp])
    by_cases hzero : w.sharedRemainingTime - 1 ≤ 0
    · simp only [if_pos hzero]
      refine ⟨nofun, fun _ => ?_, nofun⟩
      dsimp only
      omega
    · simp only [if_neg hzero]
      refine ⟨fun _ => ?_, nofun, nofun⟩
      dsimp only
      omega
  | clear hp => exact ⟨nofun, fun _ => rfl, nofun⟩
  | kill hp => exact ⟨nofun, fun _ => hused (by rw [unfinished, hp]), nofun⟩

theorem spent_step (h : w.Regular clk) (hw : WorkerStep clk w act w') :
    w'.spent clk e = w.spent clk e := by
  cases hw with
  | down hp hs => simp [spent, hp]
  | decrement hp hc =>
    by_cases hzero : w.sharedRemainingTime - 1 ≤ 0
    · simp only [spent, hp, if_pos hzero, if_neg hc.symm]
      omega
    · simp only [spent, hp, if_neg hzero, if_neg hc.symm]
      omega
  | clear hp =>
    have hzero := h.used (by rw [unfinished, hp])
    simp [spent, hp, hzero]
  | kill hp => simp [spent, hp]

theorem granted_step (hw : WorkerStep clk w act w') (hg : w'.Granted clk) : w.Granted clk := by
  cases hw with
  | down hp hs => exact Or.inl hs
  | decrement hp hc =>
    refine hg.imp_right fun hphase => ?_
    dsimp only at hphase
    split at hphase <;> cases hphase
  | clear hp | kill hp => exact hg.imp_right nofun

/-- A tick for which the process took a grant. -/
theorem spent_tick (hp : w.phase = .working clk) : w.spent (clk + 1) e = w.spent clk e + 1 := by
  simp [spent, hp]

/-- A tick for which the process took no grant. -/
theorem spent_pass (h : w.Regular clk) (hp : w.phase ≠ .working clk) :
    w.spent (clk + 1) e = w.spent clk e := by
  unfold spent
  split
  · rename_i c hphase
    have hc := h.past c hphase
    have hne : c ≠ clk := fun heq => hp (heq ▸ hphase)
    rw [if_neg (by omega), if_neg hne]
  · rfl

theorem regular_tick (h : w.Regular clk) : w.Regular (clk + 1) :=
  ⟨h.left, h.used, fun c hp => (h.past c hp).trans (by omega)⟩

theorem not_granted_tick (h : w.Regular clk) (hs : w.semaphore = false) :
    ¬ w.Granted (clk + 1) := by
  rintro (hg | hp)
  · simp [hs] at hg
  · have := h.past _ hp
    omega

/-- A process that has exited has run for its whole run time. -/
theorem spent_finished (h : w.Regular clk) (hp : w.unfinished = false) : w.spent clk e = e := by
  have hzero := h.used hp
  unfold unfinished at hp
  unfold spent
  split at hp <;> simp_all

end Worker

/-- A process that is ready has waited, up to the moment it was last preempted, for the ticks it has
not run for. -/
structure PCB.Queued (clk : ℤ) (w : Worker) (p : PCB) : Prop where
  regular : w.Regular clk
  ungranted : ¬ w.Granted clk
  fresh : p.startTime = -1 → w.spent clk p.executionTime = 0
  waited : p.startTime ≠ -1 → p.lastPremptTime ≠ -1 ∧
    p.waitingTime + w.spent clk p.executionTime = p.lastPremptTime - p.arrivalTime

/-- The current process has waited, up to now, for the ticks it has not run for. -/
structure PCB.Running (clk : ℤ) (w : Worker) (p : PCB) : Prop where
  regular : w.Regular clk
  started : p.startTime ≠ -1
  waited : p.waitingTime + w.spent clk p.executionTime = clk - p.arrivalTime

namespace PCB

variable {p : PCB} {w w' : Worker} {clk : ℤ} {act : WorkerAct}

/-- `start_process` or `resume_process`, and the `SIGCONT`. -/
theorem Queued.dispatched (h : p.Queued clk w) (hclk : 0 ≤ clk) (stopped : Bool) :
    (p.dispatched clk).Running clk { w with stopped } := by
  refine ⟨⟨h.regular.left, h.regular.used, h.regular.past⟩, ?_, ?_⟩
  · unfold PCB.dispatched
    split
    · show clk ≠ -1
      omega
    · assumption
  · show _ + w.spent clk _ = _
    rw [dispatched_executionTime, dispatched_arrivalTime]
    unfold PCB.dispatched
    split
    · rename_i hstart
      show clk - p.arrivalTime + _ = _
      rw [h.fresh hstart, add_zero]
    · rename_i hstart
      obtain ⟨hlast, hwaited⟩ := h.waited hstart
      simp only [resume, if_pos hlast]
      omega

/-- `preempt_process` and the `SIGSTOP`. -/
theorem Running.preempted (h : p.Running clk w) (hg : ¬ w.Granted clk) (hclk : 0 ≤ clk)
    (value : ℤ) (stopped : Bool) : (p.preempted clk value).Queued clk { w with stopped } :=
  ⟨⟨h.regular.left, h.regular.used, h.regular.past⟩, hg, fun hs => absurd hs h.started,
    fun _ => ⟨show clk ≠ -1 by omega, h.waited⟩⟩

theorem Running.step (h : p.Running clk w) (hw : WorkerStep clk w act w') : p.Running clk w' :=
  ⟨Worker.regular_step h.regular hw, h.started, by rw [Worker.spent_step h.regular hw, h.waited]⟩

theorem Running.tick (h : p.Running clk w) (hp : w.phase = .working clk) :
    p.Running (clk + 1) w := by
  refine ⟨Worker.regular_tick h.regular, h.started, ?_⟩
  have := h.waited
  rw [Worker.spent_tick hp]
  omega

theorem Queued.tick (h : p.Queued clk w) : p.Queued (clk + 1) w := by
  obtain ⟨hregular, hungranted, hfresh, hwaited⟩ := h
  obtain ⟨hsem, hphase⟩ := not_or.mp hungranted
  have hpass := Worker.spent_pass (e := p.executionTime) hregular hphase
  exact ⟨Worker.regular_tick hregular,
    Worker.not_granted_tick hregular (Bool.eq_false_iff.mpr hsem), hpass ▸ hfresh, hpass ▸ hwaited⟩

/-- A process that has just been received. -/
theorem queued_arrived (h : 1 ≤ p.executionTime) :
    p.arrived.Queued clk (.create p.executionTime) := by
  refine ⟨⟨fun _ => h, nofun, nofun⟩, ?_, fun _ => ?_, fun hs => absurd rfl hs⟩
  · rintro (hg | hg) <;> cases hg
  · exact sub_self p.executionTime

end PCB

/-- The processes in the scheduler's hands, and what they do: the one on the CPU and those that are
ready. -/
structure Accounts (clk : ℤ) (cpu : Option PCB) (queue : List PCB) (received : List ℤ)
    (workers : ℤ → Worker) : Prop where
  distinct : ((cpu.toList ++ queue).map PCB.pid).Nodup
  known : ∀ p ∈ cpu.toList ++ queue, p.pid ∈ received
  alone : ∀ pid, (workers pid).stopped = false →
    (workers pid).phase = .exited ∨ cpu.map PCB.pid = some pid
  queued : ∀ p ∈ queue, p.Queued clk (workers p.pid)
  running : ∀ p, cpu = some p → p.Running clk (workers p.pid)

/-- The process on the CPU has no grant of this tick. -/
def Idle (clk : ℤ) (cpu : Option PCB) (workers : ℤ → Worker) : Prop :=
  ∀ p, cpu = some p → ¬ (workers p.pid).Granted clk

namespace Accounts

variable {clk : ℤ} {cpu : Option PCB} {queue queue' : List PCB} {received : List ℤ}
  {workers : ℤ → Worker} {p q : PCB} {pid : ℤ} {w : Worker} {act : WorkerAct} {value : ℤ}

theorem notMem_queue (h : Accounts clk (some p) queue received workers) :
    ∀ q ∈ queue, q.pid ≠ p.pid := by
  intro q hq heq
  refine (List.nodup_cons.mp h.distinct).1 ?_
  rw [← heq]
  exact List.mem_map_of_mem hq

theorem reread (h : Accounts clk (some p) queue received workers) (value : ℤ) :
    Accounts clk (some { p with remainingTime := value }) queue received workers := by
  have hrun := h.running p rfl
  refine ⟨h.distinct, ?_, h.alone, h.queued, ?_⟩
  · intro q hq
    rcases List.mem_cons.mp hq with rfl | hq
    · exact h.known p List.mem_cons_self
    · exact h.known q (List.mem_cons_of_mem _ hq)
  · rintro q ⟨⟩
    exact ⟨hrun.regular, hrun.started, hrun.waited⟩

theorem subperm (h : Accounts clk cpu queue received workers) (hsub : queue'.Subperm queue) :
    Accounts clk cpu queue' received workers := by
  obtain ⟨l, hl, hs⟩ := (List.subperm_append_left cpu.toList).mpr hsub
  refine ⟨(hl.map PCB.pid).nodup_iff.mp (h.distinct.sublist (hs.map PCB.pid)), fun q hq => ?_,
    h.alone, fun q hq => h.queued q (hsub.subset hq), h.running⟩
  exact h.known q (hs.subset (hl.symm.subset hq))

/-- The process on the CPU is preempted before it has a grant of this tick. -/
theorem stop (h : Accounts clk (some p) queue received workers)
    (hidle : Idle clk (some p) workers) (hclk : 0 ≤ clk) (value : ℤ) :
    Accounts clk none (p.preempted clk value :: queue) received
      (Function.update workers p.pid { workers p.pid with stopped := true }) := by
  refine ⟨h.distinct, ?_, ?_, ?_, by simp⟩
  · intro q hq
    rcases List.mem_cons.mp hq with rfl | hq
    · exact h.known p List.mem_cons_self
    · exact h.known q (List.mem_cons_of_mem _ hq)
  · intro pid hrun
    by_cases heq : pid = p.pid
    · subst heq
      simp at hrun
    · rw [Function.update_of_ne heq] at hrun ⊢
      exact (h.alone pid hrun).imp_right fun hcpu => absurd (Option.some.inj hcpu).symm heq
  · intro q hq
    rcases List.mem_cons.mp hq with rfl | hq
    · show (p.preempted clk value).Queued clk (Function.update workers p.pid _ p.pid)
      rw [Function.update_self]
      exact (h.running p rfl).preempted (hidle p rfl) hclk value true
    · rw [Function.update_of_ne (h.notMem_queue q hq)]
      exact h.queued q hq

/-- A ready process is dispatched. -/
theorem dispatch (h : Accounts clk none queue received workers) (hclk : 0 ≤ clk)
    (hperm : queue.Perm (q :: queue')) :
    Accounts clk (some (q.dispatched clk)) queue' received
        (Function.update workers q.pid { workers q.pid with stopped := false }) ∧
      Idle clk (some (q.dispatched clk))
        (Function.update workers q.pid { workers q.pid with stopped := false }) := by
  have hq := h.queued q (hperm.mem_iff.mpr List.mem_cons_self)
  have hnodup := (hperm.map PCB.pid).nodup_iff.mp h.distinct
  have hother : ∀ r ∈ queue', r.pid ≠ q.pid := by
    intro r hr heq
    refine (List.nodup_cons.mp hnodup).1 ?_
    rw [← heq]
    exact List.mem_map_of_mem hr
  refine ⟨⟨?_, ?_, ?_, ?_, ?_⟩, ?_⟩
  · simpa using hnodup
  · intro r hr
    rcases List.mem_cons.mp hr with rfl | hr
    · rw [PCB.dispatched_pid]
      exact h.known q (hperm.mem_iff.mpr List.mem_cons_self)
    · exact h.known r (hperm.mem_iff.mpr (List.mem_cons_of_mem _ hr))
  · intro pid hrun
    by_cases heq : pid = q.pid
    · exact Or.inr (by simp [heq])
    · rw [Function.update_of_ne heq] at hrun ⊢
      exact (h.alone pid hrun).imp_right nofun
  · intro r hr
    rw [Function.update_of_ne (hother r hr)]
    exact h.queued r (hperm.mem_iff.mpr (List.mem_cons_of_mem _ hr))
  · rintro r ⟨⟩
    rw [PCB.dispatched_pid, Function.update_self]
    exact hq.dispatched hclk false
  · rintro r ⟨⟩
    rw [PCB.dispatched_pid, Function.update_self]
    exact hq.ungranted

/-- The process on the CPU leaves it for good, having exited. -/
theorem retire (h : Accounts clk (some p) queue received workers)
    (hexit : (workers p.pid).phase = .exited) : Accounts clk none queue received workers := by
  refine ⟨(List.nodup_cons.mp h.distinct).2, fun q hq => h.known q (List.mem_cons_of_mem _ hq), ?_,
    h.queued, by simp⟩
  intro pid hrun
  refine Or.inl ((h.alone pid hrun).elim id fun hcpu => ?_)
  obtain rfl : p.pid = pid := Option.some.inj hcpu
  exact hexit

/-- A process not received before. -/
theorem arrive (h : Accounts clk cpu queue received workers) (hnew : p.pid ∉ received)
    (hexec : 1 ≤ p.executionTime) :
    Accounts clk cpu (p.arrived :: queue) (received ++ [p.pid])
      (Function.update workers p.pid (.create p.executionTime)) := by
  have hother : ∀ q ∈ cpu.toList ++ queue, q.pid ≠ p.pid :=
    fun q hq heq => hnew (heq ▸ h.known q hq)
  have hperm : (cpu.toList ++ p.arrived :: queue).Perm (p.arrived :: (cpu.toList ++ queue)) :=
    List.perm_middle
  refine ⟨?_, ?_, ?_, ?_, ?_⟩
  · refine (hperm.map PCB.pid).nodup_iff.mpr (List.nodup_cons.mpr ⟨fun hmem => ?_, h.distinct⟩)
    obtain ⟨q, hq, heq⟩ := List.mem_map.mp hmem
    exact hother q hq heq
  · intro q hq
    rcases List.mem_cons.mp (hperm.mem_iff.mp hq) with rfl | hq
    · exact List.mem_append_right _ List.mem_cons_self
    · exact List.mem_append_left _ (h.known q hq)
  · intro pid hrun
    by_cases heq : pid = p.pid
    · subst heq
      simp [Worker.create] at hrun
    · rw [Function.update_of_ne heq] at hrun ⊢
      exact h.alone pid hrun
  · intro q hq
    rcases List.mem_cons.mp hq with rfl | hq
    · show p.arrived.Queued clk (Function.update workers p.pid _ p.pid)
      rw [Function.update_self]
      exact PCB.queued_arrived hexec
    · rw [Function.update_of_ne (hother q (List.mem_append_right _ hq))]
      exact h.queued q hq
  · rintro q rfl
    rw [Function.update_of_ne (hother q List.mem_cons_self)]
    exact h.running q rfl

/-- A step of a process is one of the process on the CPU. -/
theorem step (h : Accounts clk cpu queue received workers)
    (hstop : (workers pid).stopped = false) (hw : WorkerStep clk (workers pid) act w) :
    Accounts clk cpu queue received (Function.update workers pid w) ∧
      (Idle clk cpu workers → Idle clk cpu (Function.update workers pid w)) ∧
      pid ∈ received := by
  have hphase : (workers pid).phase ≠ .exited := by
    cases hw with
    | down hp | decrement hp | clear hp | kill hp => simp [hp]
  obtain ⟨p, rfl, rfl⟩ := Option.map_eq_some_iff.mp ((h.alone pid hstop).resolve_left hphase)
  refine ⟨⟨h.distinct, h.known, ?_, ?_, ?_⟩, ?_, h.known p List.mem_cons_self⟩
  · intro pid' hrun
    by_cases heq : pid' = p.pid
    · exact Or.inr (by rw [heq]; rfl)
    · rw [Function.update_of_ne heq] at hrun ⊢
      exact h.alone pid' hrun
  · intro q hq
    rw [Function.update_of_ne (h.notMem_queue q hq)]
    exact h.queued q hq
  · rintro q ⟨⟩
    rw [Function.update_self]
    exact (h.running p rfl).step hw
  · rintro hidle q ⟨⟩
    rw [Function.update_self]
    exact fun hg => hidle p rfl (Worker.granted_step hw hg)

/-- The process on the CPU gets a grant. -/
theorem grant (h : Accounts clk (some p) queue received workers) :
    Accounts clk (some p) queue received
      (Function.update workers p.pid { workers p.pid with semaphore := true }) := by
  obtain ⟨hregular, hstarted, hwaited⟩ := h.running p rfl
  refine ⟨h.distinct, h.known, ?_, ?_, ?_⟩
  · intro pid hrun
    by_cases heq : pid = p.pid
    · exact Or.inr (by rw [heq]; rfl)
    · rw [Function.update_of_ne heq] at hrun ⊢
      exact h.alone pid hrun
  · intro q hq
    rw [Function.update_of_ne (h.notMem_queue q hq)]
    exact h.queued q hq
  · rintro q ⟨⟩
    rw [Function.update_self]
    exact ⟨⟨hregular.left, hregular.used, hregular.past⟩, hstarted, hwaited⟩

/-- The clock ticks, and the process on the CPU has taken a grant of the tick that ends. -/
theorem tick (h : Accounts clk cpu queue received workers)
    (htaken : ∀ p, cpu = some p → (workers p.pid).phase = .working clk) :
    Accounts (clk + 1) cpu queue received workers :=
  ⟨h.distinct, h.known, h.alone, fun p hp => (h.queued p hp).tick,
    fun p hp => (h.running p hp).tick (htaken p hp)⟩

end Accounts

/-- The PCB and the finish time on a line 'finished'. -/
def Effect.finishedLine : Effect → Option (PCB × ℤ)
  | .logged event _ p finishTime => if event = .finished then some (p, finishTime) else none
  | _ => none

namespace Scheduler

def finishedLines (s : Scheduler) : List (PCB × ℤ) := s.trace.filterMap Effect.finishedLine

/-- The waiting time on a line 'finished' is the process's turnaround less its run time, and so is
its entry in `wait_times`, as far as the arrays go. -/
structure WaitsAgree (s : Scheduler) : Prop where
  printed : ∀ p finishTime, (p, finishTime) ∈ s.finishedLines →
    p.waitingTime = finishTime - p.arrivalTime - p.executionTime
  recorded : ∀ k p finishTime, s.finishedLines[k]? = some (p, finishTime) → k < 100 →
    s.turnaroundTimes[k]? = some (finishTime - p.arrivalTime) ∧
      s.waitTimes[k]? = some p.waitingTime

/-- The two computations agree so far, and there is one entry for each line. -/
structure Ledger (s : Scheduler) : Prop extends WaitsAgree s where
  count : s.finishedLines.length = s.finishedProcesses
  turnarounds : s.turnaroundTimes.length = 100
  waits : s.waitTimes.length = 100

/-- The processes of a scheduler have their accounts in order, and no grant of this tick. -/
structure Balanced (clk : ℤ) (s : Scheduler) (workers : ℤ → Worker) : Prop where
  accounts : Accounts clk s.current s.ready s.receivedPids workers
  idle : Idle clk s.current workers

/-- The scheduler goes from `s` to `s'` by effects after which its processes are in order. -/
def Balances (clk : ℤ) (workers : ℤ → Worker) (s s' : Scheduler) : Prop :=
  ∃ es, s'.trace = s.trace ++ es ∧ Balanced clk s' (es.foldl observe workers)

variable {s s' t : Scheduler} {p : PCB} {process : ℕ} {clk value : ℤ} {workers : ℤ → Worker}
  {es : List Effect}

theorem Ledger.congr (h : Ledger s) (hlines : s'.finishedLines = s.finishedLines)
    (hf : s'.finishedProcesses = s.finishedProcesses)
    (ht : s'.turnaroundTimes = s.turnaroundTimes) (hw : s'.waitTimes = s.waitTimes) :
    Ledger s' := by
  refine ⟨⟨?_, ?_⟩, ?_, ?_, ?_⟩
  · rw [hlines]
    exact h.printed
  · rw [hlines, ht, hw]
    exact h.recorded
  · rw [hlines, hf]
    exact h.count
  · rw [ht]
    exact h.turnarounds
  · rw [hw]
    exact h.waits

theorem finishedLine_ofSwitch {e : Effect} (h : e.OfSwitch) : e.finishedLine = none := by
  cases e with
  | logged event => exact if_neg h
  | _ => rfl

theorem finishedLines_ofSwitch (ht : s'.trace = s.trace ++ es) (hes : ∀ e ∈ es, e.OfSwitch) :
    s'.finishedLines = s.finishedLines := by
  have hnil := filterMap_ofSwitch (fun _ => finishedLine_ofSwitch) hes
  rw [finishedLines, ht, List.filterMap_append, hnil, List.append_nil, finishedLines]

theorem ledger_moves (h : Ledger s) (hm : ReflTransGen Move s s') : Ledger s' := by
  obtain ⟨es, ht, hes⟩ := moves_trace hm
  have hb := moves_books hm
  exact h.congr (finishedLines_ofSwitch ht hes) hb.finishedProcesses hb.turnaroundTimes hb.waitTimes

theorem Balances.trans (h : Balances clk workers s t)
    (hnext : ∀ workers, Balanced clk t workers → Balances clk workers t s') :
    Balances clk workers s s' := by
  obtain ⟨es, ht, hbal⟩ := h
  obtain ⟨fs, ht', hbal'⟩ := hnext _ hbal
  refine ⟨es ++ fs, by rw [ht', ht, List.append_assoc], ?_⟩
  rw [List.foldl_append]
  exact hbal'

theorem accounts_reread (h : Accounts clk s.current s.ready s.receivedPids workers)
    (hr : Reread s s') : Accounts clk s'.current s'.ready s'.receivedPids workers := by
  rw [(pids_eq hr.trace).2, hr.ready]
  rcases hr.current with hc | ⟨p, value, hc, hc'⟩
  · rw [hc]
    exact h
  · rw [hc']
    rw [hc] at h
    exact h.reread value

theorem idle_reread (h : Idle clk s.current workers) (hr : Reread s s') :
    Idle clk s'.current workers := by
  rcases hr.current with hc | ⟨p, value, hc, hc'⟩
  · rw [hc]
    exact h
  · rw [hc']
    rintro q ⟨⟩
    exact h p hc

theorem balances_reread (h : Balanced clk s workers) (hr : Reread s s') :
    Balances clk workers s s' :=
  ⟨[], by simp [hr.trace], accounts_reread h.accounts hr, idle_reread h.idle hr⟩

/-- A switch made at the time on the clock. -/
theorem balances_move (h : Balanced clk s workers) (hclk : s.clockValue = clk) (h0 : 0 ≤ clk)
    (hm : Move s s') : Balances clk workers s s' := by
  rcases hm.outcome with hr | hw
  · exact balances_reread h hr
  · obtain ⟨haccounts, hidle⟩ := h
    subst hclk
    cases hw with
    | kept p hc hc' hr ht =>
      exact balances_reread ⟨haccounts, hidle⟩ ⟨Or.inr ⟨p, 0, hc, hc'⟩, hr, ht⟩
    | idle hc hr hc' hr' ht =>
      exact balances_reread ⟨haccounts, hidle⟩ ⟨Or.inl (hc'.trans hc.symm), hr'.trans hr.symm, ht⟩
    | dispatched q sent hc hr hc' ht =>
      have hrec := (pids_ofSwitch ht fun e => ofSwitch_cont).2
      rw [hc] at haccounts
      refine ⟨_, ht, ?_⟩
      rw [observe_cont, PCB.dispatched_pid]
      obtain ⟨haccounts, hidle⟩ := haccounts.dispatch h0 hr
      constructor <;> rw [hc']
      · rw [hrec]
        exact haccounts
      · exact hidle
    | replaced p q value stopped sent hc hr hroom hc' ht =>
      rw [List.append_assoc] at ht
      have hrec : s'.receivedPids = s.receivedPids := by
        refine (pids_ofSwitch ht fun e he => ?_).2
        exact (List.mem_append.mp he).elim ofSwitch_stop ofSwitch_cont
      rw [hc] at haccounts hidle
      refine ⟨_, ht, ?_⟩
      rw [List.foldl_append, observe_stop, observe_cont, PCB.dispatched_pid]
      obtain ⟨haccounts, hidle⟩ :=
        ((haccounts.stop hidle h0 value).subperm hr).dispatch h0 (List.Perm.refl _)
      constructor <;> rw [hc']
      · rw [hrec]
        exact haccounts
      · exact hidle

theorem balances_moves (h : Balanced clk s workers) (hclk : s.clockValue = clk) (h0 : 0 ≤ clk)
    (hm : ReflTransGen Move s s') : Balances clk workers s s' := by
  induction hm with
  | refl => exact ⟨[], by simp, h⟩
  | tail hms hm ih =>
    refine ih.trans fun workers hbal => balances_move hbal ?_ h0 hm
    rw [(moves_books hms).clockValue, hclk]

/-- With a current process, moves that stop none only read its remaining time. -/
theorem balances_gentles (h : Balanced clk s workers) (hc : s.current ≠ none)
    (hm : ReflTransGen GentleMove s s') : Balances clk workers s s' := by
  induction hm with
  | refl => exact ⟨[], by simp, h⟩
  | tail hms hm ih =>
    refine ih.trans fun workers hbal => balances_reread hbal (hm.gentle ?_)
    exact moves_current (gentles_moves hms) hc

/-- With no process there is nothing to do. -/
theorem moves_empty (hc : s.current = none) (hr : s.ready = []) (hm : ReflTransGen Move s s') :
    s'.current = none ∧ s'.ready = [] ∧ s'.trace = s.trace := by
  induction hm with
  | refl => exact ⟨hc, hr, rfl⟩
  | tail _ hm ih =>
    obtain ⟨hc, hr, ht⟩ := ih
    rcases hm.outcome with hread | hw
    · refine ⟨?_, hread.ready.trans hr, hread.trace.trans ht⟩
      rcases hread.current with heq | ⟨p, _, heq, -⟩
      · exact heq.trans hc
      · simp [hc] at heq
    · cases hw with
      | idle _ _ hc' hr' ht' => exact ⟨hc', hr', ht'.trans ht⟩
      | dispatched _ _ _ hperm => simp [hr] at hperm
      | kept _ heq => simp [hc] at heq
      | replaced _ _ _ _ _ heq => simp [hc] at heq

theorem balances_arrival (h : Balanced clk s workers) (hs : Sound s) (hsem : 0 < p.syncSemid)
    (hnew : p.pid ∉ s.receivedPids) (hexec : 1 ≤ p.executionTime) :
    Balances clk (Function.update workers p.pid (.create p.executionTime)) s
      (s.handleProcessArrival p) := by
  obtain ⟨-, -, hc, hsub, -, ht⟩ := handleProcessArrival_spec hs hsem
  have hrec : (s.handleProcessArrival p).receivedPids = s.receivedPids ++ [p.pid] := by
    simp [receivedPids, ht, Effect.receivedPid]
  refine ⟨_, ht, ?_, ?_⟩
  · rw [hc, hrec]
    exact (h.accounts.arrive hnew hexec).subperm hsub
  · rw [hc]
    intro q hq
    have hne : q.pid ≠ p.pid := by
      intro heq
      exact hnew (heq ▸ h.accounts.known q (by simp [hq]))
    show ¬ (Function.update workers p.pid _ q.pid).Granted clk
    rw [Function.update_of_ne hne]
    exact h.idle q hq

theorem balances_preemptOnArrival (h : Balanced clk s workers) (hs : Sound s) (h0 : 0 ≤ clk)
    (hclk : s.algorithm = .SRTN → s.Overtaken → s.clockValue = clk) :
    Balances clk workers s s.preemptOnArrival := by
  unfold preemptOnArrival
  split
  · rename_i hcond
    by_cases hover : s.Overtaken
    · exact balances_moves h (hclk hcond.1 hover) h0 (runSRTN_moves hs)
    · exact balances_gentles h (current_eq_none.not.mpr hcond.2) (runSRTN_gentle hs hover)
  · exact ⟨[], by simp, h⟩

theorem balances_receiveMessage (h : Balanced clk s workers) (hs : Sound s) (h0 : 0 ≤ clk)
    (hsem : 0 < p.syncSemid) (hnew : p.pid ∉ s.receivedPids) (hexec : 1 ≤ p.executionTime)
    (hclk : s.algorithm = .SRTN → (s.handleProcessArrival p).Overtaken → s.clockValue = clk) :
    Balances clk (Function.update workers p.pid (.create p.executionTime)) s
      (s.receiveMessage p) := by
  obtain ⟨hsound, hb, -⟩ := handleProcessArrival_spec hs hsem
  have hpre := (balances_arrival h hs hsem hnew hexec).trans fun workers hbal =>
    balances_preemptOnArrival hbal hsound h0 (by rw [hb.algorithm, hb.clockValue]; exact hclk)
  obtain ⟨es, ht, haccounts, hidle⟩ := hpre
  obtain ⟨_, heq⟩ := receiveMessage_eq s p
  rw [heq]
  exact ⟨es, ht, haccounts, hidle⟩

theorem ledger_receiveMessage (h : Ledger s) (hs : Sound s) (hsem : 0 < p.syncSemid) :
    Ledger (s.receiveMessage p) := by
  obtain ⟨hsound, hb, -, -, -, ht⟩ := handleProcessArrival_spec hs hsem
  have harr : Ledger (s.handleProcessArrival p) := by
    refine h.congr ?_ hb.finishedProcesses hb.turnaroundTimes hb.waitTimes
    simp [finishedLines, ht, Effect.finishedLine]
  have hpre : Ledger (s.handleProcessArrival p).preemptOnArrival :=
    ledger_moves harr (moved_moves (preemptOnArrival_moved hsound).1)
  obtain ⟨_, heq⟩ := receiveMessage_eq s p
  rw [heq]
  exact hpre.congr rfl rfl rfl rfl

/-- One more line and one more entry. -/
theorem Ledger.finish {finishTime : ℤ} (h : Ledger s)
    (hlines : s'.finishedLines = s.finishedLines ++ [(p, finishTime)])
    (hwaited : p.waitingTime = finishTime - p.arrivalTime - p.executionTime)
    (hf : s'.finishedProcesses = s.finishedProcesses + 1)
    (ht : s'.turnaroundTimes = s.turnaroundTimes.set s.finishedProcesses
      (finishTime - p.arrivalTime))
    (hw : s'.waitTimes = s.waitTimes.set s.finishedProcesses
      (finishTime - p.arrivalTime - p.executionTime)) : Ledger s' := by
  have hcount := h.count
  refine ⟨⟨?_, ?_⟩, ?_, ?_, ?_⟩
  · rw [hlines]
    intro q f hmem
    rcases List.mem_append.mp hmem with hmem | hmem
    · exact h.printed q f hmem
    · obtain ⟨rfl, rfl⟩ : q = p ∧ f = finishTime := by simpa using hmem
      exact hwaited
  · rw [hlines, ht, hw]
    intro k q f hk hlt
    rcases Nat.lt_or_ge k s.finishedLines.length with hold | hnew
    · rw [List.getElem?_append_left hold] at hk
      obtain ⟨hturn, hwait⟩ := h.recorded k q f hk hlt
      have hne : s.finishedProcesses ≠ k := by omega
      exact ⟨by rw [List.getElem?_set_ne hne, hturn], by rw [List.getElem?_set_ne hne, hwait]⟩
    · rw [List.getElem?_append_right hnew, List.getElem?_singleton] at hk
      split at hk
      · rename_i hzero
        obtain rfl : k = s.finishedProcesses := by omega
        obtain ⟨rfl, rfl⟩ : p = q ∧ finishTime = f := by simpa using hk
        rw [List.getElem?_set_self (by rw [h.turnarounds]; exact hlt),
          List.getElem?_set_self (by rw [h.waits]; exact hlt), hwaited]
        exact ⟨rfl, rfl⟩
      · cases hk
  · rw [hlines, List.length_append, hcount, hf]
    rfl
  · rw [ht, List.length_set, h.turnarounds]
  · rw [hw, List.length_set, h.waits]

/-- The end of a process that has exited and is recorded at the time on the clock. -/
theorem retire_balanced (h : Accounts clk s.current s.ready s.receivedPids workers)
    (hledger : Ledger s) (hs : Sound s) (hc : s.currentProcess = some process)
    (hexit : (workers (s.pcbs process).pid).phase = .exited) (hclk : s.clockValue = clk) :
    Balances clk workers s (s.retire process) ∧ Ledger (s.retire process) := by
  obtain ⟨value, hsound, hb, hnone, hready, ht⟩ := retire_spec hs hc
  have hcur' := current_eq_none.mpr hnone
  have hrec := (pids_retire ht).2
  rw [current_some hc] at h
  have hrun := h.running _ rfl
  have hspent := Worker.spent_finished (e := (s.pcbs process).executionTime) hrun.regular
    (by rw [Worker.unfinished, hexit])
  have hwaited := hrun.waited
  rw [hspent] at hwaited
  have hlines : (s.retire process).finishedLines =
      s.finishedLines ++ [((s.pcbs process).retired value, s.clockValue)] := by
    rw [finishedLines, ht, List.filterMap_append, retireEffects, finishedLines]
    split <;> simp [List.filterMap_cons, Effect.finishedLine]
  constructor
  · refine ⟨_, ht, ?_, ?_⟩
    · rw [observe_retire, hcur', hready, hrec]
      exact h.retire hexit
    · rw [hcur']
      simp [Idle]
  · refine hledger.finish hlines ?_ hb.finishedProcesses hb.turnaroundTimes hb.waitTimes
    show (s.pcbs process).waitingTime =
      s.clockValue - (s.pcbs process).arrivalTime - (s.pcbs process).executionTime
    omega

/-- The handler, when the current process, if there is one, has exited. -/
theorem balances_completion (h : Accounts clk s.current s.ready s.receivedPids workers)
    (hledger : Ledger s) (hs : Sound s) (h0 : 0 ≤ clk)
    (hexit : ∀ p, s.current = some p → (workers p.pid).phase = .exited) :
    Balances clk workers s (s.handleProcessCompletion clk) ∧
      Ledger (s.handleProcessCompletion clk) := by
  have hclk : Ledger { s with clockValue := clk } := hledger.congr rfl rfl rfl rfl
  obtain ⟨hc, heq⟩ | ⟨process, hc, heq⟩ := completion_cases s clk
  · have hcur : s.current = none := current_eq_none.mpr hc
    rw [heq]
    refine ⟨⟨[], by simp, h, ?_⟩, hclk⟩
    show Idle clk s.current workers
    rw [hcur]
    simp [Idle]
  · have hcur : s.current = some (s.pcbs process) := current_some hc
    obtain ⟨hret, hledger⟩ :=
      retire_balanced (s := { s with clockValue := clk }) h hclk (hs.withClock clk) hc
        (hexit _ hcur) rfl
    obtain ⟨value, hsound, hb, -⟩ := retire_spec (hs.withClock clk) hc
    have hmove := contextSwitching_move hsound
    rcases heq with heq | heq
    · rw [heq]
      exact ⟨hret, hledger⟩
    · rw [heq]
      exact ⟨hret.trans fun workers hbal => balances_move hbal hb.clockValue h0 hmove,
        ledger_moves hledger (.single hmove)⟩

end Scheduler

end KernelSim
