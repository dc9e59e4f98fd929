import KernelSim.Scheduler.Dispatcher
import KernelSim.Scheduler.Shutdown
import Mathlib.Data.Multiset.Filter

/-! The semaphores and the shared memory of the processes: each is removed once, and not used after. -/
namespace KernelSim
open Runs Relation Scheduler Dispatcher

/-- The objects that exist for the processes received. -/
structure IpcObjects where
  semaphores : Multiset ℤ
  segments : Multiset ℤ
  deriving DecidableEq

/-- What an effect does to the objects, and `none` when it uses one that does not exist. A process
is signalled only while its semaphore is there: `start_process` reads it. -/
def IpcObjects.effect (o : IpcObjects) : Effect → Option IpcObjects
  | .received p =>
    if p.syncSemid ∈ o.semaphores ∨ p.shmId ∈ o.segments then none
    else some
      { semaphores := p.syncSemid ::ₘ o.semaphores
        segments := if p.shmId ≠ -1 then p.shmId ::ₘ o.segments else o.segments }
  | .signal _ p | .grant p => if p.syncSemid ∈ o.semaphores then some o else none
  | .removeSem p =>
    if p.syncSemid ∈ o.semaphores then
      some { o with semaphores := o.semaphores.erase p.syncSemid }
    else none
  | .removeShm p =>
    if p.shmId ∈ o.segments then some { o with segments := o.segments.erase p.shmId } else none
  | .logged _ _ _ _ | .progressBar _ _ => some o

def IpcObjects.run (o : IpcObjects) (es : List Effect) : Option IpcObjects :=
  es.foldlM IpcObjects.effect o

/-- The objects of some processes. -/
def objectsOf (m : Multiset PCB) : IpcObjects :=
  { semaphores := m.map PCB.syncSemid, segments := (m.map PCB.shmId).filter (· ≠ -1) }

/-- The objects that come with a process are none of those that exist, as the kernel makes them. -/
def NewObjects (d : Dispatcher) (p : PCB) : Prop :=
  ∀ q ∈ d.processes, q.syncSemid ≠ p.syncSemid ∧ (p.shmId ≠ -1 → q.shmId ≠ p.shmId)

instance (d : Dispatcher) (p : PCB) : Decidable (NewObjects d p) :=
  inferInstanceAs (Decidable
    (∀ q ∈ d.processes, q.syncSemid ≠ p.syncSemid ∧ (p.shmId ≠ -1 → q.shmId ≠ p.shmId)))

/-- What was done has used only what existed, and what exists belongs to the processes it has. -/
def UsesObjects (d : Dispatcher) : Prop :=
  (objectsOf 0).run d.done = some (objectsOf d.processes)

variable {answer : Bool → Prop} {d d' : Dispatcher} {p q : PCB} {m : Multiset PCB}
  {o o' : IpcObjects} {es es' : List Effect} {clk value : ℤ} {sent : Bool}

theorem run_append (h : o.run es = some o') : o.run (es ++ es') = o'.run es' := by
  simp only [IpcObjects.run, List.foldlM_append] at h ⊢
  rw [h]
  rfl

theorem effect_signal {signal : Signal} (hp : p.syncSemid ∈ o.semaphores) :
    o.effect (.signal signal p) = some o := if_pos hp

theorem effect_grant (hp : p.syncSemid ∈ o.semaphores) : o.effect (.grant p) = some o := if_pos hp

theorem run_cons {e : Effect} (h : o.effect e = some o') : o.run (e :: es) = o'.run es := by
  simp only [IpcObjects.run, List.foldlM_cons, h]
  rfl

theorem objectsOf_congr (hsem : p.syncSemid = q.syncSemid) (hshm : p.shmId = q.shmId) :
    objectsOf (p ::ₘ m) = objectsOf (q ::ₘ m) := by
  simp only [objectsOf, Multiset.map_cons, hsem, hshm]

theorem mem_semaphores : p.syncSemid ∈ (objectsOf (p ::ₘ m)).semaphores := by
  simp [objectsOf]

/-- A signal to a process, with what is logged about it. -/
theorem run_signal {signal : Signal} (hes : ∀ e ∈ es, ∀ o : IpcObjects, o.effect e = some o)
    (hp : p.syncSemid ∈ o.semaphores) : o.run (.signal signal p :: es) = some o := by
  rw [run_cons (effect_signal hp)]
  induction es with
  | nil => rfl
  | cons e es ih =>
    rw [run_cons (hes e List.mem_cons_self o)]
    exact ih fun e he => hes e (List.mem_cons_of_mem _ he)

theorem run_contEffects {event : ProcessEvent} (hp : p.syncSemid ∈ o.semaphores) :
    o.run (contEffects event clk sent p) = some o := by
  apply run_signal _ hp
  cases sent <;> simp [IpcObjects.effect]

theorem run_stopEffects (hp : p.syncSemid ∈ o.semaphores) :
    o.run (stopEffects clk sent p) = some o := by
  apply run_signal _ hp
  cases sent <;> simp [IpcObjects.effect]

/-- The shared memory of a process, if it has some, is removed first. -/
theorem run_removeShm (hshm : q.shmId = p.shmId) :
    (objectsOf (p ::ₘ m)).run (if p.shmId ≠ -1 then [.removeShm q] else []) =
      some { objectsOf m with semaphores := p.syncSemid ::ₘ m.map PCB.syncSemid } := by
  by_cases h : p.shmId ≠ -1
  · have hsegments : (objectsOf (p ::ₘ m)).segments = p.shmId ::ₘ (objectsOf m).segments := by
      simp [objectsOf, h]
    have hmem : q.shmId ∈ (objectsOf (p ::ₘ m)).segments := by
      rw [hsegments, hshm]
      exact Multiset.mem_cons_self _ _
    have heffect : (objectsOf (p ::ₘ m)).effect (.removeShm q) =
        some { objectsOf m with semaphores := p.syncSemid ::ₘ m.map PCB.syncSemid } := by
      rw [IpcObjects.effect, if_pos hmem, hsegments, hshm, Multiset.erase_cons_head]
      simp [objectsOf]
    rw [if_pos h, run_cons heffect]
    rfl
  · rw [if_neg h]
    show some (objectsOf (p ::ₘ m)) = _
    simp [objectsOf, not_not.mp h]

/-- The end of a process removes both of its objects. -/
theorem run_retireEffects {finished count : ℕ} :
    (objectsOf (p ::ₘ m)).run (retireEffects clk finished count value p) = some (objectsOf m) := by
  have hmem : (p.retired value).syncSemid ∈ p.syncSemid ::ₘ m.map PCB.syncSemid :=
    Multiset.mem_cons_self _ _
  have hsem : (p.syncSemid ::ₘ m.map PCB.syncSemid).erase (p.retired value).syncSemid =
      m.map PCB.syncSemid := Multiset.erase_cons_head _ _
  have hshm := run_removeShm (p := p) (q := { p with remainingTime := value }) (m := m) rfl
  rw [retireEffects, run_append hshm, run_cons rfl, run_cons rfl]
  simp only [IpcObjects.run, List.foldlM_cons, List.foldlM_nil, IpcObjects.effect]
  rw [if_pos hmem, hsem]
  rfl

/-- A process arrives with objects of its own. -/
theorem effect_received (hnew : NewObjects d p) (hp : q.syncSemid = p.syncSemid)
    (hshm : q.shmId = p.shmId) :
    (objectsOf d.processes).effect (.received q) = some (objectsOf (p ::ₘ d.processes)) := by
  have hneither : ¬ (q.syncSemid ∈ (objectsOf d.processes).semaphores ∨
      q.shmId ∈ (objectsOf d.processes).segments) := by
    rw [hp, hshm]
    rintro (hin | hin)
    · obtain ⟨r, hr, heq⟩ := Multiset.mem_map.mp hin
      exact (hnew r hr).1 heq
    · obtain ⟨hin, hne⟩ := Multiset.mem_filter.mp hin
      obtain ⟨r, hr, heq⟩ := Multiset.mem_map.mp hin
      exact (hnew r hr).2 hne heq
  rw [IpcObjects.effect, if_neg hneither, hp, hshm]
  by_cases h : p.shmId ≠ -1 <;> simp [objectsOf, h]

theorem usesObjects_step (hd : UsesObjects d) (h : Dispatches NewObjects answer d d') :
    UsesObjects d' := by
  unfold UsesObjects at hd ⊢
  cases h with
  | @arrive p hok =>
    have hsame : objectsOf (p.arrived ::ₘ d.processes) = objectsOf (p ::ₘ d.processes) :=
      objectsOf_congr rfl rfl
    have heffect := effect_received (q := { p with remainingTime := p.executionTime }) hok rfl rfl
    rw [processes_arrive, run_append hd, run_cons heffect]
    exact congrArg some hsame.symm
  | @reread p value hp =>
    rw [hd, processes_running hp]
    exact congrArg some (objectsOf_congr rfl rfl)
  | @dispatch q rest clk sent hidle hq _ =>
    have hsame : objectsOf (q ::ₘ rest) = objectsOf (q.dispatched clk ::ₘ rest) :=
      objectsOf_congr (by simp) (by simp)
    rw [processes_idle hidle, hq, hsame] at hd
    rw [run_append hd]
    exact run_contEffects mem_semaphores
  | @preempt p clk value sent hp _ =>
    have hsame : objectsOf (p ::ₘ d.waiting) = objectsOf (p.preempted clk value ::ₘ d.waiting) :=
      objectsOf_congr rfl rfl
    rw [processes_running hp, hsame] at hd
    rw [run_append hd]
    exact run_stopEffects mem_semaphores
  | @grant p hp =>
    rw [processes_running hp] at hd
    rw [run_append hd, run_cons (effect_grant mem_semaphores)]
    exact congrArg some (congrArg objectsOf (processes_running hp).symm)
  | @retire p clk value finished count hp =>
    rw [processes_running hp] at hd
    rw [run_append hd]
    exact run_retireEffects

/-- In every run, no semaphore and no shared memory is used before its process is received or after
it is removed, none is removed twice, those that exist are those of the processes that are ready or
current, and when the loop is left none is there. -/
theorem ipcObjects_always (algorithm : SchedulingAlgorithm) (quantum clk : ℤ) (as : List LoopAct) :
    Always (Restrict (Admits NewObjects fun _ => True) LoopStep)
      (Loop.initial algorithm quantum clk) as fun l =>
        (objectsOf 0).run l.scheduler.trace = some (objectsOf l.scheduler.held) ∧
          (l.point = .exited → (objectsOf 0).run l.scheduler.trace = some (objectsOf 0)) := by
  intro pre l _ ht
  have huses : UsesObjects l.scheduler.view :=
    dispatched_invariant (run_dispatches algorithm quantum clk trivial ht)
      (fun _ _ => usesObjects_step) rfl
  have hdone : l.point = .exited → l.scheduler.isDone = true :=
    ht.invariant (P := fun l => l.point = .exited → l.scheduler.isDone = true)
      (fun _ _ _ hold h => exited_done h.2 hold) (by simp [Loop.initial])
  have hall : (objectsOf 0).run l.scheduler.trace = some (objectsOf l.scheduler.held) := by
    rw [← view_processes]
    exact huses
  refine ⟨hall, fun hp => ?_⟩
  obtain ⟨-, hr, hc⟩ := isDone_idle (hdone hp)
  rw [hall, held, hr, hc]
  rfl

theorem ipcObjects_always_drained :
    ∃ l, (l.point = .exited ∧ l.scheduler.finishedProcesses = 2) ∧
      Trace (Restrict (Admits NewObjects fun _ => True) LoopStep) (Loop.initial .RR 1 0)
        drainedRun l ∧ (objectsOf 0).run l.scheduler.trace = some (objectsOf 0) := by
  obtain ⟨l, hrun, htest⟩ := exists_trace_of_execute (fun _ _ _ => loopStep_of_next)
    (show (execute (Admits NewObjects fun _ => True) Loop.next (Loop.initial .RR 1 0)
      drainedRun).any (fun l => l.point = .exited ∧ l.scheduler.finishedProcesses = 2) = true by
        decide +kernel)
  obtain ⟨hp, hfinished⟩ := of_decide_eq_true htest
  exact ⟨l, ⟨hp, hfinished⟩, hrun,
    (ipcObjects_always .RR 1 0 _ _ l (List.prefix_refl _) hrun).2 hp⟩

end KernelSim
