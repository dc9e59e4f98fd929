import KernelSim.Scheduler.Conservation
import KernelSim.Scheduler.Rotation

/-! In round robin a process runs for its quantum, and processes take their turns in order. -/
namespace KernelSim
open Runs Relation Histories Scheduler

variable {r r' : Rotation} {quantum clk : ℤ} {ok : Rotation → PCB → Prop} {p q : PCB}
  {h : List (ℤ × Effect)} {es : List Effect} {sent : Bool} {event : ProcessEvent}

/-- The process `q` runs with what it had in the queue. -/
def RunsAs (q : PCB) (d : ℤ × PCB) : Prop := d.2 = q.dispatched d.1

/-- Effects that concern neither the queue nor the CPU. -/
def Quiet (h : List (ℤ × Effect)) : Prop := ∀ e ∈ h, entryOf e = none ∧ dispatchOf e = none

theorem entry_or_dispatch (e : ℤ × Effect) : entryOf e = none ∨ dispatchOf e = none := by
  obtain ⟨t, e⟩ := e
  cases e with
  | signal s p => cases s <;> simp [entryOf, dispatchOf]
  | _ => simp [dispatchOf]

theorem quiet_nil : Quiet [] := by
  intro e he
  cases he

theorem quiet_stamped (hes : ∀ e ∈ es, ∀ s p, e ≠ .signal s p ∧ e ≠ .received p) :
    Quiet (stamped clk es) := by
  intro e he
  obtain ⟨e, hin, rfl⟩ := List.mem_map.mp he
  cases e with
  | received p => exact absurd rfl (hes _ hin .cont p).2
  | signal s p => exact absurd rfl (hes _ hin s p).1
  | _ => exact ⟨rfl, rfl⟩

theorem stamped_cont (clk : ℤ) (event : ProcessEvent) (sent : Bool) (p : PCB) :
    ∃ rest, stamped clk (contEffects event clk sent p) = (clk, .signal .cont p) :: rest ∧
      Quiet rest := by
  refine ⟨stamped clk (if sent then [.logged event clk p (-1)] else []), rfl, quiet_stamped ?_⟩
  cases sent <;> simp

theorem stamped_stop (clk : ℤ) (sent : Bool) (p : PCB) :
    ∃ rest, stamped clk (stopEffects clk sent p) = (clk, .signal .stop p) :: rest ∧
      Quiet rest := by
  refine ⟨stamped clk (if sent then [.logged .stopped clk p (-1),
    .progressBar (p.executionTime - p.remainingTime) p.executionTime] else []), rfl,
    quiet_stamped ?_⟩
  cases sent <;> simp

theorem quiet_retire (clk value : ℤ) (finished count : ℕ) (p : PCB) :
    Quiet (stamped clk (retireEffects clk finished count value p)) := by
  apply quiet_stamped
  unfold retireEffects
  split <;> simp

theorem quiet_grant (clk : ℤ) (p : PCB) : Quiet [(clk, .grant p)] := by
  intro e he
  rw [List.mem_singleton.mp he]
  exact ⟨rfl, rfl⟩

/-- The queue is what the history tells, and was served in order. -/
structure Cyclic (r : Rotation) : Prop where
  order : Fifo.InOrder entryOf dispatchOf RunsAs r.history
  queue : queued r.history = r.queue

/-- A process enters the queue. -/
theorem cyclic_enters (ho : Fifo.InOrder entryOf dispatchOf RunsAs h) {e : ℤ × Effect}
    (he : entryOf e = some p) {rest : List (ℤ × Effect)} (hrest : Quiet rest) :
    Fifo.InOrder entryOf dispatchOf RunsAs (h ++ e :: rest) ∧
      queued (h ++ e :: rest) = queued h ++ [p] := by
  have hno : dispatchOf e = none := (entry_or_dispatch e).resolve_left (by simp [he])
  have happ : h ++ e :: rest = h ++ [e] ++ rest := by simp
  have hone : Fifo.InOrder entryOf dispatchOf RunsAs (h ++ [e]) := ho.append_idle (by simp [hno])
  rw [happ, queued, Fifo.waiting_append_idle hrest, Fifo.waiting_join ho entry_or_dispatch he]
  exact ⟨hone.append_idle fun e he => (hrest e he).2, rfl⟩

/-- The front of the queue runs. -/
theorem cyclic_runs (clk : ℤ) {rest : List PCB} (ho : Fifo.InOrder entryOf dispatchOf RunsAs h)
    (hq : queued h = q :: rest) {post : List (ℤ × Effect)} (hpost : Quiet post) :
    Fifo.InOrder entryOf dispatchOf RunsAs (h ++ (clk, .signal .cont (q.dispatched clk)) :: post) ∧
      queued (h ++ (clk, .signal .cont (q.dispatched clk)) :: post) = rest := by
  have happ : h ++ (clk, .signal .cont (q.dispatched clk)) :: post =
      h ++ [(clk, .signal .cont (q.dispatched clk))] ++ post := by simp
  have hone : Fifo.InOrder entryOf dispatchOf RunsAs
      (h ++ [(clk, .signal .cont (q.dispatched clk))]) := by
    refine each_snoc.mpr ⟨ho, ?_⟩
    rintro d hd
    cases hd
    exact ⟨q, rest, hq, rfl⟩
  have hj : entryOf (clk, .signal .cont (q.dispatched clk)) = none := rfl
  have hl : dispatchOf (clk, .signal .cont (q.dispatched clk)) = some (clk, q.dispatched clk) := rfl
  rw [happ, queued, Fifo.waiting_append_idle hpost, Fifo.waiting_leave hj hl]
  refine ⟨hone.append_idle fun e he => (hpost e he).2, ?_⟩
  rw [← queued, hq, List.tail_cons]

theorem cyclic_rotates (hr : Cyclic r) (h : Rotates quantum ok r r') : Cyclic r' := by
  cases h with
  | reads p value hc => exact ⟨hr.order, hr.queue⟩
  | arrives p clk hp =>
    obtain ⟨ho, hq⟩ := cyclic_enters hr.order
      (e := (clk, .received { p with remainingTime := p.executionTime })) rfl quiet_nil
    exact ⟨ho, hq.trans (congrArg (· ++ [p.arrived]) hr.queue)⟩
  | runs q rest clk sent hc hq =>
    obtain ⟨post, heq, hpost⟩ := stamped_cont clk (dispatchEvent q) sent (q.dispatched clk)
    obtain ⟨ho, hrest⟩ := cyclic_runs clk hr.order (hr.queue.trans hq) hpost
    rw [heq]
    exact ⟨ho, hrest⟩
  | expires p clk value sent hc hne hslice =>
    obtain ⟨post, heq, hpost⟩ := stamped_stop clk sent (p.preempted clk value)
    obtain ⟨ho, hq⟩ := cyclic_enters hr.order
      (e := (clk, .signal .stop (p.preempted clk value))) rfl hpost
    rw [heq]
    exact ⟨ho, hq.trans (congrArg (· ++ [p.preempted clk value]) hr.queue)⟩
  | finishes p clk value finished count hc =>
    have hquiet := quiet_retire clk value finished count p
    exact ⟨hr.order.append_idle fun e he => (hquiet e he).2,
      (Fifo.waiting_append_idle hquiet).trans hr.queue⟩
  | grants p clk =>
    have hquiet := quiet_grant clk p
    exact ⟨hr.order.append_idle fun e he => (hquiet e he).2,
      (Fifo.waiting_append_idle hquiet).trans hr.queue⟩

/-- A process that is stopped has run for its quantum since it was started or resumed, no other
having run since, and another process is waiting. -/
def SliceOver (quantum : ℤ) (pre : List (ℤ × Effect)) (e : ℤ × Effect) : Prop :=
  ∀ p, e.2 = .signal .stop p → queued pre ≠ [] ∧
    ∃ d, (dispatches pre).getLast? = some d ∧ d.2.pid = p.pid ∧
      d.2.idFromFile = p.idFromFile ∧ quantum ≤ e.1 - d.1

/-- The slice of the current process began when it was last dispatched. -/
structure Sliced (quantum : ℤ) (r : Rotation) : Prop extends Cyclic r where
  slices : Each (SliceOver quantum) r.history
  latest : ∀ p, r.current = some p → ∃ d, (dispatches r.history).getLast? = some (r.sliceStart, d) ∧
    d.pid = p.pid ∧ d.idFromFile = p.idFromFile

theorem sliceOver_quiet (hh : Quiet h) : ∀ e ∈ h, ∀ pre, SliceOver quantum pre e := by
  rintro ⟨t, e⟩ he pre p rfl
  cases (hh _ he).1

theorem dispatches_quiet (pre : List (ℤ × Effect)) (hh : Quiet h) :
    dispatches (pre ++ h) = dispatches pre := by
  have hnil : h.filterMap dispatchOf = [] :=
    List.filterMap_eq_nil_iff.mpr fun e he => (hh e he).2
  rw [dispatches, List.filterMap_append, hnil, List.append_nil, ← dispatches]

theorem sliced_rotates (hr : Sliced quantum r) (h : Rotates quantum ok r r') :
    Sliced quantum r' := by
  have hcyclic := cyclic_rotates hr.toCyclic h
  cases h with
  | reads p value hc =>
    refine ⟨hcyclic, hr.slices, ?_⟩
    rintro q ⟨⟩
    exact hr.latest p hc
  | arrives p clk hp =>
    refine ⟨hcyclic, each_snoc.mpr ⟨hr.slices, fun q hq => by cases hq⟩, ?_⟩
    have hsame : dispatches (r.history ++
        [(clk, .received { p with remainingTime := p.executionTime })]) = dispatches r.history := by
      simp [dispatches, dispatchOf]
    intro q hq
    rw [hsame]
    exact hr.latest q hq
  | runs q rest clk sent hc hq =>
    obtain ⟨post, heq, hpost⟩ := stamped_cont clk (dispatchEvent q) sent (q.dispatched clk)
    rw [heq] at hcyclic ⊢
    have hquiet : ∀ e ∈ (clk, Effect.signal .cont (q.dispatched clk)) :: post, ∀ pre,
        SliceOver quantum pre e := by
      intro e he pre
      rcases List.mem_cons.mp he with rfl | he
      · intro p hp
        cases hp
      · exact sliceOver_quiet hpost e he pre
    refine ⟨hcyclic, hr.slices.append_of_forall hquiet, ?_⟩
    rintro p ⟨⟩
    refine ⟨q.dispatched clk, ?_, rfl, rfl⟩
    have hlast := dispatches_quiet (r.history ++ [(clk, .signal .cont (q.dispatched clk))]) hpost
    rw [List.append_assoc, List.singleton_append] at hlast
    rw [hlast]
    simp [dispatches, dispatchOf]
  | expires p clk value sent hc hne hslice =>
    obtain ⟨post, heq, hpost⟩ := stamped_stop clk sent (p.preempted clk value)
    rw [heq] at hcyclic ⊢
    obtain ⟨d, hlast, hpid, hid⟩ := hr.latest p hc
    have hover : SliceOver quantum r.history (clk, .signal .stop (p.preempted clk value)) := by
      rintro q ⟨⟩
      exact ⟨by rwa [hr.queue], (r.sliceStart, d), hlast, hpid, hid, hslice⟩
    refine ⟨hcyclic, ?_, fun q hq => by cases hq⟩
    have happ := (each_snoc.mpr ⟨hr.slices, hover⟩).append_of_forall (sliceOver_quiet hpost)
    rwa [List.append_assoc, List.singleton_append] at happ
  | finishes p clk value finished count hc =>
    have hquiet := quiet_retire clk value finished count p
    exact ⟨hcyclic, hr.slices.append_of_forall (sliceOver_quiet hquiet), fun q hq => by cases hq⟩
  | grants p clk =>
    have hquiet := quiet_grant clk p
    refine ⟨hcyclic, hr.slices.append_of_forall (sliceOver_quiet hquiet), ?_⟩
    intro q hq
    rw [dispatches_quiet _ hquiet]
    exact hr.latest q hq

/-- At the end of a call of `run_RR_Algorithm`. -/
def WithinSlice (quantum : ℤ) (s : Scheduler) : Prop :=
  ∀ p, s.current = some p → s.rrQueue.toList ≠ [] →
    s.clockValue - s.timeSliceStart < quantum ∨ p.remainingTime = 0

/-- A context switch away from a process begins a slice, or finds the process finished. -/
theorem contextSwitching_withinSlice {s : Scheduler} (hs : Sound s) (hc : s.current ≠ none)
    (hq : 1 ≤ s.quantum) : WithinSlice s.quantum s.contextSwitching := by
  obtain ⟨hb, -, hturn⟩ := contextSwitching_turn hs
  intro p hp _
  cases hturn with
  | kept q _ hc' =>
    rw [hc', Option.some.injEq] at hp
    right
    rw [← hp]
  | idle hidle => exact absurd hidle hc
  | dispatched q hidle => exact absurd hidle hc
  | replaced q' q value queued _ _ _ _ _ _ hcharges =>
    left
    rw [hb.clockValue, hcharges.timeSliceStart]
    omega

theorem runRR_withinSlice {s : Scheduler} (hs : Sound s) (ha : s.algorithm = .RR)
    (hq : 1 ≤ s.quantum) : WithinSlice s.quantum s.runRRAlgorithm := by
  have hfill := gentles_moves (fillCpu_gentle hs)
  have hsound := moves_sound hs hfill
  have hread := updateCurrent_moves hsound
  have hbooks := (moves_books hfill).trans (moves_books hread)
  have halg := hbooks.algorithm.trans ha
  rw [runRRAlgorithm_eq]
  split
  · rename_i hc
    intro p hp
    rw [current_eq_none.mpr hc] at hp
    cases hp
  · rename_i hc
    rw [← hbooks.quantum] at hq ⊢
    split
    · have hcur : s.fillCpu.updateCurrent.current ≠ none :=
        moves_current hread (current_eq_none.not.mpr hc)
      exact contextSwitching_withinSlice (moves_sound hsound hread) hcur hq
    · rename_i hslice
      intro p _ hne
      rw [← ready_RR halg] at hne
      have hpos := (rrQueue_size_pos halg).mpr hne
      left
      by_contra hlt
      exact hslice ⟨not_lt.mp hlt, hpos⟩

variable {w w' : Timeline} {a : LoopAct}

/-- The steps of a run with its history. -/
abbrev TimelineRun (ok : Loop → LoopAct → Prop) : Timeline → LoopAct → Timeline → Prop :=
  Restrict (fun w => ok w.loop) TimelineStep

structure Rotating (quantum : ℤ) (w : Timeline) : Prop where
  configured : Configured .RR quantum w.loop.scheduler
  sliced : Sliced quantum w.rotation

theorem sliced_run (hr : Sliced quantum r) (h : ReflTransGen (Rotates quantum ok) r r') :
    Sliced quantum r' := by
  induction h with
  | refl => exact hr
  | tail _ hstep ih => exact sliced_rotates ih hstep

theorem rotating_step (hw : Rotating quantum w) (h : TimelineRun SemidsValid w a w') :
    Rotating quantum w' := by
  obtain ⟨hok, hstep⟩ := h
  have hc := hw.configured
  refine ⟨(configured_preserved .RR quantum).step hc ?_ hstep.step, ?_⟩
  · rintro p i rfl
    exact hok
  · have hrun := @timeline_rotates _ _ _ (fun _ _ => True) hc.toSound hc.algorithm_eq hok
      (fun _ _ _ _ => trivial) hstep
    rw [hc.quantum_eq] at hrun
    exact sliced_run hw.sliced hrun

theorem rotating_initial (quantum clk : ℤ) : Rotating quantum (Timeline.initial .RR quantum clk) where
  configured := ⟨sound_initial .RR quantum clk, rfl, rfl⟩
  sliced := ⟨⟨each_nil, rfl⟩, each_nil, fun p hp => by cases hp⟩

/-- The quantum law: at the end of every call of `run_RR_Algorithm` the slice of the current process
is not over, or no other process waits, or it has no time left; and no process is stopped before its
slice is over, or while none waits. -/
theorem quantumLaw (quantum clk : ℤ) (hq : 1 ≤ quantum) (as : List LoopAct) :
    (∀ pre a w w', pre ++ [a] <+: as →
        Trace (TimelineRun SemidsValid) (Timeline.initial .RR quantum clk) pre w →
        TimelineRun SemidsValid w a w' → w.loop.point = .runAlgorithm → w'.loop.point = .grant →
        WithinSlice quantum w'.loop.scheduler) ∧
      Always (TimelineRun SemidsValid) (Timeline.initial .RR quantum clk) as fun w =>
        Each (SliceOver quantum) w.history ∧
          queued w.history = w.loop.scheduler.rrQueue.toList := by
  have hinv : ∀ pre w, Trace (TimelineRun SemidsValid) (Timeline.initial .RR quantum clk) pre w →
      Rotating quantum w := fun pre w ht =>
    ht.invariant (fun _ _ _ hw hstep => rotating_step hw hstep) (rotating_initial quantum clk)
  constructor
  · intro pre a w w' _ ht hstep hp hp'
    have hc := (hinv pre w ht).configured
    obtain ⟨-, ⟨hstep, -⟩⟩ := hstep
    obtain ⟨l, history⟩ := w
    obtain ⟨l', history'⟩ := w'
    dsimp only at hc hp hp' hstep ⊢
    cases hstep with
    | @runAlgorithm i _ =>
      have hrun : (l.scheduler.feed i).runAlgorithm = (l.scheduler.feed i).runRRAlgorithm := by
        simp only [Scheduler.runAlgorithm, Scheduler.feed, hc.algorithm_eq]
      have hquantum : (l.scheduler.feed i).quantum = quantum := hc.quantum_eq
      have hwithin := runRR_withinSlice (hc.toSound.feed i) hc.algorithm_eq (hquantum.symm ▸ hq)
      rw [hquantum] at hwithin
      dsimp only
      rwa [hrun]
    | _ => simp_all [Loop.complete]
  · intro pre w _ ht
    have hw := hinv pre w ht
    refine ⟨hw.sliced.slices, hw.sliced.queue.trans ?_⟩
    exact ready_RR hw.configured.algorithm_eq

/-- The first of two processes has run for two ticks when the algorithm is called again. -/
def sliceOverRun : List LoopAct :=
  [.advance {}, .downNb true,
    .receive { emptyFront with pid := 1, syncSemid := 1, executionTime := 3 } {},
    .receive { emptyFront with pid := 2, syncSemid := 2, executionTime := 3 } {}, .noMessage] ++
  List.replicate 6 (.advance {}) ++
  [.tick, .tick, .advance {}, .advance {}, .downNb true, .noMessage] ++
  List.replicate 3 (.advance {})

/-- The call stops the first process and dispatches the second. -/
theorem quantumLaw_two : ∃ w w',
    ((queued w.history).map PCB.pid = [2] ∧ (queued w'.history).map PCB.pid = [1]) ∧
      Trace (TimelineRun SemidsValid) (Timeline.initial .RR 2 0) sliceOverRun w ∧
      TimelineRun SemidsValid w (.advance ⟨[some 1], []⟩) w' ∧
      WithinSlice 2 w'.loop.scheduler ∧ Each (SliceOver 2) w'.history ∧
      queued w'.history = w'.loop.scheduler.rrQueue.toList := by
  obtain ⟨w, hw, htest⟩ := exists_trace_of_execute (fun _ _ _ => timelineStep_of_next)
    (show (execute (fun w => SemidsValid w.loop) Timeline.next (Timeline.initial .RR 2 0)
      sliceOverRun).any (fun w => (w.next (.advance ⟨[some 1], []⟩)).any fun w' =>
        ((queued w.history).map PCB.pid = [2] ∧ (queued w'.history).map PCB.pid = [1]) ∧
          w.loop.point = .runAlgorithm ∧ w'.loop.point = .grant) = true by decide +kernel)
  obtain ⟨w', hw', htest⟩ := (Option.any_eq_true _ _).mp htest
  obtain ⟨hqueued, hp, hp'⟩ := of_decide_eq_true htest
  have hstep : TimelineRun SemidsValid w (.advance ⟨[some 1], []⟩) w' :=
    ⟨trivial, timelineStep_of_next hw'⟩
  obtain ⟨hwithin, hall⟩ := quantumLaw 2 0 (by decide) (sliceOverRun ++ [.advance ⟨[some 1], []⟩])
  exact ⟨w, w', hqueued, hw, hstep, hwithin _ _ w w' (List.prefix_refl _) hw hstep hp hp',
    hall _ w' (List.prefix_refl _) (hw.snoc hstep)⟩

/-- When a process has entered the queue behind others, the next dispatches are theirs and then its
own, each with what the PCB held in the queue. -/
def TurnsKept (h : List (ℤ × Effect)) : Prop :=
  ∀ pre e post p, h = pre ++ e :: post → entryOf e = some p →
    List.Forall₂ RunsAs ((queued pre ++ [p]).take (dispatches post).length)
      ((dispatches post).take (queued pre ++ [p]).length)

/-- No process is dispatched twice while another waits in the queue throughout. -/
def NoneTwice (h : List (ℤ × Effect)) : Prop :=
  ∀ pre mid post p, h = pre ++ mid ++ post → p ∈ queued pre →
    (∀ d ∈ dispatches mid, d.2.pid ≠ p.pid) → ((dispatches mid).map fun d => d.2.pid).Nodup

/-- Messages about processes with a pid that no unfinished process has. -/
def PidsNew (l : Loop) : LoopAct → Prop
  | .receive p _ => 0 < p.syncSemid ∧ p.pid ∉ l.scheduler.held.map PCB.pid
  | _ => True

def Rotation.pids (r : Rotation) : List ℤ := (r.current.toList ++ r.queue).map PCB.pid

/-- At every moment the pids of the unfinished processes are distinct. -/
structure Distinct (r : Rotation) : Prop extends Cyclic r where
  now : r.pids.Nodup
  always : ∀ pre, pre <+: r.history → ((queued pre).map PCB.pid).Nodup

theorem prefixes_quiet {pre : List (ℤ × Effect)} (hh : Quiet h)
    (hpre : ∀ b, b <+: pre → ((queued b).map PCB.pid).Nodup) :
    ∀ b, b <+: pre ++ h → ((queued b).map PCB.pid).Nodup :=
  Fifo.forall_prefix_idle (P := fun l => (l.map PCB.pid).Nodup) hh hpre

theorem distinct_rotates (hr : Distinct r) (h : Rotates quantum (fun r p => p.pid ∉ r.pids) r r') :
    Distinct r' := by
  have hcyclic := cyclic_rotates hr.toCyclic h
  have hnow := hr.now
  cases h with
  | reads p value hc =>
    refine ⟨hcyclic, ?_, hr.always⟩
    simpa [Rotation.pids, hc] using hnow
  | arrives p clk hp =>
    have hnow' : (r.pids ++ [p.pid]).Nodup := by
      rw [List.nodup_append_comm]
      exact List.nodup_cons.mpr ⟨hp, hnow⟩
    refine ⟨hcyclic, by simpa [Rotation.pids, PCB.arrived] using hnow', ?_⟩
    refine Fifo.forall_prefix_snoc (P := fun l => (l.map PCB.pid).Nodup) hr.always ?_
    rw [← queued, hcyclic.queue]
    refine hnow'.sublist ?_
    simp [Rotation.pids, PCB.arrived]
  | runs q rest clk sent hc hq =>
    obtain ⟨post, heq, hpost⟩ := stamped_cont clk (dispatchEvent q) sent (q.dispatched clk)
    rw [heq] at hcyclic ⊢
    have hpids : r.pids = q.pid :: rest.map PCB.pid := by simp [Rotation.pids, hc, hq]
    rw [hpids] at hnow
    refine ⟨hcyclic, by simpa [Rotation.pids] using hnow, ?_⟩
    have hone := (cyclic_runs clk hr.order (hr.queue.trans hq) quiet_nil).2
    have hall := prefixes_quiet hpost
      (Fifo.forall_prefix_snoc (P := fun l => (l.map PCB.pid).Nodup) hr.always
        (by rw [← queued, hone]; exact (List.nodup_cons.mp hnow).2))
    rwa [List.append_assoc, List.singleton_append] at hall
  | expires p clk value sent hc hne hslice =>
    obtain ⟨post, heq, hpost⟩ := stamped_stop clk sent (p.preempted clk value)
    rw [heq] at hcyclic ⊢
    have hpids : r.pids = p.pid :: r.queue.map PCB.pid := by simp [Rotation.pids, hc]
    have hnow' : (r.queue.map PCB.pid ++ [p.pid]).Nodup := by
      rw [List.nodup_append_comm, List.singleton_append, ← hpids]
      exact hnow
    refine ⟨hcyclic, by simpa [Rotation.pids, PCB.preempted] using hnow', ?_⟩
    have hone := (cyclic_enters hr.order
      (e := (clk, .signal .stop (p.preempted clk value))) rfl quiet_nil).2
    have hall := prefixes_quiet hpost
      (Fifo.forall_prefix_snoc (P := fun l => (l.map PCB.pid).Nodup) hr.always
        (by rw [← queued, hone, hr.queue]; simpa [PCB.preempted] using hnow'))
    rwa [List.append_assoc, List.singleton_append] at hall
  | finishes p clk value finished count hc =>
    have hpids : r.pids = p.pid :: r.queue.map PCB.pid := by simp [Rotation.pids, hc]
    rw [hpids] at hnow
    exact ⟨hcyclic, by simpa [Rotation.pids] using (List.nodup_cons.mp hnow).2,
      prefixes_quiet (quiet_retire clk value finished count p) hr.always⟩
  | grants p clk => exact ⟨hcyclic, hnow, prefixes_quiet (quiet_grant clk p) hr.always⟩

theorem distinct_run (hr : Distinct r)
    (h : ReflTransGen (Rotates quantum fun r p => p.pid ∉ r.pids) r r') : Distinct r' := by
  induction h with
  | refl => exact hr
  | tail _ hstep ih => exact distinct_rotates ih hstep

structure Undoubled (quantum : ℤ) (w : Timeline) : Prop where
  configured : Configured .RR quantum w.loop.scheduler
  distinct : Distinct w.rotation

theorem undoubled_step (hw : Undoubled quantum w) (h : TimelineRun PidsNew w a w') :
    Undoubled quantum w' := by
  obtain ⟨hok, hstep⟩ := h
  have hc := hw.configured
  have hsem : SemidsValid w.loop a := by
    cases a with
    | receive p i => exact hok.1
    | _ => trivial
  refine ⟨(configured_preserved .RR quantum).step hc ?_ hstep.step, ?_⟩
  · rintro p i rfl
    exact hok.1
  · have hrun := @timeline_rotates _ _ _ (fun r p => p.pid ∉ r.pids) hc.toSound hc.algorithm_eq hsem
      (by rintro p i rfl _; exact hok.2) hstep
    rw [hc.quantum_eq] at hrun
    exact distinct_run hw.distinct hrun

/-- Cyclic order: processes are dispatched in the order in which they entered the queue, which is
what `rr_queue` holds, and none twice while another waits. -/
theorem cyclicOrder_always (quantum clk : ℤ) (as : List LoopAct) :
    Always (TimelineRun SemidsValid) (Timeline.initial .RR quantum clk) as (fun w =>
        queued w.history = w.loop.scheduler.rrQueue.toList ∧ TurnsKept w.history) ∧
      Always (TimelineRun PidsNew) (Timeline.initial .RR quantum clk) as fun w => NoneTwice w.history := by
  constructor
  · intro pre w _ ht
    have hw := ht.invariant (P := Rotating quantum) (fun _ _ _ hw hstep => rotating_step hw hstep)
      (rotating_initial quantum clk)
    refine ⟨hw.sliced.queue.trans (ready_RR hw.configured.algorithm_eq), ?_⟩
    intro pre e post p heq he
    have ho := hw.sliced.order
    rw [show w.rotation.history = pre ++ e :: post from heq] at ho
    exact ho.turn entry_or_dispatch he
  · intro pre w _ ht
    have hw := ht.invariant (P := Undoubled quantum) (fun _ _ _ hw hstep => undoubled_step hw hstep)
      ⟨(rotating_initial quantum clk).configured, (rotating_initial quantum clk).sliced.toCyclic,
        List.nodup_nil, fun pre hp => by rw [List.prefix_nil.mp hp]; exact List.nodup_nil⟩
    intro pre mid post p heq hp hstays
    have ho : Fifo.InOrder entryOf dispatchOf RunsAs (pre ++ mid ++ post) :=
      heq ▸ hw.distinct.order
    have hmid : Fifo.InOrder entryOf dispatchOf RunsAs (pre ++ mid) := ho.of_append
    have hkey : ∀ q d, RunsAs q d → d.2.pid = q.pid := by
      rintro q d hd
      rw [hd, PCB.dispatched_pid]
    have hpre : pre <+: w.history := by
      rw [heq, List.append_assoc]
      exact List.prefix_append _ _
    exact hmid.nodup entry_or_dispatch hkey (hw.distinct.always pre hpre) hp hstays

end KernelSim
