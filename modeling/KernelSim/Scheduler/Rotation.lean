import KernelSim.Library.Fifo
import KernelSim.Scheduler.Preemption

/-! Round robin as a rotation of processes through a queue, which the scheduler's runs follow. -/
namespace KernelSim
open Runs Relation Histories Scheduler

/-- The scheduler in its loop, with each of its effects and the time on its clock at that moment. -/
structure Timeline where
  loop : Loop
  history : List (ℤ × Effect)

/-- The value of `clockValue` during a step. -/
def Loop.stamp (l : Loop) : LoopAct → ℤ
  | .sigusr2 _ => l.clock
  | _ => l.scheduler.clockValue

/-- What a step of the loop from `l` to `l'` has done. -/
def Loop.done (l l' : Loop) : List Effect := l'.scheduler.trace.drop l.scheduler.trace.length

/-- A step of the loop, with its effects recorded. -/
structure TimelineStep (w : Timeline) (a : LoopAct) (w' : Timeline) : Prop where
  step : LoopStep w.loop a w'.loop
  history : w'.history = w.history ++ (w.loop.done w'.loop).map fun e => (w.loop.stamp a, e)

def Timeline.initial (algorithm : SchedulingAlgorithm) (quantum clk : ℤ) : Timeline :=
  { loop := .initial algorithm quantum clk, history := [] }

def Timeline.next (w : Timeline) (a : LoopAct) : Option Timeline :=
  (w.loop.next a).map fun l =>
    { loop := l, history := w.history ++ (w.loop.done l).map fun e => (w.loop.stamp a, e) }

theorem timelineStep_of_next {w w' : Timeline} {a : LoopAct} (h : w.next a = some w') :
    TimelineStep w a w' := by
  obtain ⟨l, hl, rfl⟩ := Option.map_eq_some_iff.mp h
  exact ⟨loopStep_of_next hl, rfl⟩

/-- The dispatches in a history: when, and the PCB of the process started or resumed. -/
def dispatchOf : ℤ × Effect → Option (ℤ × PCB)
  | (t, .signal .cont p) => some (t, p)
  | _ => none

def dispatches (h : List (ℤ × Effect)) : List (ℤ × PCB) := h.filterMap dispatchOf

/-- The processes that enter the ready queue: those that arrive and those preempted. -/
def entryOf : ℤ × Effect → Option PCB
  | (_, .received p) => some p.arrived
  | (_, .signal .stop p) => some p
  | _ => none

/-- The ready queue, as the history tells it. -/
def queued (h : List (ℤ × Effect)) : List PCB := Fifo.waiting entryOf dispatchOf h

/-- A round robin scheduler, seen from outside. -/
structure Rotation where
  current : Option PCB
  queue : List PCB
  sliceStart : ℤ
  history : List (ℤ × Effect)

/-- Effects at one time. -/
def stamped (clk : ℤ) (es : List Effect) : List (ℤ × Effect) := es.map fun e => (clk, e)

/-- What can happen in round robin. -/
inductive Rotates (quantum : ℤ) (ok : Rotation → PCB → Prop) (r : Rotation) : Rotation → Prop
  | reads (p : PCB) (value : ℤ) (hc : r.current = some p) :
      Rotates quantum ok r { r with current := some { p with remainingTime := value } }
  | arrives (p : PCB) (clk : ℤ) (hp : ok r p) :
      Rotates quantum ok r { r with
        queue := r.queue ++ [p.arrived]
        history := r.history ++ [(clk, .received { p with remainingTime := p.executionTime })] }
  /-- the front of the queue runs -/
  | runs (q : PCB) (rest : List PCB) (clk : ℤ) (sent : Bool) (hc : r.current = none)
      (hq : r.queue = q :: rest) :
      Rotates quantum ok r
        { current := some (q.dispatched clk)
          queue := rest
          sliceStart := clk
          history := r.history ++
            stamped clk (contEffects (dispatchEvent q) clk sent (q.dispatched clk)) }
  /-- the slice of the current process is over, and another process is waiting -/
  | expires (p : PCB) (clk value : ℤ) (sent : Bool) (hc : r.current = some p)
      (hne : r.queue ≠ []) (hslice : quantum ≤ clk - r.sliceStart) :
      Rotates quantum ok r
        { current := none
          queue := r.queue ++ [p.preempted clk value]
          sliceStart := r.sliceStart
          history := r.history ++
            stamped clk (stopEffects clk sent (p.preempted clk value)) }
  | finishes (p : PCB) (clk value : ℤ) (finished count : ℕ) (hc : r.current = some p) :
      Rotates quantum ok r { r with
        current := none
        history := r.history ++
          stamped clk (retireEffects clk finished count value p) }
  | grants (p : PCB) (clk : ℤ) :
      Rotates quantum ok r { r with history := r.history ++ [(clk, .grant p)] }

namespace Scheduler

variable {s s' t : Scheduler} {p : PCB} {process : ℕ} {ok : Rotation → PCB → Prop}

def rotation (s : Scheduler) (h : List (ℤ × Effect)) : Rotation :=
  { current := s.current, queue := s.ready, sliceStart := s.timeSliceStart, history := h }

/-- What the scheduler does between `s` and `s'`, at one time, a rotation can do. -/
def Follows (ok : Rotation → PCB → Prop) (s s' : Scheduler) : Prop :=
  ∃ es, s'.trace = s.trace ++ es ∧ ∀ h, ReflTransGen (Rotates s.quantum ok) (s.rotation h)
    (s'.rotation (h ++ stamped s.clockValue es))

theorem Follows.refl (s : Scheduler) : Follows ok s s :=
  ⟨[], by simp, fun h => by simpa [stamped] using ReflTransGen.refl⟩

theorem Follows.trans (hb : SameBooks s t) (h : Follows ok s t) (h' : Follows ok t s') :
    Follows ok s s' := by
  obtain ⟨es, ht, hrun⟩ := h
  obtain ⟨fs, ht', hrun'⟩ := h'
  refine ⟨es ++ fs, by rw [ht', ht, List.append_assoc], fun h => ?_⟩
  have hnext := hrun' (h ++ stamped s.clockValue es)
  rw [hb.quantum, hb.clockValue] at hnext
  have heq : h ++ stamped s.clockValue (es ++ fs) =
      h ++ stamped s.clockValue es ++ stamped s.clockValue fs := by simp [stamped]
  rw [heq]
  exact (hrun h).trans hnext

/-- Nothing seen from outside happens. -/
theorem follows_of_same (hc : s'.current = s.current) (hr : s'.ready = s.ready)
    (hts : s'.timeSliceStart = s.timeSliceStart) (ht : s'.trace = s.trace) : Follows ok s s' := by
  refine ⟨[], by simp [ht], fun h => ?_⟩
  have heq : s'.rotation (h ++ stamped s.clockValue []) = s.rotation h := by
    simp [rotation, stamped, hc, hr, hts]
  rw [heq]

theorem follows_read (hs : Sound s) (hc : s.currentProcess = some process) :
    Follows ok s (s.updateProcessRemainingTime process) := by
  have hread := updateProcessRemainingTime_reread hs hc
  obtain ⟨htimes, -⟩ := updateProcessRemainingTime_times s process
  rcases hread.current with heq | ⟨p, value, hcur, heq⟩
  · exact follows_of_same heq hread.ready htimes.timeSliceStart hread.trace
  · refine ⟨[], by simp [hread.trace], fun h => .single ?_⟩
    have hstep : Rotates s.quantum ok (s.rotation h) _ := .reads p value hcur
    simpa [rotation, stamped, heq, hread.ready, htimes.timeSliceStart] using hstep

/-- A context switch, where a process that is current has used up its slice. -/
theorem follows_switch (hs : Sound s) (ha : s.algorithm = .RR)
    (hslice : s.current ≠ none →
      s.ready ≠ [] ∧ s.quantum ≤ s.clockValue - s.timeSliceStart) :
    Follows ok s s.contextSwitching := by
  obtain ⟨-, -, hturn⟩ := contextSwitching_turn hs
  cases hturn with
  | kept p hc hc' hr ht _ htimes =>
    refine ⟨[], by simp [ht], fun h => .single ?_⟩
    have hstep : Rotates s.quantum ok (s.rotation h) _ := .reads p 0 hc
    simpa [rotation, stamped, hc', hr, htimes.timeSliceStart] using hstep
  | idle hc hr hc' hr' ht _ htimes =>
    exact follows_of_same (hc'.trans hc.symm) (hr'.trans hr.symm) htimes.timeSliceStart ht
  | dispatched q hc hq hc' ht _ hcharges =>
    refine ⟨_, ht, fun h => .single ?_⟩
    have hstep : Rotates s.quantum ok (s.rotation h) _ :=
      .runs q s.contextSwitching.ready s.clockValue (s.kills.headD true) hc (hq.front ha)
    simpa [rotation, hc', hcharges.timeSliceStart] using hstep
  | replaced p q value queued hc hp hq hc' ht _ hcharges =>
    obtain ⟨hne, hle⟩ := hslice (by simp [hc])
    rw [List.append_assoc] at ht
    refine ⟨_, ht, fun h => ?_⟩
    have hstop : Rotates s.quantum ok (s.rotation h) _ :=
      .expires p s.clockValue value (s.kills.headD true) hc hne hle
    have hqueue := hq.front ha
    rw [hp.back ha] at hqueue
    refine (ReflTransGen.single hstop).tail ?_
    have hcont : Rotates s.quantum ok
        { current := none
          queue := s.ready ++ [p.preempted s.clockValue value]
          sliceStart := s.timeSliceStart
          history := h ++ stamped s.clockValue (stopEffects s.clockValue (s.kills.headD true)
            (p.preempted s.clockValue value)) } _ :=
      .runs q s.contextSwitching.ready s.clockValue (s.kills.tail.headD true) rfl hqueue
    simpa [rotation, stamped, hc', hcharges.timeSliceStart] using hcont

theorem follows_arrival (hs : Sound s) (ha : s.algorithm = .RR) (hsem : 0 < p.syncSemid)
    (hok : ∀ h, ok (s.rotation h) p) : Follows ok s (s.handleProcessArrival p) := by
  obtain ⟨-, -, hc, -, -, ht⟩ := handleProcessArrival_spec hs hsem
  have hback := handleProcessArrival_back hs hsem ha
  obtain ⟨htimes, -⟩ := handleProcessArrival_times s p
  refine ⟨_, ht, fun h => .single ?_⟩
  have hstep : Rotates s.quantum ok (s.rotation h) _ := .arrives p s.clockValue (hok h)
  simpa [rotation, stamped, hc, hback, htimes.timeSliceStart] using hstep

theorem follows_retire (hs : Sound s) (hc : s.currentProcess = some process) :
    Follows ok s (s.retire process) := by
  obtain ⟨value, -, -, hnone, hr, ht⟩ := retire_spec hs hc
  obtain ⟨htimes, -⟩ := retire_times s process
  refine ⟨_, ht, fun h => .single ?_⟩
  have hstep : Rotates s.quantum ok (s.rotation h) _ :=
    .finishes _ s.clockValue value (s.finishedProcesses + 1) s.processCount (current_some hc)
  simpa [rotation, stamped, current_eq_none.mpr hnone, hr, htimes.timeSliceStart] using hstep

theorem follows_grant (s : Scheduler) : Follows ok s s.grantTick := by
  unfold grantTick
  split
  · exact .refl s
  · rename_i process hc
    refine ⟨[.grant (s.pcbs process)], rfl, fun h => .single ?_⟩
    have hstep : Rotates s.quantum ok (s.rotation h) _ := .grants (s.pcbs process) s.clockValue
    exact hstep

theorem follows_receive (hs : Sound s) (ha : s.algorithm = .RR) (hsem : 0 < p.syncSemid)
    (hok : ∀ h, ok (s.rotation h) p) : Follows ok s (s.receiveMessage p) := by
  obtain ⟨es, ht, hrun⟩ := follows_arrival hs ha hsem hok
  have hnever : s.algorithm ≠ .SRTN := by simp [ha]
  obtain ⟨_, heq⟩ := forgetTick_eq (s.handleProcessArrival p)
  rw [receiveMessage_of_ne_SRTN hnever, heq]
  exact ⟨es, ht, hrun⟩

theorem follows_complete (hs : Sound s) (ha : s.algorithm = .RR) :
    Follows ok s s.completeCurrent := by
  have hnever : s.algorithm ≠ .SRTN := by simp [ha]
  rcases Option.eq_none_or_eq_some s.currentProcess with hc | ⟨process, hc⟩
  · rw [completeCurrent_none hc]
    exact .refl s
  · rw [completeCurrent_of_ne_SRTN hnever hc]
    exact follows_retire hs hc

theorem updateCurrent_follows (hs : Sound s) : Follows ok s s.updateCurrent := by
  unfold updateCurrent
  split
  · exact .refl s
  · rename_i process hc
    exact follows_read hs hc

theorem fillCpu_follows (hs : Sound s) (ha : s.algorithm = .RR) : Follows ok s s.fillCpu := by
  unfold fillCpu
  split
  · rename_i hidle
    exact follows_switch hs ha (absurd (current_eq_none.mpr hidle.1))
  · exact .refl s

theorem runRR_follows (hs : Sound s) (ha : s.algorithm = .RR) :
    Follows ok s s.runRRAlgorithm := by
  have hfill := gentles_moves (fillCpu_gentle hs)
  have hsound := moves_sound hs hfill
  have hread := updateCurrent_moves hsound
  have hbooks := (moves_books hfill).trans (moves_books hread)
  have halg := hbooks.algorithm.trans ha
  have hfirst : Follows ok s s.fillCpu := fillCpu_follows hs ha
  have hsecond : Follows ok s s.fillCpu.updateCurrent :=
    hfirst.trans (moves_books hfill) (updateCurrent_follows hsound)
  rw [runRRAlgorithm_eq]
  split
  · exact hfirst
  · split
    · rename_i hslice
      refine hsecond.trans hbooks (follows_switch (moves_sound hsound hread) halg fun _ => ?_)
      exact ⟨(rrQueue_size_pos halg).mp hslice.2, hslice.1⟩
    · exact hsecond

end Scheduler

def Timeline.rotation (w : Timeline) : Rotation := w.loop.scheduler.rotation w.history

variable {w w' : Timeline} {a : LoopAct} {ok : Rotation → PCB → Prop}

/-- The effects that a step adds are recorded with its time. -/
theorem TimelineStep.follows {s : Scheduler} (h : TimelineStep w a w')
    (ht : s.trace = w.loop.scheduler.trace) (hq : s.quantum = w.loop.scheduler.quantum)
    (hclk : s.clockValue = w.loop.stamp a) (hr : ∀ h, s.rotation h = w.loop.scheduler.rotation h)
    (hf : Follows ok s w'.loop.scheduler) :
    ReflTransGen (Rotates w.loop.scheduler.quantum ok) w.rotation w'.rotation := by
  obtain ⟨es, htr, hrun⟩ := hf
  have hdone : w.loop.done w'.loop = es := by
    rw [Loop.done, htr, ht, List.drop_left]
  have hnext := hrun w.history
  rw [hq, hr, hclk] at hnext
  rw [Timeline.rotation, Timeline.rotation, h.history, hdone]
  exact hnext

/-- A step of the loop is a few steps of the rotation. -/
theorem timeline_rotates (hs : Sound w.loop.scheduler) (ha : w.loop.scheduler.algorithm = .RR)
    (hsem : SemidsValid w.loop a) (hok : ∀ p i, a = .receive p i → ∀ h,
      ok (w.loop.scheduler.rotation h) p) (h : TimelineStep w a w') :
    ReflTransGen (Rotates w.loop.scheduler.quantum ok) w.rotation w'.rotation := by
  obtain ⟨l, history⟩ := w
  obtain ⟨l', history'⟩ := w'
  have hstep := h.step
  dsimp only at hs ha hsem hok hstep
  cases hstep with
  | sigusr1 hp =>
    exact h.follows rfl rfl rfl (fun _ => rfl) (follows_of_same rfl rfl rfl rfl)
  | @sigusr2 i hp =>
    have hclk := (hs.feed i).withClock l.clock
    exact h.follows (s := { l.scheduler.feed i with clockValue := l.clock }) rfl rfl rfl
      (fun _ => rfl) (follows_complete hclk ha)
  | @receive p i hp =>
    exact h.follows (s := l.scheduler.feed i) rfl rfl rfl (fun _ => rfl)
      (follows_receive (hs.feed i) ha hsem (hok p i rfl))
  | assign hp =>
    exact h.follows rfl rfl rfl (fun _ => rfl) (follows_of_same rfl rfl rfl rfl)
  | @runAlgorithm i hp =>
    have hrun : (l.scheduler.feed i).runAlgorithm = (l.scheduler.feed i).runRRAlgorithm := by
      simp only [Scheduler.runAlgorithm, Scheduler.feed, ha]
    refine h.follows (s := l.scheduler.feed i) rfl rfl rfl (fun _ => rfl) ?_
    dsimp only
    rw [hrun]
    exact runRR_follows (hs.feed i) ha
  | grant hp => exact h.follows rfl rfl rfl (fun _ => rfl) (follows_grant l.scheduler)
  | @refresh i hp =>
    exact h.follows (s := l.scheduler.feed i) rfl rfl rfl (fun _ => rfl)
      (updateCurrent_follows (hs.feed i))
  | _ => exact h.follows rfl rfl rfl (fun _ => rfl) (.refl _)

end KernelSim
