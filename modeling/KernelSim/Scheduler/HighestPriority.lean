import KernelSim.Library.Histories
import KernelSim.Scheduler.Conservation
import KernelSim.Scheduler.HeapOrder

/-! HPF never takes the CPU away, and always gives it to a process of the highest priority. -/
namespace KernelSim
open Runs Histories

/-- What a process keeps from its message to its end. -/
def PCB.card (p : PCB) : ℤ × ℤ × ℤ := (p.idFromFile, p.pid, p.priority)

def Effect.arrival : Effect → Option (ℤ × ℤ × ℤ)
  | .received p => some p.card
  | _ => none

def Effect.dispatch : Effect → Option (ℤ × ℤ × ℤ)
  | .signal .cont p => some p.card
  | _ => none

/-- A dispatch goes to a process whose priority value is beaten by none that has been received more
often than dispatched. -/
def DispatchesHighest (before : List Effect) (e : Effect) : Prop :=
  ∀ p, e = .signal .cont p → ∀ q : PCB,
    (before.filterMap Effect.dispatch).count q.card <
      (before.filterMap Effect.arrival).count q.card → p.priority ≤ q.priority

/-- An effect that neither reports an arrival nor dispatches. -/
def Effect.Quiet : Effect → Prop
  | .received _ => False
  | .signal .cont _ => False
  | _ => True

namespace Scheduler

variable {s s' : Scheduler} {p : PCB} {process : ℕ} {es : List Effect}

/-- The processes received are those that were dispatched and those that are ready. -/
def KeepsUndispatched (s : Scheduler) : Prop :=
  (s.trace.filterMap Effect.dispatch ++ s.ready.map PCB.card).Perm
    (s.trace.filterMap Effect.arrival)

structure Prioritised (s : Scheduler) : Prop extends Sound s where
  algorithm : s.algorithm = .HPF
  inRange : ∀ p ∈ s.ready, s.algorithm.InRange p
  ordered : KeyOrdered s
  undispatched : KeepsUndispatched s
  highest : Each DispatchesHighest s.trace

theorem Prioritised.notRR (hs : Prioritised s) : s.algorithm ≠ .RR := by simp [hs.algorithm]

theorem PCB.card_dispatched (clk : ℤ) (p : PCB) : (p.dispatched clk).card = p.card := by
  unfold PCB.dispatched
  split <;> rfl

/-- One that is still to be dispatched is ready. -/
theorem KeepsUndispatched.mem (h : KeepsUndispatched s) {q : PCB}
    (hq : (s.trace.filterMap Effect.dispatch).count q.card <
      (s.trace.filterMap Effect.arrival).count q.card) :
    ∃ p ∈ s.ready, p.priority = q.priority := by
  have hcount := h.count_eq q.card
  rw [List.count_append] at hcount
  have hpos : 0 < (s.ready.map PCB.card).count q.card := by omega
  obtain ⟨p, hp, heq⟩ := List.mem_map.mp (List.count_pos_iff.mp hpos)
  exact ⟨p, hp, congrArg (fun card => card.2.2) heq⟩

/-- Quiet effects tell of no arrival and no dispatch. -/
theorem cards_quiet (hes : ∀ e ∈ es, e.Quiet) :
    es.filterMap Effect.arrival = [] ∧ es.filterMap Effect.dispatch = [] := by
  constructor
  · refine List.filterMap_eq_nil_iff.mpr fun e he => ?_
    have hquiet := hes e he
    cases e with
    | received => exact hquiet.elim
    | _ => rfl
  · refine List.filterMap_eq_nil_iff.mpr fun e he => ?_
    have hquiet := hes e he
    unfold Effect.dispatch
    split
    · exact hquiet.elim
    · rfl

theorem highest_quiet {before : List Effect} {e : Effect} (he : e.Quiet) :
    DispatchesHighest before e := by
  rintro p rfl
  exact absurd he id

/-- Quiet effects, with the ready structure as it was. -/
theorem Prioritised.quiet (hs : Prioritised s) (hsound : Sound s')
    (ha : s'.algorithm = s.algorithm) (hr : s'.ready = s.ready) (ho : KeyOrdered s')
    (ht : s'.trace = s.trace ++ es) (hes : ∀ e ∈ es, e.Quiet) : Prioritised s' := by
  refine ⟨hsound, ha.trans hs.algorithm, ?_, ho, ?_, ?_⟩
  · rw [hr, ha]
    exact hs.inRange
  · obtain ⟨harrivals, hdispatches⟩ := cards_quiet hes
    rw [KeepsUndispatched, ht, hr, List.filterMap_append, List.filterMap_append, harrivals,
      hdispatches, List.append_nil, List.append_nil]
    exact hs.undispatched
  · rw [ht]
    exact hs.highest.append_of_forall fun e he pre => highest_quiet (hes e he)

/-- The dispatch of the root of the heap. -/
theorem prioritised_switchToNext (hs : Prioritised s) (hcp : s.currentProcess = none) :
    Prioritised s.switchToNext := by
  have hmove := contextSwitching_move hs.toSound
  rw [contextSwitching_none hcp] at hmove
  have halg := hmove.books.algorithm
  obtain ⟨ho, hleast⟩ := switchToNext_keyLeast hs.toStored hs.notRR hs.ready_semid hs.inRange
    hs.ordered
  obtain ⟨-, -, ⟨hnil, hnil', -, ht⟩ | ⟨d, sent, hr, hc, ht⟩⟩ :=
    switchToNext_spec hs.toStored hs.ready_semid
  · exact hs.quiet hmove.sound halg (hnil'.trans hnil.symm) ho (ht.trans (List.append_nil _).symm)
      (by simp)
  · have hmem : ∀ q ∈ s.switchToNext.ready, q ∈ s.ready :=
      fun q hq => hr.symm.subset (List.mem_cons_of_mem _ hq)
    -- the least priority value of the heap is that of the process dispatched
    have hpriority : ∀ q ∈ s.ready, d.priority ≤ q.priority := by
      intro q hq
      rcases List.mem_cons.mp (hr.subset hq) with rfl | hq
      · exact Int.le_refl _
      · have hle := hleast _ hc q hq
        rw [key_dispatched, halg, hs.algorithm] at hle
        exact hle
    refine ⟨hmove.sound, halg.trans hs.algorithm, ?_, ho, ?_, ?_⟩
    · rw [halg]
      exact fun q hq => hs.inRange q (hmem q hq)
    · have hcards : (contEffects (dispatchEvent d) s.clockValue sent
          (d.dispatched s.clockValue)).filterMap Effect.arrival = [] ∧
          (contEffects (dispatchEvent d) s.clockValue sent
            (d.dispatched s.clockValue)).filterMap Effect.dispatch = [d.card] := by
        cases sent <;> exact ⟨rfl, congrArg ([·]) (PCB.card_dispatched s.clockValue d)⟩
      rw [KeepsUndispatched, ht, List.filterMap_append, List.filterMap_append, hcards.1, hcards.2,
        List.append_nil, List.append_assoc]
      exact ((hr.map PCB.card).symm.append_left _).trans hs.undispatched
    · have hdispatch : DispatchesHighest s.trace (.signal .cont (d.dispatched s.clockValue)) := by
        rintro p ⟨⟩ q hq
        obtain ⟨r, hr', hpri⟩ := hs.undispatched.mem hq
        have hpriority' : (d.dispatched s.clockValue).priority = d.priority :=
          key_dispatched .HPF _ _
        rw [hpriority', ← hpri]
        exact hpriority r hr'
      rw [ht, contEffects, ← List.singleton_append, ← List.append_assoc]
      refine (each_snoc.mpr ⟨hs.highest, hdispatch⟩).append_of_forall fun e he pre => ?_
      apply highest_quiet
      cases sent
      · cases he
      · rw [List.mem_singleton.mp he]
        trivial

theorem prioritised_run (hs : Prioritised s) : Prioritised s.runAlgorithm := by
  have hrun : s.runAlgorithm = s.runHPFAlgorithm := by simp only [runAlgorithm, hs.algorithm]
  rw [hrun]
  unfold runHPFAlgorithm
  split
  · rename_i hcond
    rw [contextSwitching_none hcond.1]
    exact prioritised_switchToNext hs hcond.1
  · exact hs

theorem prioritised_arrival (hs : Prioritised s) (hsem : 0 < p.syncSemid) (h0 : 0 ≤ p.priority)
    (h1 : p.priority < 2 ^ 31) (hroom : s.held.length < 1024) :
    Prioritised (s.handleProcessArrival p) := by
  obtain ⟨hsound, hb, hc, -, hperm, ht⟩ := handleProcessArrival_spec hs.toSound hsem
  have hlen : s.ready.length ≤ s.held.length := by simp [held]
  have hr := hperm (Or.inr (by omega))
  have hsize : s.ready.length = s.readyHeap.size := by
    rw [ready_heap hs.notRR, List.length_map, MinHeap.length_toList]
  have harrived : s.algorithm.InRange p.arrived := by
    rw [hs.algorithm]
    exact ⟨h0, h1⟩
  refine ⟨hsound, hb.algorithm.trans hs.algorithm, ?_, ?_, ?_, ?_⟩
  · intro q hq
    rw [hb.algorithm]
    rcases List.mem_cons.mp (hr.subset hq) with rfl | hq
    · exact harrived
    · exact hs.inRange q hq
  · refine arrival_keyOrdered hs.toStored hs.notRR hs.inRange harrived hs.ordered ?_
    rw [hs.capacity]
    omega
  · rw [KeepsUndispatched, ht, List.filterMap_append, List.filterMap_append]
    show (_ ++ [] ++ _ : List (ℤ × ℤ × ℤ)).Perm (_ ++ [p.card])
    rw [List.append_nil]
    refine ((hr.map PCB.card).append_left _).trans (List.perm_middle.trans ?_)
    exact (hs.undispatched.cons p.card).trans (List.perm_append_singleton _ _).symm
  · rw [ht, each_snoc]
    refine ⟨hs.highest, fun q hq => ?_⟩
    cases hq

theorem prioritised_retire (hs : Prioritised s) (hcp : s.currentProcess = some process) :
    Prioritised (s.retire process) := by
  obtain ⟨value, hsound, hb, -, hr, ht⟩ := retire_spec hs.toSound hcp
  refine hs.quiet hsound hb.algorithm hr (retire_keyOrdered hs.toSound hcp hs.ordered) ht ?_
  intro e he
  simp only [retireEffects, List.mem_append, List.mem_cons, List.not_mem_nil, or_false] at he
  rcases he with he | rfl | rfl | rfl
  · split at he
    · rw [List.mem_singleton.mp he]
      trivial
    · cases he
  · trivial
  · trivial
  · trivial

theorem Prioritised.withClock (hs : Prioritised s) (clk : ℤ) :
    Prioritised { s with clockValue := clk } :=
  ⟨hs.toSound.withClock clk, hs.algorithm, hs.inRange, hs.ordered, hs.undispatched, hs.highest⟩

theorem Prioritised.feed (hs : Prioritised s) (i : Inputs) : Prioritised (s.feed i) :=
  ⟨hs.toSound.feed i, hs.algorithm, hs.inRange, hs.ordered, hs.undispatched, hs.highest⟩

theorem Prioritised.grantTick (hs : Prioritised s) : Prioritised s.grantTick := by
  cases hc : s.currentProcess with
  | none =>
    rw [grantTick_none hc]
    exact hs
  | some process =>
    rw [grantTick_some hc]
    refine hs.quiet (grantTick_some hc ▸ hs.toSound.grantTick) rfl rfl hs.ordered rfl ?_
    intro e he
    rw [List.mem_singleton.mp he]
    trivial

/-- A reading of the current process. -/
theorem prioritised_updateCurrent (hs : Prioritised s) : Prioritised s.updateCurrent := by
  cases hc : s.currentProcess with
  | none =>
    have hsame : s.updateCurrent = s := by simp only [updateCurrent, hc]
    rw [hsame]
    exact hs
  | some process =>
    have hread : s.updateCurrent = s.updateProcessRemainingTime process := by
      simp only [updateCurrent, hc]
    obtain ⟨v, htouch, ht, -⟩ := updateProcessRemainingTime_spec s process
    have hfresh := hs.current_notMem _ hc
    rw [hread]
    exact hs.quiet (reread_move hs.toSound hc).sound htouch.algorithm (htouch.ready hfresh)
      (htouch.keyOrdered hfresh hs.ordered) (ht.trans (List.append_nil _).symm) (by simp)

/-- Under HPF nothing is compared at reception, and nothing follows at the end of a process. -/
theorem Prioritised.ne_SRTN (hs : Prioritised s) : s.algorithm ≠ .SRTN := by
  simp [hs.algorithm]

end Scheduler

open Scheduler

/-- Messages with a valid semaphore and a non-negative `int` priority, while fewer than 1024
processes are unfinished. -/
def Rankable (l : Loop) : LoopAct → Prop
  | .receive p _ => 0 < p.syncSemid ∧ 0 ≤ p.priority ∧ p.priority < 2 ^ 31 ∧
      l.scheduler.held.length < 1024
  | _ => True

/-- The current process stays, with a new remaining time at most, unless its end is handled. -/
def KeepsCurrent (l : Loop) (a : LoopAct) : Prop :=
  ∀ l' p, LoopStep l a l' → l.scheduler.current = some p →
    (∃ value, l'.scheduler.current = some { p with remainingTime := value }) ∨
      ∃ i value finished count, a = .sigusr2 i ∧ l'.scheduler.current = none ∧
        l'.scheduler.trace = l.scheduler.trace ++ retireEffects l.clock finished count value p

variable {l l' : Loop} {a : LoopAct}

theorem prioritised_step (hs : Prioritised l.scheduler) (hok : Rankable l a)
    (h : LoopStep l a l') : Prioritised l'.scheduler := by
  cases h with
  | sigusr1 hp =>
    exact ⟨sound_preserved.generator _ hs.toSound, hs.algorithm, hs.inRange, hs.ordered,
      hs.undispatched, hs.highest⟩
  | @sigusr2 i hp =>
    have hclk := (hs.feed i).withClock l.clock
    show Prioritised (completeCurrent _)
    cases hc : l.scheduler.currentProcess with
    | none =>
      have hnone : completeCurrent { l.scheduler.feed i with clockValue := l.clock } = _ :=
        completeCurrent_none hc
      rw [hnone]
      exact hclk
    | some process =>
      rw [completeCurrent_of_ne_SRTN hclk.ne_SRTN hc]
      exact prioritised_retire hclk hc
  | @receive p i hp =>
    obtain ⟨hsem, h0, h1, hroom⟩ := hok
    have hfeed := hs.feed i
    have harr := prioritised_arrival hfeed hsem h0 h1 hroom
    show Prioritised (receiveMessage _ p)
    obtain ⟨_, heq⟩ := forgetTick_eq ((l.scheduler.feed i).handleProcessArrival p)
    rw [receiveMessage_of_ne_SRTN hfeed.ne_SRTN, heq]
    exact harr.withClock _
  | assign hp => exact hs.withClock _
  | @runAlgorithm i hp => exact prioritised_run (hs.feed i)
  | grant hp => exact hs.grantTick
  | @refresh i hp => exact prioritised_updateCurrent (hs.feed i)
  | _ => exact hs

theorem keepsCurrent_of_prioritised (hs : Prioritised l.scheduler) (hok : Rankable l a) :
    KeepsCurrent l a := by
  intro l' p h hc
  have hcp : l.scheduler.currentProcess ≠ none := by
    intro hnone
    rw [current_eq_none.mpr hnone] at hc
    cases hc
  have hsame : l'.scheduler.current = l.scheduler.current →
      (∃ value, l'.scheduler.current = some { p with remainingTime := value }) ∨
      ∃ i value finished count, a = .sigusr2 i ∧ l'.scheduler.current = none ∧
        l'.scheduler.trace = l.scheduler.trace ++ retireEffects l.clock finished count value p :=
    fun heq => Or.inl ⟨p.remainingTime, heq.trans hc⟩
  cases h with
  | @sigusr2 i hp =>
    obtain ⟨process, hcp⟩ := Option.ne_none_iff_exists'.mp hcp
    have hclk := (hs.feed i).withClock l.clock
    obtain ⟨value, -, -, hnone, -, ht⟩ := retire_spec hclk.toSound hcp
    have hpcb : l.scheduler.pcbs process = p := Option.some.inj ((current_some hcp).symm.trans hc)
    have heq : (l.complete i).scheduler = retire _ process :=
      completeCurrent_of_ne_SRTN hclk.ne_SRTN hcp
    refine Or.inr ⟨i, value, (l.scheduler.finishedProcesses + 1 : ℕ), l.scheduler.processCount, rfl,
      ?_, ?_⟩
    · rw [heq]
      exact current_eq_none.mpr hnone
    · rw [heq, ht, ← hpcb]
      rfl
  | @receive q i hp =>
    obtain ⟨hsem, -⟩ := hok
    have hfeed := hs.feed i
    apply hsame
    show (receiveMessage _ q).current = _
    obtain ⟨_, heq⟩ := forgetTick_eq ((l.scheduler.feed i).handleProcessArrival q)
    rw [receiveMessage_of_ne_SRTN hfeed.ne_SRTN, heq]
    exact (handleProcessArrival_spec hfeed.toSound hsem).2.2.1
  | @runAlgorithm i hp =>
    apply hsame
    show (runAlgorithm _).current = _
    have hstay : ¬ ((l.scheduler.feed i).currentProcess = none ∧
        0 < (l.scheduler.feed i).readyHeap.size) := fun hcond => hcp hcond.1
    simp only [Scheduler.runAlgorithm, (hs.feed i).algorithm, runHPFAlgorithm, hstay, if_false]
    rfl
  | grant hp =>
    apply hsame
    exact grantTick_current l.scheduler
  | @refresh i hp =>
    obtain ⟨process, hcp⟩ := Option.ne_none_iff_exists'.mp hcp
    obtain ⟨v, htouch, -⟩ := updateProcessRemainingTime_spec (l.scheduler.feed i) process
    have hpcb : l.scheduler.pcbs process = p := Option.some.inj ((current_some hcp).symm.trans hc)
    have hread : (l.scheduler.feed i).updateCurrent =
        (l.scheduler.feed i).updateProcessRemainingTime process := by
      simp only [updateCurrent, Scheduler.feed, hcp]
    refine Or.inl ⟨v, ?_⟩
    show (updateCurrent _).current = _
    rw [hread, htouch.current hcp]
    show some { l.scheduler.pcbs process with remainingTime := v } = _
    rw [hpcb]
  | _ => exact hsame rfl

theorem prioritised_initial (quantum clk : ℤ) : Prioritised (Scheduler.initial .HPF quantum clk) := by
  have hready : (Scheduler.initial .HPF quantum clk).ready = [] := rfl
  refine ⟨sound_initial .HPF quantum clk, rfl, ?_, ?_, ?_, each_nil⟩
  · intro p hp
    rw [hready] at hp
    cases hp
  · exact fun i _ hin => absurd hin (Nat.not_lt_zero i)
  · rw [KeepsUndispatched, hready]
    exact .refl _

/-- In every HPF run the process dispatched keeps the CPU until its end, and has the highest
priority of those that wait. -/
theorem highestPriority_always (quantum clk : ℤ) (as : List LoopAct) :
    Throughout (Restrict Rankable LoopStep) (Loop.initial .HPF quantum clk) as KeepsCurrent ∧
      Always (Restrict Rankable LoopStep) (Loop.initial .HPF quantum clk) as
        fun l => Each DispatchesHighest l.scheduler.trace := by
  have hinv : ∀ {pre l}, Trace (Restrict Rankable LoopStep) (Loop.initial .HPF quantum clk) pre l →
      Prioritised l.scheduler := by
    intro pre l ht
    refine ht.invariant (P := fun l => Prioritised l.scheduler) ?_ (prioritised_initial quantum clk)
    exact fun _ _ _ hs hstep => prioritised_step hs hstep.1 hstep.2
  constructor
  · intro pre a l l' _ ht hstep
    exact keepsCurrent_of_prioritised (hinv ht) hstep.1
  · exact fun pre l _ ht => (hinv ht).highest

end KernelSim
