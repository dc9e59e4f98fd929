import KernelSim.Scheduler.Conservation

/-! The arrays of completion statistics: where they are written, and what they hold. -/
namespace KernelSim
open Runs Relation Scheduler

/-- The arrays that `handle_process_completion` writes. -/
inductive StatisticsArray
  | turnaroundTimes
  | wtaList
  | waitTimes

/-- `int turnaround_times[100]; float wta_list[100]; int wait_times[100];` -/
def StatisticsArray.length : StatisticsArray → ℕ
  | .turnaroundTimes => 100
  | .wtaList => 100
  | .waitTimes => 100

namespace Loop

/-- The process that ends in a step, with its finish time. -/
def completed (l : Loop) : LoopAct → List (PCB × ℤ)
  | .sigusr2 _ => l.scheduler.current.toList.map fun p => (p, l.clock)
  | _ => []

/-- The elements of the arrays that a step writes. -/
def written (l : Loop) : LoopAct → List (StatisticsArray × ℕ)
  | .sigusr2 _ =>
    if l.scheduler.currentProcess.isSome then
      [(.turnaroundTimes, l.scheduler.finishedProcesses), (.wtaList, l.scheduler.finishedProcesses),
        (.waitTimes, l.scheduler.finishedProcesses)]
    else []
  | _ => []

end Loop

/-- The loop with its completions and its writes to the arrays so far. -/
structure Tallied where
  loop : Loop
  completions : List (PCB × ℤ)
  writes : List (StatisticsArray × ℕ)

namespace Tallied

def initial (algorithm : SchedulingAlgorithm) (quantum clk : ℤ) : Tallied :=
  { loop := Loop.initial algorithm quantum clk
    completions := []
    writes := [] }

/-- The handler is let run past the arrays here, and its writes are recorded. -/
def next (t : Tallied) (a : LoopAct) : Option Tallied :=
  (t.loop.attempt a).map fun l =>
    { loop := l
      completions := t.completions ++ t.loop.completed a
      writes := t.writes ++ t.loop.written a }

end Tallied

/-- Every write is inside its array, and the arrays hold the times of every process that has
ended, in the order of their ends. -/
structure StatisticsExact (t : Tallied) : Prop where
  inside : ∀ w ∈ t.writes, w.2 < w.1.length
  entries : ∀ (i : ℕ) (p : PCB) (finishTime : ℤ), t.completions[i]? = some (p, finishTime) →
    t.loop.scheduler.turnaroundTimes[i]? = some (finishTime - p.arrivalTime) ∧
      t.loop.scheduler.waitTimes[i]? = some (finishTime - p.arrivalTime - p.executionTime)

/-- A process that ends finds fewer than 100 ended before it. -/
def PlaceLeft (t : Tallied) : LoopAct → Prop
  | .sigusr2 _ =>
    t.loop.scheduler.currentProcess ≠ none → t.loop.scheduler.finishedProcesses < 100
  | _ => True

variable {l l' : Loop} {a : LoopAct} {t t' : Tallied}

/-- What a step does to the statistics. -/
inductive StatisticsStep (l : Loop) (a : LoopAct) (l' : Loop) : Prop
  | same (hc : l.completed a = []) (hw : l.written a = [])
      (hf : l'.scheduler.finishedProcesses = l.scheduler.finishedProcesses)
      (hta : l'.scheduler.turnaroundTimes = l.scheduler.turnaroundTimes)
      (hwait : l'.scheduler.waitTimes = l.scheduler.waitTimes)
  | completion (i : Inputs) (p : PCB) (ha : a = .sigusr2 i) (hcp : l.scheduler.currentProcess ≠ none)
      (hc : l.completed a = [(p, l.clock)])
      (hw : l.written a = [(.turnaroundTimes, l.scheduler.finishedProcesses),
        (.wtaList, l.scheduler.finishedProcesses), (.waitTimes, l.scheduler.finishedProcesses)])
      (hf : l'.scheduler.finishedProcesses = l.scheduler.finishedProcesses + 1)
      (hta : l'.scheduler.turnaroundTimes = l.scheduler.turnaroundTimes.set
        l.scheduler.finishedProcesses (l.clock - p.arrivalTime))
      (hwait : l'.scheduler.waitTimes = l.scheduler.waitTimes.set l.scheduler.finishedProcesses
        (l.clock - p.arrivalTime - p.executionTime))

theorem statisticsStep_complete (l : Loop) (i : Inputs) :
    StatisticsStep l (.sigusr2 i) (l.complete i) := by
  cases hc : l.scheduler.currentProcess with
  | none =>
    have hnone := completeCurrent_none
      (s := { l.scheduler.feed i with clockValue := l.clock }) hc
    refine .same ?_ ?_ ?_ ?_ ?_
    · simp [Loop.completed, current_eq_none.mpr hc]
    · simp [Loop.written, hc]
    all_goals
      simp only [Loop.complete, handleProcessCompletion, hnone]
      rfl
  | some process =>
    have hb := completeCurrent_books
      (s := { l.scheduler.feed i with clockValue := l.clock }) hc
    refine .completion i (l.scheduler.pcbs process) rfl (by simp [hc]) ?_ ?_
      hb.finishedProcesses hb.turnaroundTimes hb.waitTimes
    · simp [Loop.completed, current_some hc]
    · simp [Loop.written, hc]

theorem statisticsStep_of_loopStep (h : LoopStep l a l') : StatisticsStep l a l' := by
  cases h with
  | @sigusr2 i hp => exact statisticsStep_complete l i
  | @receive p i hp =>
    obtain ⟨clk, hb⟩ := receiveMessage_books (l.scheduler.feed i) p
    exact .same rfl rfl hb.finishedProcesses hb.turnaroundTimes hb.waitTimes
  | @runAlgorithm i hp =>
    have hb := primitives_books (runAlgorithm_primitives (l.scheduler.feed i))
    exact .same rfl rfl hb.finishedProcesses hb.turnaroundTimes hb.waitTimes
  | grant hp =>
    have hb := grantTick_books l.scheduler
    exact .same rfl rfl hb.finishedProcesses hb.turnaroundTimes hb.waitTimes
  | @refresh i hp =>
    have hb := primitives_books (updateCurrent_primitives (l.scheduler.feed i))
    exact .same rfl rfl hb.finishedProcesses hb.turnaroundTimes hb.waitTimes
  | _ => exact .same rfl rfl rfl rfl rfl

theorem finished_le_step (hle : l.scheduler.finishedProcesses ≤ 100) (h : LoopStep l a l') :
    l'.scheduler.finishedProcesses ≤ 100 := by
  rcases statisticsStep_of_loopStep h with ⟨-, -, hf, -⟩ | ⟨i, p, rfl, hcp, -, -, hf, -⟩
  · exact hf ▸ hle
  · cases h with
    | sigusr2 hp hplace =>
      have hlt : ¬ 100 ≤ l.scheduler.finishedProcesses := fun hge => hplace ⟨hcp, hge⟩
      omega

/-- The writes past the arrays included. -/
theorem statisticsStep_of_attempt (h : l.attempt a = some l') : StatisticsStep l a l' := by
  cases a with
  | sigusr2 i =>
    simp only [Loop.attempt, Option.ite_none_left_eq_some, Option.some.injEq] at h
    obtain ⟨-, rfl⟩ := h
    exact statisticsStep_complete l i
  | _ => exact statisticsStep_of_loopStep (loopStep_of_next h)

/-- The invariant of a run whose completions all find a place. -/
structure TallyInv (t : Tallied) : Prop extends StatisticsExact t where
  count : t.completions.length = t.loop.scheduler.finishedProcesses
  turnaround_length : t.loop.scheduler.turnaroundTimes.length = 100
  wait_length : t.loop.scheduler.waitTimes.length = 100

theorem tallyInv_initial (algorithm : SchedulingAlgorithm) (quantum clk : ℤ) :
    TallyInv (.initial algorithm quantum clk) := by
  refine ⟨⟨?_, ?_⟩, rfl, List.length_replicate, List.length_replicate⟩
  · simp [Tallied.initial]
  · simp [Tallied.initial]

/-- An array with one more entry keeps the entries before it. -/
theorem getElem?_set_append {α β : Type} {xs : List α} {ys : List β} {x : α} {f : α → β} {i : ℕ}
    (hlen : xs.length < ys.length)
    (hold : ∀ (i : ℕ) (x : α), xs[i]? = some x → ys[i]? = some (f x)) {y : α}
    (h : (xs ++ [x])[i]? = some y) : (ys.set xs.length (f x))[i]? = some (f y) := by
  rcases Nat.lt_trichotomy i xs.length with hi | rfl | hi
  · rw [List.getElem?_append_left hi] at h
    rw [List.getElem?_set_ne (by omega)]
    exact hold i y h
  · rw [List.getElem?_concat_length, Option.some.injEq] at h
    rw [List.getElem?_set_self hlen, h]
  · rw [List.getElem?_eq_none (by simp; omega)] at h
    cases h

theorem tallyInv_step (ht : TallyInv t) (hC : PlaceLeft t a) (h : t.next a = some t') :
    TallyInv t' := by
  obtain ⟨l', hl, rfl⟩ := Option.map_eq_some_iff.mp h
  rcases statisticsStep_of_attempt hl with
    ⟨hc, hw, hf, hta, hwait⟩ | ⟨i, p, rfl, hcp, hc, hw, hf, hta, hwait⟩
  · rw [hc, hw, List.append_nil, List.append_nil]
    refine ⟨⟨ht.inside, ?_⟩, ht.count.trans hf.symm, ?_, ?_⟩
    · simp only [hta, hwait]
      exact ht.entries
    · simp only [hta, ht.turnaround_length]
    · simp only [hwait, ht.wait_length]
  · have hplace := hC hcp
    rw [hc, hw]
    refine ⟨⟨?_, ?_⟩, ?_, ?_, ?_⟩
    · intro w hmem
      rcases List.mem_append.mp hmem with hold | hnew
      · exact ht.inside w hold
      · simp only [List.mem_cons, List.not_mem_nil, or_false] at hnew
        rcases hnew with rfl | rfl | rfl <;> exact hplace
    · intro i q finishTime hi
      simp only [hta, hwait, ← ht.count]
      constructor
      · refine getElem?_set_append (f := fun c : PCB × ℤ => c.2 - c.1.arrivalTime) ?_ ?_ hi
        · rw [ht.count, ht.turnaround_length]
          exact hplace
        · exact fun i c hc => (ht.entries i c.1 c.2 hc).1
      · refine getElem?_set_append
          (f := fun c : PCB × ℤ => c.2 - c.1.arrivalTime - c.1.executionTime) ?_ ?_ hi
        · rw [ht.count, ht.wait_length]
          exact hplace
        · exact fun i c hc => (ht.entries i c.1 c.2 hc).2
    · simp only [List.length_append, ht.count, hf]
      rfl
    · simp only [hta, List.length_set, ht.turnaround_length]
    · simp only [hwait, List.length_set, ht.wait_length]

/-- Steps from any state, by any action. -/
def TallyStep : Tallied → LoopAct → Tallied → Prop := Guarded (fun _ _ => True) Tallied.next

/-- The statistics are exact in exactly the runs in which at most 100 processes end. -/
theorem statisticsExact_iff_placeLeft (algorithm : SchedulingAlgorithm) (quantum clk : ℤ)
    (as : List LoopAct) :
    Always TallyStep (.initial algorithm quantum clk) as StatisticsExact ↔
      Throughout TallyStep (.initial algorithm quantum clk) as PlaceLeft := by
  refine always_iff_throughout (tallyInv_initial algorithm quantum clk)
    (fun _ ht => ht.toStatisticsExact) ?_ ?_
  · rintro t a t' ht hC ⟨-, hstep⟩
    exact tallyInv_step ht hC hstep
  · rintro t a t' ht hfull ⟨-, hstep⟩ hexact
    obtain ⟨l', -, rfl⟩ := Option.map_eq_some_iff.mp hstep
    cases a with
    | sigusr2 i =>
      obtain ⟨hcp, hlt⟩ := Classical.not_imp.mp hfull
      apply hlt
      refine hexact.inside (.turnaroundTimes, t.loop.scheduler.finishedProcesses) ?_
      simp [Loop.written, Option.isSome_iff_ne_none.mpr hcp]
    | _ => exact hfull trivial

/-- Every place below the counter has been written, in each array. -/
theorem written_below_finished {algorithm : SchedulingAlgorithm} {quantum clk : ℤ}
    {as : List LoopAct} (h : Trace TallyStep (.initial algorithm quantum clk) as t)
    (array : StatisticsArray) :
    ∀ i < t.loop.scheduler.finishedProcesses, (array, i) ∈ t.writes := by
  refine h.invariant (P := fun t =>
    ∀ i < t.loop.scheduler.finishedProcesses, (array, i) ∈ t.writes) ?_
      (fun i hi => absurd hi (Nat.not_lt_zero i))
  rintro t a t' ht ⟨-, hstep⟩
  obtain ⟨l', hl, rfl⟩ := Option.map_eq_some_iff.mp hstep
  intro i hi
  apply List.mem_append.mpr
  rcases statisticsStep_of_attempt hl with
    ⟨-, -, hf, -, -⟩ | ⟨_, -, -, -, -, hw, hf, -, -⟩
  · exact Or.inl (ht i (hf ▸ hi))
  · rcases Nat.lt_succ_iff_lt_or_eq.mp (hf ▸ hi) with hlt | rfl
    · exact Or.inl (ht i hlt)
    · rw [hw]
      cases array <;> simp

/-- One turn of the loop: process `n + 1` arrives at tick `n`, runs for one tick and ends. -/
def lap (n : ℕ) : List LoopAct :=
  [.advance {}, .downNb true, .receive (Process.newPcb ⟨n + 1, n, 1, 0, 64⟩ (n + 101) 11 21) {},
    .noMessage, .advance {}, .advance {}, .advance {}, .advance {}, .advance {},
    .advance ⟨[some 1], []⟩, .tick, .sigusr2 ⟨[some 0], []⟩, .advance {}]

/-- The 101st process to end is recorded past the end of the arrays. -/
theorem lastLap_not_inside :
    ¬ Always TallyStep (.initial .HPF 0 0) ((List.range 101).flatMap lap) StatisticsExact := by
  intro h
  obtain ⟨t, hrun, htest⟩ := exists_trace_of_execute (R := fun t a t' => Tallied.next t a = some t')
    (fun _ _ _ hstep => hstep)
    (show (execute (fun _ _ => True) Tallied.next (.initial .HPF 0 0)
      ((List.range 101).flatMap lap)).any
        (fun t => t.loop.scheduler.finishedProcesses = 101) = true by decide +kernel)
  have hcount := of_decide_eq_true htest
  have hlast := written_below_finished hrun .turnaroundTimes 100 (by omega)
  exact absurd ((h _ t (List.prefix_refl _) hrun).inside _ hlast) (Nat.lt_irrefl 100)

end KernelSim
