import KernelSim.Scheduler.Charging
import KernelSim.Scheduler.Clock
import KernelSim.Scheduler.LogText
import KernelSim.Scheduler.Shutdown

/-! The figures that `main` computes its statistics from, and `scheduler.log`: the log tells them. -/
namespace KernelSim
open Formats Runs Relation Scheduler

/-- The lines 'finished' of a text of `scheduler.log`. -/
def finishedInLog (text : List Char) : List LogLine :=
  ((readAll schedulerFormat text).filterMap LogLine.ofFields).filter (·.event = .finished)

namespace Scheduler

/-- The lines 'finished' written so far. -/
def finishedRows (s : Scheduler) : List LogLine :=
  (s.trace.filterMap Effect.line).filter (·.event = .finished)

/-- The arrays hold what these lines tell, as far as they go. -/
structure Tabled (s : Scheduler) : Prop where
  count : s.finishedProcesses = s.finishedRows.length
  turnaround_length : s.turnaroundTimes.length = 100
  wait_length : s.waitTimes.length = 100
  turnaround : s.finishedRows.length ≤ 100 →
    s.turnaroundTimes.take s.finishedRows.length = s.finishedRows.map LogLine.turnaround
  wait : s.finishedRows.length ≤ 100 → s.waitTimes.take s.finishedRows.length =
    s.finishedRows.map fun r => r.turnaround - r.standing.executionTime

variable {s s' : Scheduler} {es : List Effect} {p : PCB} {process : ℕ}

theorem rows_append (ht : s'.trace = s.trace ++ es) : s'.finishedRows =
    s.finishedRows ++ (es.filterMap Effect.line).filter (·.event = .finished) := by
  rw [finishedRows, ht, List.filterMap_append, List.filter_append, finishedRows]

theorem rows_ofSwitch (hes : ∀ e ∈ es, e.OfSwitch) :
    (es.filterMap Effect.line).filter (·.event = .finished) = [] := by
  apply List.filter_eq_nil_iff.mpr
  intro r hr
  obtain ⟨e, he, hline⟩ := List.mem_filterMap.mp hr
  cases e with
  | logged event =>
    have hswitch : event ≠ .finished := hes _ he
    cases hline
    simpa using hswitch
  | _ => cases hline

theorem move_rows (h : Move s s') : s'.finishedRows = s.finishedRows := by
  obtain ⟨es, ht, hes⟩ := h.trace
  rw [rows_append ht, rows_ofSwitch hes, List.append_nil]

theorem moves_rows (h : ReflTransGen Move s s') : s'.finishedRows = s.finishedRows := by
  induction h with
  | refl => rfl
  | tail _ hm ih => exact (move_rows hm).trans ih

theorem arrival_rows (hs : Sound s) (hsem : 0 < p.syncSemid) :
    (s.handleProcessArrival p).finishedRows = s.finishedRows := by
  obtain ⟨-, -, -, -, -, ht⟩ := handleProcessArrival_spec hs hsem
  rw [rows_append ht]
  exact List.append_nil _

theorem grant_rows (s : Scheduler) : s.grantTick.finishedRows = s.finishedRows := by
  cases hc : s.currentProcess with
  | none => rw [grantTick_none hc]
  | some process =>
    rw [grantTick_some hc]
    exact (rows_append rfl).trans (List.append_nil _)

theorem receive_rows (hs : Sound s) (hsem : 0 < p.syncSemid) :
    (s.receiveMessage p).finishedRows = s.finishedRows := by
  obtain ⟨hsound, -⟩ := handleProcessArrival_spec hs hsem
  obtain ⟨_, heq⟩ := receiveMessage_eq s p
  rw [heq]
  exact (moves_rows (moved_moves (preemptOnArrival_moved hsound).1)).trans (arrival_rows hs hsem)

/-- A completion writes one line 'finished'. -/
theorem retire_rows (hs : Sound s) (hc : s.currentProcess = some process) :
    ∃ r : LogLine, (s.retire process).finishedRows = s.finishedRows ++ [r] ∧
      r.turnaround = s.clockValue - (s.pcbs process).arrivalTime ∧
      r.standing.executionTime = (s.pcbs process).executionTime := by
  obtain ⟨value, -, -, -, -, ht⟩ := retire_spec hs hc
  refine ⟨⟨.finished, s.clockValue, ((s.pcbs process).retired value).standing,
    s.clockValue - (s.pcbs process).arrivalTime⟩, ?_, rfl, rfl⟩
  rw [rows_append ht, lines_retire]
  rfl

/-- The entry written next to those told. -/
theorem take_set_next {xs : List ℤ} {n : ℕ} (hn : n < xs.length) (x : ℤ) :
    (xs.set n x).take (n + 1) = xs.take n ++ [x] := by
  rw [List.take_set, List.take_succ_eq_append_getElem hn, List.set_append_right _ _ (by simp)]
  simp [Nat.min_eq_left hn.le]

theorem tabled_same (h : Tabled s) (hrows : s'.finishedRows = s.finishedRows)
    (hf : s'.finishedProcesses = s.finishedProcesses)
    (hta : s'.turnaroundTimes = s.turnaroundTimes) (hwait : s'.waitTimes = s.waitTimes) :
    Tabled s' := by
  constructor
  · rw [hf, hrows]
    exact h.count
  · rw [hta]
    exact h.turnaround_length
  · rw [hwait]
    exact h.wait_length
  · rw [hrows, hta]
    exact h.turnaround
  · rw [hrows, hwait]
    exact h.wait

theorem tabled_retire (hs : Sound s) (h : Tabled s) (hc : s.currentProcess = some process) :
    Tabled (s.retire process) := by
  obtain ⟨value, -, hb, -⟩ := retire_spec hs hc
  obtain ⟨r, hrows, hta, hexec⟩ := retire_rows hs hc
  have hcount := h.count
  constructor
  · rw [hrows, hb.finishedProcesses, List.length_append, hcount]
    rfl
  · rw [hb.turnaroundTimes]
    exact (List.length_set ..).trans h.turnaround_length
  · rw [hb.waitTimes]
    exact (List.length_set ..).trans h.wait_length
  · rw [hrows, hb.turnaroundTimes, List.length_append, List.map_append]
    intro hle
    have hle : s.finishedRows.length + 1 ≤ 100 := hle
    show (s.turnaroundTimes.set s.finishedProcesses _).take (s.finishedRows.length + 1) = _
    rw [hcount, take_set_next (h.turnaround_length ▸ hle), h.turnaround (by omega)]
    simp [hta]
  · rw [hrows, hb.waitTimes, List.length_append, List.map_append]
    intro hle
    have hle : s.finishedRows.length + 1 ≤ 100 := hle
    show (s.waitTimes.set s.finishedProcesses _).take (s.finishedRows.length + 1) = _
    rw [hcount, take_set_next (h.wait_length ▸ hle), h.wait (by omega)]
    simp [hta, hexec]

/-- The arrays keep pace with the log. -/
theorem tabled_preserved :
    Preserved (fun s => Sound s ∧ Tabled s) fun _ p => 0 < p.syncSemid where
  sound := fun _ hs => hs.1
  semid := fun _ _ hp => hp
  clock := fun _ clk hs => ⟨hs.1.withClock clk, tabled_same hs.2 rfl rfl rfl rfl⟩
  feed := fun _ i hs => ⟨hs.1.feed i, tabled_same hs.2 rfl rfl rfl rfl⟩
  generator := fun _ hs =>
    ⟨sound_preserved.generator _ hs.1, tabled_same hs.2 rfl rfl rfl rfl⟩
  grant := fun s hs => by
    have hb := grantTick_books s
    exact ⟨hs.1.grantTick, tabled_same hs.2 (grant_rows s) hb.finishedProcesses hb.turnaroundTimes
      hb.waitTimes⟩
  move := fun _ _ hs hm => ⟨hm.sound, tabled_same hs.2 (move_rows hm) hm.books.finishedProcesses
    hm.books.turnaroundTimes hm.books.waitTimes⟩
  arrival := fun _ _ hs hp => by
    obtain ⟨hsound, hb, -⟩ := handleProcessArrival_spec hs.1 hp
    exact ⟨hsound, tabled_same hs.2 (arrival_rows hs.1 hp) hb.finishedProcesses hb.turnaroundTimes
      hb.waitTimes⟩
  retire := fun _ _ hs hc => by
    obtain ⟨value, hsound, -⟩ := retire_spec hs.1 hc
    exact ⟨hsound, tabled_retire hs.1 hs.2 hc⟩

end Scheduler

open Scheduler

instance : ∀ l a, Decidable (Deliverable l a)
  | l, .receive p _ => inferInstanceAs (Decidable (0 < p.syncSemid ∧
      p.idFromFile ∉ l.scheduler.receivedIds ∧ l.scheduler.held.length < 1024))
  | _, .tick => isTrue trivial
  | _, .sigusr1 => isTrue trivial
  | _, .sigusr2 _ => isTrue trivial
  | _, .downNb _ => isTrue trivial
  | _, .noMessage => isTrue trivial
  | _, .advance _ => isTrue trivial

/-- The invariant of the figures. -/
structure FiguresInv (l : Loop) : Prop where
  clocked : Clocked l
  conserved : Conserved l.scheduler
  tabled : Tabled l.scheduler
  dated : Dated l.scheduler
  settled : l.scheduler.settled =
    (l.scheduler.finishedRows.map fun r => r.standing.executionTime).sum

variable {l l' : Loop} {a : LoopAct}

theorem deliverable_semids (h : Deliverable l a) : SemidsValid l a := by
  cases a with
  | receive p i => exact h.1
  | _ => trivial

/-- A process that is to be stopped has its place in the heap. -/
theorem room_of_overtaken {s : Scheduler} (hroom : s.algorithm = .RR ∨ s.held.length ≤ 1024)
    (h : s.Overtaken) : HasRoom s := by
  refine hroom.imp_right fun hlen => ?_
  cases hc : s.current with
  | none =>
    obtain ⟨-, ⟨process, hcp, -⟩, -⟩ := h
    rw [updateCurrent_none (current_eq_none.mp hc), current_eq_none.mp hc] at hcp
    cases hcp
  | some p =>
    rw [held_some hc, List.length_cons] at hlen
    omega

/-- What is charged is charged to a process held, or told by a line 'finished'. -/
theorem charged_step (h : FiguresInv l) (hok : Deliverable l a) (hstep : LoopStep l a l') :
    Dated l'.scheduler ∧ l'.scheduler.settled =
      (l'.scheduler.finishedRows.map fun r => r.standing.executionTime).sum := by
  have hsame {s : Scheduler} (hset : s.settled = l.scheduler.settled)
      (hrows : s.finishedRows = l.scheduler.finishedRows) : s.settled =
        (s.finishedRows.map fun r => r.standing.executionTime).sum := by
    rw [hset, hrows]
    exact h.settled
  have hsound := h.clocked.sound
  cases hstep with
  | @sigusr2 i hp =>
    have hfeed := hsound.feed i
    have hdated : Dated (l.scheduler.feed i) := ⟨h.dated.started, h.dated.unstarted⟩
    have hclk : l.clock ≠ -1 := by
      have := h.clocked.currentTime
      have := h.clocked.currentTime_le
      omega
    obtain ⟨hnil, heq⟩ | ⟨process, hc, hor⟩ := completion_cases (l.scheduler.feed i) l.clock
    · show Dated ((l.scheduler.feed i).handleProcessCompletion l.clock) ∧
        ((l.scheduler.feed i).handleProcessCompletion l.clock).settled = _
      rw [Loop.complete, heq]
      exact ⟨⟨h.dated.started, h.dated.unstarted⟩, hsame rfl rfl⟩
    · have hturn := completion_turnover hfeed hdated (current_some hc) hclk
      obtain ⟨r, hrows, -, hexec⟩ := retire_rows (hfeed.withClock l.clock) hc
      have hlog : ((l.scheduler.feed i).handleProcessCompletion l.clock).finishedRows =
          l.scheduler.finishedRows ++ [r] := by
        refine Eq.trans ?_ hrows
        rcases hor with hor | hor
        · rw [hor]
        · obtain ⟨value, hret, -⟩ := retire_spec (hfeed.withClock l.clock) hc
          rw [hor]
          exact move_rows (contextSwitching_move hret)
      refine ⟨hturn.dated, ?_⟩
      show ((l.scheduler.feed i).handleProcessCompletion l.clock).settled = _
      rw [hturn.settled, Loop.complete, hlog, List.map_append, List.sum_append, ← h.settled]
      simp only [List.map_cons, List.map_nil, List.sum_cons, List.sum_nil, add_zero, hexec]
      rfl
  | @receive p i hp =>
    obtain ⟨hsem, -, hlen⟩ := hok
    have hfeed := hsound.feed i
    have hdated : Dated (l.scheduler.feed i) := ⟨h.dated.started, h.dated.unstarted⟩
    have hclk : (l.scheduler.feed i).current ≠ none → (l.scheduler.feed i).clockValue ≠ -1 := by
      intro hne heq
      have hpos := h.clocked.current hne
      have heq : l.scheduler.clockValue = -1 := heq
      omega
    have harr := conserved_arrival (conserved_preserved.feed _ i h.conserved) hsem (Or.inr hlen)
    have hrows : ((l.scheduler.feed i).receiveMessage p).finishedRows = l.scheduler.finishedRows :=
      receive_rows hfeed hsem
    rcases receiveMessage_turnover hfeed hsem hdated hclk
      (fun _ hover => room_of_overtaken harr.room hover) with hturn | hturn
    · exact ⟨hturn.dated, hsame (hturn.settled.trans (add_zero _)) hrows⟩
    · exact ⟨hturn.dated, hsame (hturn.settled.trans (add_zero _)) hrows⟩
  | @runAlgorithm i hp =>
    have hfeed := hsound.feed i
    have hclk : (l.scheduler.feed i).clockValue ≠ -1 := by
      have := h.clocked.run hp
      show l.scheduler.clockValue ≠ -1
      omega
    have hroom : (l.scheduler.feed i).Preempts → HasRoom (l.scheduler.feed i) := by
      intro hpre
      unfold Preempts at hpre
      split at hpre
      · exact absurd hpre id
      · exact room_of_overtaken h.conserved.room hpre
      · exact Or.inl ‹_›
    have hcarried := runAlgorithm_carried hfeed ⟨h.dated.started, h.dated.unstarted⟩ hclk hroom
    have hrows : (l.scheduler.feed i).runAlgorithm.finishedRows =
        (l.scheduler.feed i).finishedRows :=
      moves_rows (runAlgorithm_moves hfeed)
    exact ⟨hcarried.dated, hsame hcarried.settled hrows⟩
  | grant hp =>
    have hturn := grantTick_turnover h.dated
    exact ⟨hturn.dated, hsame (hturn.settled.trans (add_zero _)) (grant_rows _)⟩
  | @refresh i hp =>
    have hfeed := hsound.feed i
    have hcarried := updateCurrent_carried hfeed ⟨h.dated.started, h.dated.unstarted⟩
    have hrows : (l.scheduler.feed i).updateCurrent.finishedRows =
        (l.scheduler.feed i).finishedRows :=
      moves_rows (updateCurrent_moves hfeed)
    exact ⟨hcarried.dated, hsame hcarried.settled hrows⟩
  | _ => exact ⟨⟨h.dated.started, h.dated.unstarted⟩, hsame rfl rfl⟩

theorem figuresInv_step (h : FiguresInv l) (hok : Deliverable l a) (hstep : LoopStep l a l') :
    FiguresInv l' := by
  have hsem := deliverable_semids hok
  obtain ⟨hdated, hsettled⟩ := charged_step h hok hstep
  refine ⟨clocked_step h.clocked hsem hstep, ?_, ?_, hdated, hsettled⟩
  · refine conserved_preserved.step h.conserved ?_ hstep
    rintro p i rfl
    exact ⟨hok.1, Or.inr hok.2.2⟩
  · refine (tabled_preserved.step ⟨h.clocked.sound, h.tabled⟩ ?_ hstep).2
    rintro p i rfl
    exact hok.1

theorem figuresInv_initial (algorithm : SchedulingAlgorithm) (quantum : ℤ) {clk : ℤ}
    (hclk : 0 ≤ clk) : FiguresInv (Loop.initial algorithm quantum clk) := by
  have hheld := initial_held algorithm quantum clk
  refine ⟨clocked_initial algorithm quantum hclk, conserved_initial algorithm quantum clk,
    ⟨rfl, rfl, rfl, fun _ => rfl, fun _ => rfl⟩, ⟨?_, ?_⟩, ?_⟩
  · intro p hp
    have hp : (Scheduler.initial algorithm quantum clk).current = some p := hp
    rw [current_eq_none.mpr rfl] at hp
    cases hp
  · intro _ p hp
    have hp : p ∈ (Scheduler.initial algorithm quantum clk).held := hp
    rw [hheld] at hp
    cases hp
  · show (Scheduler.initial algorithm quantum clk).settled = _
    rw [settled_nil hheld]
    rfl

/-- When the loop has been left, what the statistics are computed from can be told from
`scheduler.log` alone: the counts, the first entries of the two arrays, and `active_cpu_time`. -/
theorem figures_told (wta : ℤ → ℤ → List Char) (hwta : ∀ ta total, '\n' ∉ wta ta total)
    (algorithm : SchedulingAlgorithm) (quantum : ℤ) (clk : ℕ) (as : List LoopAct) :
    Always (Restrict Deliverable LoopStep) (Loop.initial algorithm quantum clk) as fun l =>
      let told := finishedInLog (schedulerText wta l.scheduler.trace)
      l.point = .exited →
        l.scheduler.processCount = told.length ∧ l.scheduler.finishedProcesses = told.length ∧
        (told.length ≤ 100 →
          l.scheduler.turnaroundTimes.take told.length = told.map LogLine.turnaround ∧
          l.scheduler.waitTimes.take told.length =
            told.map fun r => r.turnaround - r.standing.executionTime) ∧
        l.scheduler.activeCpuTime = (told.map fun r => r.standing.executionTime).sum := by
  intro pre l _ ht
  have hinv := ht.invariant (P := fun l => FiguresInv l ∧
    (l.point = .exited → l.scheduler.isDone = true)) ?_ ?_
  · obtain ⟨h, hdone⟩ := hinv
    have htold : finishedInLog (schedulerText wta l.scheduler.trace) = l.scheduler.finishedRows := by
      rw [finishedInLog, lines_schedulerText hwta, finishedRows]
    intro told hp
    rw [show told = l.scheduler.finishedRows from htold]
    obtain ⟨-, hready, hc⟩ := isDone_idle (hdone hp)
    have hheld : l.scheduler.held = [] := (held_none hc).trans hready
    have hall := h.conserved.all.length_eq
    rw [heldIds, hheld, List.map_nil, List.nil_append, ← h.conserved.received,
      ← h.conserved.finished] at hall
    refine ⟨hall.symm.trans h.tabled.count, h.tabled.count,
      fun hle => ⟨h.tabled.turnaround hle, h.tabled.wait hle⟩, ?_⟩
    rw [← settled_nil hheld]
    exact h.settled
  · rintro l a l' ⟨h, hdone⟩ ⟨hok, hstep⟩
    exact ⟨figuresInv_step h hok hstep, exited_done hstep hdone⟩
  · exact ⟨figuresInv_initial algorithm quantum (Int.natCast_nonneg clk), fun hp => by cases hp⟩

/-- Two processes of one and two units, one after the other. -/
def twoProcessesRun : List LoopAct :=
  [.advance {}, .downNb true,
    .receive { emptyFront with idFromFile := 1, executionTime := 1, syncSemid := 5 } {},
    .receive { emptyFront with idFromFile := 2, executionTime := 2, syncSemid := 6 } {}, .noMessage] ++
  List.replicate 6 (.advance {}) ++
  [.tick, .sigusr2 {}, .advance {}, .advance {}, .downNb true, .noMessage, .tick] ++
  List.replicate 6 (.advance {}) ++
  [.tick, .tick, .sigusr2 {}, .sigusr1, .advance {}, .advance {}]

theorem figures_told_two :
    ∃ l, Trace (Restrict Deliverable LoopStep) (Loop.initial .HPF 0 0) twoProcessesRun l ∧
      l.point = .exited ∧ l.scheduler.activeCpuTime =
        ((finishedInLog (schedulerText (fun _ _ => "1.00".toList) l.scheduler.trace)).map
          fun r => r.standing.executionTime).sum := by
  obtain ⟨l, hrun, htest⟩ := exists_trace_of_execute (fun _ _ _ => loopStep_of_next)
    (show (execute Deliverable Loop.next (Loop.initial .HPF 0 0) twoProcessesRun).any
      (fun l => l.point = .exited ∧ l.scheduler.activeCpuTime = 3) = true by decide +kernel)
  obtain ⟨hp, -⟩ := of_decide_eq_true htest
  have htold := figures_told (fun _ _ => "1.00".toList) (fun _ _ => by decide) .HPF 0 0
    twoProcessesRun _ l (List.prefix_refl _) hrun hp
  exact ⟨l, hrun, hp, htold.2.2.2⟩

end KernelSim
