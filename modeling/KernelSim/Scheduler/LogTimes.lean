import KernelSim.Scheduler.Clock
import Mathlib.Data.Int.Order.Basic

/-! The times in `scheduler.log`, when the completion of a process may be handled at any moment. -/
namespace KernelSim
open Runs Relation Scheduler

/-- The time of a line of the log. -/
def Effect.logTime : Effect → Option ℤ
  | .logged _ t _ _ => some t
  | _ => none

/-- The finish time in the last line about a process. -/
def Effect.finishTime : Effect → Option ℤ
  | .logged .finished _ _ f => some f
  | _ => none

/-- The effect is no line of the log, or one written at `clk`. -/
def Effect.At (clk : ℤ) : Effect → Prop
  | .logged event t _ f => t = clk ∧ (event = .finished → f = clk)
  | _ => True

namespace Scheduler

variable {s s' t : Scheduler} {p q : PCB} {process : ℕ} {clk c : ℤ} {sent : Bool} {e : Effect}

def logTimes (s : Scheduler) : List ℤ := s.trace.filterMap Effect.logTime

def finishTimes (s : Scheduler) : List ℤ := s.trace.filterMap Effect.finishTime

/-- What is done from `s` to `s'` is logged at `clk`. -/
def LogsAt (clk : ℤ) (s s' : Scheduler) : Prop :=
  ∃ es, s'.trace = s.trace ++ es ∧ ∀ e ∈ es, e.At clk

theorem LogsAt.of_eq (h : s'.trace = s.trace) : LogsAt clk s s' := ⟨[], by simp [h]⟩

theorem LogsAt.trans (h : LogsAt clk s t) (h' : LogsAt clk t s') : LogsAt clk s s' := by
  obtain ⟨es, ht, hes⟩ := h
  obtain ⟨fs, ht', hfs⟩ := h'
  refine ⟨es ++ fs, by rw [ht', ht, List.append_assoc], fun e he => ?_⟩
  exact (List.mem_append.mp he).elim (hes e) (hfs e)

theorem at_cont (he : e ∈ contEffects (dispatchEvent q) clk sent p) : e.At clk := by
  rcases mem_contEffects he with rfl | rfl
  · trivial
  · refine ⟨rfl, fun h => ?_⟩
    rcases dispatchEvent_cases q with heq | heq <;> simp [heq] at h

theorem at_stop (he : e ∈ stopEffects clk sent p) : e.At clk := by
  rcases mem_stopEffects he with rfl | rfl | rfl
  · trivial
  · exact ⟨rfl, fun h => by cases h⟩
  · trivial

theorem at_retire {finished count : ℕ} {value : ℤ}
    (he : e ∈ retireEffects clk finished count value p) : e.At clk := by
  rcases List.mem_append.mp he with he | he
  · split at he
    · rw [List.mem_singleton.mp he]
      trivial
    · cases he
  · simp only [List.mem_cons, List.not_mem_nil, or_false] at he
    rcases he with rfl | rfl | rfl
    · exact ⟨rfl, fun _ => rfl⟩
    · trivial
    · trivial

theorem moved_logsAt (h : Moved s s') : LogsAt s.clockValue s s' := by
  rcases h.outcome with ⟨hread, -⟩ | hturn
  · exact .of_eq hread.trace
  · cases hturn with
    | kept _ _ _ _ ht => exact .of_eq ht
    | idle _ _ _ _ ht => exact .of_eq ht
    | dispatched q _ _ _ ht => exact ⟨_, ht, fun _ => at_cont⟩
    | replaced p q _ _ _ _ _ _ ht =>
      rw [List.append_assoc] at ht
      refine ⟨_, ht, fun e he => ?_⟩
      exact (List.mem_append.mp he).elim at_stop at_cont

theorem moveds_logsAt (h : ReflTransGen Moved s s') : LogsAt s.clockValue s s' := by
  induction h with
  | refl => exact .of_eq rfl
  | tail hms hm ih => exact ih.trans (moved_clockValue hms ▸ moved_logsAt hm)

theorem arrival_logsAt (hs : Sound s) (hsem : 0 < p.syncSemid) (clk : ℤ) :
    LogsAt clk s (s.handleProcessArrival p) := by
  obtain ⟨-, -, -, -, -, ht⟩ := handleProcessArrival_spec hs hsem
  refine ⟨_, ht, fun e he => ?_⟩
  rw [List.mem_singleton.mp he]
  trivial

theorem retire_logsAt (hs : Sound s) (hc : s.currentProcess = some process) :
    LogsAt s.clockValue s (s.retire process) := by
  obtain ⟨value, -, -, -, -, ht⟩ := retire_spec hs hc
  exact ⟨_, ht, fun _ => at_retire⟩

/-- Reception logs only for a current process that it preempts. -/
theorem receive_logsAt (hs : Sound s) (hsem : 0 < p.syncSemid)
    (hclk : s.current ≠ none → clk = s.clockValue) : LogsAt clk s (s.receiveMessage p) := by
  obtain ⟨hsound, hb, hc, -⟩ := handleProcessArrival_spec hs hsem
  have harr := arrival_logsAt hs hsem clk
  obtain ⟨hmoved, hor⟩ := preemptOnArrival_moved hsound
  have hrun : LogsAt clk s (s.handleProcessArrival p).preemptOnArrival := by
    rcases hor with heq | ⟨-, hcur, -⟩
    · rw [heq]
      exact harr
    · have heq : clk = (s.handleProcessArrival p).clockValue :=
        (hclk (hc ▸ hcur)).trans hb.clockValue.symm
      exact harr.trans (heq ▸ moveds_logsAt hmoved)
  obtain ⟨_, heq⟩ := receiveMessage_eq s p
  rw [heq]
  exact hrun

theorem complete_logsAt (hs : Sound s) : LogsAt s.clockValue s s.completeCurrent := by
  rcases completeCurrent_moved hs with ⟨-, heq⟩ | ⟨process, hc, heq | ⟨-, hmoved⟩⟩
  · rw [heq]
    exact .of_eq rfl
  · rw [heq]
    exact retire_logsAt hs hc
  · obtain ⟨_, -, hb, -⟩ := retire_spec hs hc
    have hsame : (s.retire process).clockValue = s.clockValue := hb.clockValue
    exact (retire_logsAt hs hc).trans (hsame ▸ moved_logsAt hmoved)

/-- The times of the log so far: in order, and none is the sentinel. -/
structure Chronological (s : Scheduler) : Prop where
  sorted : s.logTimes.Pairwise (· ≤ ·)
  real : ∀ t ∈ s.logTimes, 0 ≤ t
  finishes : ∀ f ∈ s.finishTimes, f ∈ s.logTimes

/-- Nothing is logged for later than `clk`. -/
def LogBound (s : Scheduler) (clk : ℤ) : Prop := ∀ t ∈ s.logTimes, t ≤ clk

theorem LogBound.mono (h : s.LogBound clk) (hle : clk ≤ c) : s.LogBound c :=
  fun t ht => (h t ht).trans hle

/-- Lines written at a time that no line so far is later than. -/
theorem Chronological.append (hs : Chronological s) (hb : s.LogBound clk) (h0 : 0 ≤ clk)
    (h : LogsAt clk s s') : Chronological s' ∧ s'.LogBound clk := by
  obtain ⟨es, ht, hes⟩ := h
  have htimes : s'.logTimes = s.logTimes ++ es.filterMap Effect.logTime := by simp [logTimes, ht]
  have hfinish : s'.finishTimes = s.finishTimes ++ es.filterMap Effect.finishTime := by
    simp [finishTimes, ht]
  have hnew : ∀ t ∈ es.filterMap Effect.logTime, t = clk := by
    intro t hin
    obtain ⟨e, he, hte⟩ := List.mem_filterMap.mp hin
    have hat := hes e he
    cases e <;> cases hte
    exact hat.1
  have hbound : s'.LogBound clk := by
    intro t hin
    rw [htimes, List.mem_append] at hin
    exact hin.elim (hb t) fun hin => (hnew t hin).le
  refine ⟨⟨?_, ?_, ?_⟩, hbound⟩
  · rw [htimes, List.pairwise_append]
    refine ⟨hs.sorted, ?_, fun a ha b hin => (hb a ha).trans (hnew b hin).ge⟩
    exact List.pairwise_of_forall_mem_list fun a ha b hin => by rw [hnew a ha, hnew b hin]
  · intro t hin
    rw [htimes, List.mem_append] at hin
    exact hin.elim (hs.real t) fun hin => h0.trans (hnew t hin).ge
  · intro f hin
    rw [hfinish, List.mem_append] at hin
    rw [htimes, List.mem_append]
    refine hin.imp (hs.finishes f) fun hin => ?_
    obtain ⟨e, he, hfe⟩ := List.mem_filterMap.mp hin
    have hat := hes e he
    cases e with
    | logged event t p f' =>
      cases event <;> cases hfe
      rw [hat.2 rfl, ← hat.1]
      exact List.mem_filterMap.mpr ⟨_, he, rfl⟩
    | _ => cases hfe

end Scheduler

/-- The time that the loop copies to `clockValue` is not earlier than the one that is there, which a
handler may have read since. -/
def ClockKept (l : Loop) : LoopAct → Prop
  | .advance _ => l.point = .assign → l.scheduler.clockValue ≤ l.currentTime
  | _ => True

/-- What bounds the times of the log at each point of the loop. -/
def TimesAt (l : Loop) : Prop :=
  match l.point with
  | .receive | .getClk => True
  | .compare | .assign => l.scheduler.LogBound (max l.currentTime l.scheduler.clockValue)
  | _ => l.scheduler.LogBound l.scheduler.clockValue

structure LogInv (l : Loop) : Prop extends Clocked l where
  chronological : Chronological l.scheduler
  bound : l.scheduler.LogBound l.clock
  bound_current : l.scheduler.current ≠ none → l.scheduler.LogBound l.scheduler.clockValue
  bound_point : TimesAt l

variable {l l' : Loop} {a : LoopAct}

/-- A bound by `clockValue` is enough at every point. -/
theorem timesAt_of_bound (h : l.scheduler.LogBound l.scheduler.clockValue) : TimesAt l := by
  unfold TimesAt
  split
  · trivial
  · trivial
  · exact h.mono (le_max_right _ _)
  · exact h.mono (le_max_right _ _)
  · exact h

theorem logInv_complete (hl : LogInv l) {i : Inputs} (hc : Clocked (l.complete i)) :
    LogInv (l.complete i) := by
  have hsound := (hl.sound.feed i).withClock l.clock
  have hnow := l.complete_clockValue i
  have hbefore : Chronological { l.scheduler.feed i with clockValue := l.clock } :=
    ⟨hl.chronological.sorted, hl.chronological.real, hl.chronological.finishes⟩
  obtain ⟨hchron, hb⟩ := hbefore.append hl.bound (hl.currentTime.trans hl.currentTime_le)
    (complete_logsAt hsound)
  have hbound : (l.complete i).scheduler.LogBound (l.complete i).scheduler.clockValue :=
    hnow.symm ▸ hb
  exact ⟨hc, hchron, hb, fun _ => hbound, timesAt_of_bound hbound⟩

theorem logInv_receive (hl : LogInv l) {p : PCB} {i : Inputs} (hp : l.point = .receive)
    (hsem : 0 < p.syncSemid)
    (hc : Clocked { l with scheduler := (l.scheduler.feed i).receiveMessage p }) :
    LogInv { l with scheduler := (l.scheduler.feed i).receiveMessage p } := by
  have hsound := hl.sound.feed i
  have hbefore : Chronological (l.scheduler.feed i) :=
    ⟨hl.chronological.sorted, hl.chronological.real, hl.chronological.finishes⟩
  have hpoint : TimesAt { l with scheduler := (l.scheduler.feed i).receiveMessage p } := by
    simp only [TimesAt, hp]
  by_cases hcur : l.scheduler.current = none
  · have hlogs : LogsAt l.clock (l.scheduler.feed i) ((l.scheduler.feed i).receiveMessage p) :=
      receive_logsAt hsound hsem (absurd hcur)
    obtain ⟨hchron, hb⟩ := hbefore.append hl.bound (hl.currentTime.trans hl.currentTime_le) hlogs
    refine ⟨hc, hchron, hb, fun hne => ?_, hpoint⟩
    rcases (receiveMessage_clockValue hsound hsem).2 with ⟨-, hcur'⟩ | ⟨-, hnone⟩
    · exact absurd hcur hcur'
    · exact absurd hnone hne
  · have hlogs := receive_logsAt hsound hsem (fun _ => rfl)
    obtain ⟨hchron, hb⟩ := hbefore.append (hl.bound_current hcur) (hl.current hcur) hlogs
    have hclk : (l.scheduler.feed i).clockValue ≤ l.clock := hl.clockValue_le
    refine ⟨hc, hchron, hb.mono hclk, fun hne => ?_, hpoint⟩
    rcases (receiveMessage_clockValue hsound hsem).2 with ⟨heq, -⟩ | ⟨-, hnone⟩
    · exact hb.mono heq.ge
    · exact absurd hnone hne

theorem logInv_runAlgorithm (hl : LogInv l) {i : Inputs} (hp : l.point = .runAlgorithm)
    (hc : Clocked { l with scheduler := (l.scheduler.feed i).runAlgorithm, point := .grant }) :
    LogInv { l with scheduler := (l.scheduler.feed i).runAlgorithm, point := .grant } := by
  have hmoved := runAlgorithm_moved (hl.sound.feed i)
  have hv : (l.scheduler.feed i).runAlgorithm.clockValue = l.scheduler.clockValue :=
    moved_clockValue (s := l.scheduler.feed i) hmoved
  have hbefore : Chronological (l.scheduler.feed i) :=
    ⟨hl.chronological.sorted, hl.chronological.real, hl.chronological.finishes⟩
  have hb : l.scheduler.LogBound l.scheduler.clockValue := by
    have hpoint := hl.bound_point
    simpa only [TimesAt, hp] using hpoint
  obtain ⟨hchron, hb'⟩ := hbefore.append hb (hl.run hp) (moveds_logsAt hmoved)
  have hbound : (l.scheduler.feed i).runAlgorithm.LogBound
      (l.scheduler.feed i).runAlgorithm.clockValue := hb'.mono hv.ge
  exact ⟨hc, hchron, hb'.mono hl.clockValue_le, fun _ => hbound, timesAt_of_bound hbound⟩

/-- Nothing is logged, and the loop goes on with the same `clockValue`. -/
theorem LogInv.goto (hl : LogInv l) (hc : Clocked l') (hclk : l.clock ≤ l'.clock)
    (hv : l'.scheduler.clockValue = l.scheduler.clockValue)
    (hcur : l'.scheduler.current ≠ none → l.scheduler.current ≠ none)
    (htimes : l'.scheduler.logTimes = l.scheduler.logTimes)
    (hfinish : l'.scheduler.finishTimes = l.scheduler.finishTimes) (hpoint : TimesAt l') :
    LogInv l' := by
  have hbound : ∀ {c}, l.scheduler.LogBound c → l'.scheduler.LogBound c := by
    intro c hb t ht
    exact hb t (htimes ▸ ht)
  have hchron := hl.chronological
  refine ⟨hc, ⟨?_, ?_, ?_⟩, hbound (hl.bound.mono hclk), fun hne => ?_, hpoint⟩
  · rw [htimes]
    exact hchron.sorted
  · rw [htimes]
    exact hchron.real
  · rw [htimes, hfinish]
    exact hchron.finishes
  · rw [hv]
    exact hbound (hl.bound_current (hcur hne))

theorem logInv_step (hl : LogInv l) (hok : SemidsValid l a) (hk : ClockKept l a)
    (h : LoopStep l a l') : LogInv l' := by
  have hc := clocked_step hl.toClocked hok h
  have hat := hl.bound_point
  have hhere : ∀ {q}, l.point = q → q ≠ .receive → q ≠ .getClk → q ≠ .compare → q ≠ .assign →
      l.scheduler.LogBound l.scheduler.clockValue := by
    rintro q rfl h1 h2 h3 h4
    unfold TimesAt at hat
    split at hat <;> simp_all
  cases h with
  | tick =>
    have hle : l.clock ≤ l.clock + 1 := by omega
    exact hl.goto hc hle rfl id rfl rfl hat
  | sigusr1 hp => exact hl.goto hc (le_refl _) rfl id rfl rfl hat
  | sigusr2 hp => exact logInv_complete hl hc
  | exit hp hd =>
    have hb := hhere hp (by decide) (by decide) (by decide) (by decide)
    exact hl.goto hc (le_refl _) rfl id rfl rfl (timesAt_of_bound hb)
  | test hp hd =>
    have hb := hhere hp (by decide) (by decide) (by decide) (by decide)
    exact hl.goto hc (le_refl _) rfl id rfl rfl (timesAt_of_bound hb)
  | refused hp =>
    have hb := hhere hp (by decide) (by decide) (by decide) (by decide)
    exact hl.goto hc (le_refl _) rfl id rfl rfl (timesAt_of_bound hb)
  | taken hp => exact hl.goto hc (le_refl _) rfl id rfl rfl trivial
  | receive hp => exact logInv_receive hl hp hok hc
  | noMessage hp => exact hl.goto hc (le_refl _) rfl id rfl rfl trivial
  | getClk hp => exact hl.goto hc (le_refl _) rfl id rfl rfl (hl.bound.mono (le_max_left _ _))
  | differs hp hne =>
    simp only [TimesAt, hp] at hat
    exact hl.goto hc (le_refl _) rfl id rfl rfl hat
  | equals hp heq =>
    simp only [TimesAt, hp, heq, max_self] at hat
    exact hl.goto hc (le_refl _) rfl id rfl rfl (timesAt_of_bound hat)
  | assign hp =>
    -- a handler may have written a later time here, and the condition says it has not
    have hle : l.scheduler.clockValue ≤ l.currentTime := hk hp
    simp only [TimesAt, hp, max_eq_left hle] at hat
    have hchron := hl.chronological
    exact ⟨hc, ⟨hchron.sorted, hchron.real, hchron.finishes⟩, hl.bound, fun _ => hat,
      timesAt_of_bound hat⟩
  | runAlgorithm hp => exact logInv_runAlgorithm hl hp hc
  | grant hp =>
    have hb := hhere hp (by decide) (by decide) (by decide) (by decide)
    cases hcp : l.scheduler.currentProcess with
    | none =>
      rw [grantTick_none hcp] at hc ⊢
      exact hl.goto hc (le_refl _) rfl id rfl rfl (timesAt_of_bound hb)
    | some process =>
      rw [grantTick_some hcp] at hc ⊢
      have htimes : (l.scheduler.emit (.grant (l.scheduler.pcbs process))).logTimes =
          l.scheduler.logTimes := by simp [logTimes, emit, Effect.logTime]
      have hfinish : (l.scheduler.emit (.grant (l.scheduler.pcbs process))).finishTimes =
          l.scheduler.finishTimes := by simp [finishTimes, emit, Effect.finishTime]
      refine hl.goto hc (le_refl _) rfl id htimes hfinish (timesAt_of_bound fun t ht => ?_)
      exact hb t (htimes ▸ ht)
  | @refresh i hp =>
    have hb := hhere hp (by decide) (by decide) (by decide) (by decide)
    have hread := updateCurrent_reread (hl.sound.feed i)
    have hv : (l.scheduler.feed i).updateCurrent.clockValue = l.scheduler.clockValue :=
      moved_clockValue (s := l.scheduler.feed i) (updateCurrent_moved (hl.sound.feed i))
    have htrace : (l.scheduler.feed i).updateCurrent.trace = l.scheduler.trace := hread.trace
    have htimes : (l.scheduler.feed i).updateCurrent.logTimes = l.scheduler.logTimes := by
      rw [logTimes, htrace, logTimes]
    have hfinish : (l.scheduler.feed i).updateCurrent.finishTimes = l.scheduler.finishTimes := by
      rw [finishTimes, htrace, finishTimes]
    have hcur : (l.scheduler.feed i).updateCurrent.current ≠ none → l.scheduler.current ≠ none := by
      rintro hne hnone
      rcases hread.current with heq | ⟨p, _, hsome, -⟩
      · exact hne (heq.trans hnone)
      · have hsome' : l.scheduler.current = some p := hsome
        simp [hnone] at hsome'
    refine hl.goto hc (le_refl _) hv hcur htimes hfinish (timesAt_of_bound fun t ht => ?_)
    exact (hb t (htimes ▸ ht)).trans hv.ge
  | again hp hne =>
    have hb := hhere hp (by decide) (by decide) (by decide) (by decide)
    exact hl.goto hc (le_refl _) rfl id rfl rfl (timesAt_of_bound hb)

/-- The times in the log are in order and real, and none is later than the exit. -/
structure LogTimesKept (l : Loop) : Prop where
  sorted : l.scheduler.logTimes.Pairwise (· ≤ ·)
  real : ∀ t ∈ l.scheduler.logTimes, t ≠ -1
  exited : l.point = .exited → ∀ f ∈ l.scheduler.finishTimes, f ≤ l.scheduler.clockValue

theorem LogInv.kept (hl : LogInv l) : LogTimesKept l := by
  refine ⟨hl.chronological.sorted, fun t ht => ?_, fun hp f hf => ?_⟩
  · have := hl.chronological.real t ht
    omega
  · have hat := hl.bound_point
    simp only [TimesAt, hp] at hat
    exact hat f (hl.chronological.finishes f hf)

/-- Messages are valid, and no handler has read a later time than the one about to be copied. -/
def LogKeeps (l : Loop) (a : LoopAct) : Prop := SemidsValid l a ∧ ClockKept l a

/-- In every run in which no handler gets between reading the clock and copying it, unless at the
same time, the times of the log are kept. -/
theorem logTimesKept_always (algorithm : SchedulingAlgorithm) (quantum : ℤ) (clk : ℕ)
    (as : List LoopAct) :
    Always (Restrict LogKeeps LoopStep) (Loop.initial algorithm quantum clk) as LogTimesKept := by
  intro pre l _ ht
  have hinv : LogInv l := by
    refine ht.invariant (P := LogInv) ?_ ?_
    · exact fun l a l' hl hstep => logInv_step hl hstep.1.1 hstep.1.2 hstep.2
    · refine ⟨clocked_initial algorithm quantum (Int.natCast_nonneg clk), ⟨.nil, ?_, ?_⟩, ?_, ?_, ?_⟩
      · intro t ht
        cases ht
      · intro f hf
        cases hf
      · intro t ht
        cases ht
      · exact fun hne => absurd rfl hne
      · intro t ht
        cases ht
  exact hinv.kept

/-- Time 1 is read, the first process ends at time 2, and the second is started at time 1. -/
def backwardsRun : List LoopAct :=
  [.advance {}, .downNb true, .receive (Process.newPcb ⟨1, 0, 1, 0, 64⟩ 101 11 21) {},
    .receive (Process.newPcb ⟨2, 0, 5, 1, 64⟩ 102 12 22) {}, .noMessage, .advance {}, .advance {},
    .advance {}, .advance {}, .advance {}, .advance {}, .tick, .advance {}, .advance {},
    .downNb true, .noMessage, .advance {}, .tick, .sigusr2 {}, .advance {}, .advance {},
    .advance {}]

/-- The times logged are then 0, 2 and 1. -/
theorem backwards_not_kept :
    ¬ Always (Restrict SemidsValid LoopStep) (Loop.initial .HPF 0 0) backwardsRun LogTimesKept := by
  intro h
  obtain ⟨l, hrun, htest⟩ := exists_trace_of_execute (fun _ _ _ => loopStep_of_next)
    (show (execute SemidsValid Loop.next (Loop.initial .HPF 0 0) backwardsRun).any
      (fun l => l.scheduler.logTimes == [0, 2, 1]) = true by decide +kernel)
  have hsorted := (h _ l (List.prefix_refl _) hrun).sorted
  rw [eq_of_beq htest] at hsorted
  revert hsorted
  decide

end KernelSim
