import KernelSim.Scheduler.Optimality
import KernelSim.Scheduler.Workload

/-! How many signals the scheduler sends and how many lines it writes, against the arrivals. -/
namespace KernelSim
open Runs Relation

/-- A call of `kill` with this signal. -/
def Effect.sends (signal : Signal) : Effect → Bool
  | .signal sent _ => sent = signal
  | _ => false

/-- A line of `scheduler.log`. -/
def Effect.isLine : Effect → Bool
  | .logged .. => true
  | _ => false

/-- The message brings a process with less time left than the current one was last seen to have. -/
def Loop.overtaken (l : Loop) : LoopAct → Bool
  | .receive p _ => l.scheduler.current.any fun c => p.executionTime < c.remainingTime
  | _ => false

namespace Scheduler

/-- How often a signal has been sent. -/
def sent (s : Scheduler) (signal : Signal) : ℕ := s.trace.countP (Effect.sends signal)

/-- How many lines have been written. -/
def lineCount (s : Scheduler) : ℕ := s.trace.countP Effect.isLine

/-- Each dispatch takes out of the ready processes what an arrival or a preemption put there, and
each line reports a signal or an end. -/
structure SignalsBalance (s : Scheduler) : Prop extends Conserved s where
  entered : s.receivedIds.length + s.sent .stop = s.sent .cont + s.ready.length
  lines : s.lineCount ≤ s.sent .cont + s.sent .stop + s.finishedIds.length

/-- What the arrivals and the `shorter` ones among them say about the signals and the lines. -/
structure SwitchesBounded (s : Scheduler) (shorter : ℕ) : Prop where
  shorter_le : shorter ≤ s.processCount
  stops : s.sent .stop ≤ shorter
  conts : s.sent .cont ≤ s.processCount + shorter
  lines : s.lineCount ≤ 2 * (s.processCount + shorter)

variable {s s' : Scheduler} {p : PCB} {process : ℕ} {es : List Effect} {signal : Signal}

theorem sent_append (ht : s'.trace = s.trace ++ es) :
    s'.sent signal = s.sent signal + es.countP (Effect.sends signal) := by
  rw [sent, ht, List.countP_append, sent]

theorem lineCount_append (ht : s'.trace = s.trace ++ es) :
    s'.lineCount = s.lineCount + es.countP Effect.isLine := by
  rw [lineCount, ht, List.countP_append, lineCount]

theorem sends_contEffects (event : ProcessEvent) (clk : ℤ) (sent : Bool) (p : PCB) :
    (contEffects event clk sent p).countP (Effect.sends .cont) = 1 ∧
      (contEffects event clk sent p).countP (Effect.sends .stop) = 0 ∧
      (contEffects event clk sent p).countP Effect.isLine ≤ 1 := by
  cases sent <;> simp [contEffects, Effect.sends, Effect.isLine]

theorem sends_stopEffects (clk : ℤ) (sent : Bool) (p : PCB) :
    (stopEffects clk sent p).countP (Effect.sends .cont) = 0 ∧
      (stopEffects clk sent p).countP (Effect.sends .stop) = 1 ∧
      (stopEffects clk sent p).countP Effect.isLine ≤ 1 := by
  cases sent <;> simp [stopEffects, Effect.sends, Effect.isLine, List.countP_cons]

theorem sends_retireEffects (clk : ℤ) (finished count : ℕ) (value : ℤ) (p : PCB) :
    (∀ signal, (retireEffects clk finished count value p).countP (Effect.sends signal) = 0) ∧
      (retireEffects clk finished count value p).countP Effect.isLine = 1 := by
  unfold retireEffects
  split <;> simp [Effect.sends, Effect.isLine, List.countP_cons]

/-- What a context switch sends. -/
theorem switched_sent (h : Switched s s') :
    s'.sent .stop = s.sent .stop ∨ s.current ≠ none ∧ s'.sent .stop = s.sent .stop + 1 := by
  cases h with
  | kept p hc hc' hr ht =>
    left
    rw [sent, ht, sent]
  | idle hc hr hc' hr' ht =>
    left
    rw [sent, ht, sent]
  | dispatched q b hc hr hc' ht =>
    left
    rw [sent_append ht, (sends_contEffects _ _ _ _).2.1, Nat.add_zero]
  | replaced p q value stopped b hc hr hroom hc' ht =>
    rw [List.append_assoc] at ht
    right
    rw [sent_append ht, List.countP_append, (sends_stopEffects _ _ _).2.1,
      (sends_contEffects _ _ _ _).2.1]
    exact ⟨by simp [hc], rfl⟩

/-- A move sends as many signals as processes change their places. -/
theorem move_sent (hroom : s.algorithm = .RR ∨ s.held.length ≤ 1024) (h : Move s s') :
    ∃ stops conts, s'.sent .stop = s.sent .stop + stops ∧ s'.sent .cont = s.sent .cont + conts ∧
      s'.lineCount ≤ s.lineCount + stops + conts ∧
      s.ready.length + stops = s'.ready.length + conts := by
  have hquiet : s'.trace = s.trace → s'.ready.length = s.ready.length →
      ∃ stops conts, s'.sent .stop = s.sent .stop + stops ∧
        s'.sent .cont = s.sent .cont + conts ∧ s'.lineCount ≤ s.lineCount + stops + conts ∧
        s.ready.length + stops = s'.ready.length + conts := by
    intro ht hr
    refine ⟨0, 0, ?_, ?_, ?_, hr.symm⟩
    · rw [sent, ht, sent, Nat.add_zero]
    · rw [sent, ht, sent, Nat.add_zero]
    · rw [lineCount, ht, lineCount]
      exact Nat.le_refl _
  rcases h.outcome with hr | hw
  · exact hquiet hr.trace (congrArg List.length hr.ready)
  · cases hw with
    | kept p hc hc' hr ht => exact hquiet ht (congrArg List.length hr)
    | idle hc hr hc' hr' ht => exact hquiet ht (congrArg List.length (hr'.trans hr.symm))
    | dispatched q b hc hr hc' ht =>
      obtain ⟨hcont, hstop, hline⟩ := sends_contEffects (dispatchEvent q) s.clockValue b
        (q.dispatched s.clockValue)
      have hlen := hr.length_eq
      refine ⟨0, 1, ?_, ?_, ?_, hlen⟩
      · rw [sent_append ht, hstop]
      · rw [sent_append ht, hcont]
      · rw [lineCount_append ht]
        omega
    | replaced p q value stopped b hc hr hperm hc' ht =>
      rw [List.append_assoc] at ht
      obtain ⟨hcont, hstop, hline⟩ := sends_contEffects (dispatchEvent q) s.clockValue b
        (q.dispatched s.clockValue)
      obtain ⟨hcont', hstop', hline'⟩ := sends_stopEffects s.clockValue stopped
        (p.preempted s.clockValue value)
      rw [held_some hc] at hroom
      have hlen := (hperm hroom).length_eq
      rw [List.length_cons, List.length_cons] at hlen
      refine ⟨1, 1, ?_, ?_, ?_, by omega⟩
      · rw [sent_append ht, List.countP_append, hstop, hstop']
      · rw [sent_append ht, List.countP_append, hcont, hcont']
      · rw [lineCount_append ht, List.countP_append]
        omega

theorem balance_move (hs : SignalsBalance s) (h : Move s s') : SignalsBalance s' := by
  obtain ⟨hrec, hfin⟩ := move_ids h
  obtain ⟨stops, conts, hstops, hconts, hlines, hready⟩ := move_sent hs.room h
  have hent := hs.entered
  have hold := hs.lines
  refine ⟨conserved_move hs.toConserved h, ?_, ?_⟩
  · rw [hrec]
    omega
  · rw [hfin]
    omega

theorem balance_same (hs : SignalsBalance s) (hcons : Conserved s') (ht : s'.trace = s.trace)
    (hr : s'.ready = s.ready) : SignalsBalance s' := by
  have hent := hs.entered
  have hold := hs.lines
  simp only [receivedIds, finishedIds, sent, lineCount] at hent hold
  refine ⟨hcons, ?_, ?_⟩ <;> simp only [receivedIds, finishedIds, sent, lineCount, ht, hr]
  · exact hent
  · exact hold

theorem balance_arrival (hs : SignalsBalance s) (hsem : 0 < p.syncSemid)
    (hroom : s.algorithm = .RR ∨ s.held.length < 1024) :
    SignalsBalance (s.handleProcessArrival p) := by
  obtain ⟨-, -, -, -, hperm, ht⟩ := handleProcessArrival_spec hs.toSound hsem
  obtain ⟨hrec, hfin⟩ := arrival_ids hs.toSound hsem
  have hlen : s.ready.length ≤ s.held.length := by simp [held]
  have hready := (hperm (hroom.imp_right fun hlt => by omega)).length_eq
  have hent := hs.entered
  have hold := hs.lines
  have hnone : ∀ signal, [Effect.received { p with remainingTime := p.executionTime }].countP
      (Effect.sends signal) = 0 := fun _ => rfl
  refine ⟨conserved_arrival hs.toConserved hsem hroom, ?_, ?_⟩
  · rw [hrec, sent_append ht, sent_append ht, hnone, hnone, hready, List.length_append,
      List.length_singleton, List.length_cons]
    omega
  · rw [hfin, lineCount_append ht, sent_append ht, sent_append ht]
    exact hold

theorem balance_retire (hs : SignalsBalance s) (hcp : s.currentProcess = some process) :
    SignalsBalance (s.retire process) := by
  obtain ⟨value, -, -, -, hr, ht⟩ := retire_spec hs.toSound hcp
  obtain ⟨hrec, hfin⟩ := retire_ids hs.toSound hcp
  obtain ⟨hsent, hline⟩ := sends_retireEffects s.clockValue (s.finishedProcesses + 1)
    s.processCount value (s.pcbs process)
  have hent := hs.entered
  have hold := hs.lines
  refine ⟨conserved_retire hs.toConserved hcp, ?_, ?_⟩
  · rw [hrec, sent_append ht, sent_append ht, hsent, hsent, hr]
    exact hent
  · rw [hfin, lineCount_append ht, sent_append ht, sent_append ht, hsent, hsent, hline,
      List.length_append, List.length_singleton]
    omega

/-- The balance is kept under every algorithm. -/
theorem balance_preserved :
    Preserved SignalsBalance fun s p =>
      0 < p.syncSemid ∧ (s.algorithm = .RR ∨ s.held.length < 1024) where
  sound := fun _ hs => hs.toSound
  semid := fun _ _ hp => hp.1
  clock := fun _ clk hs => balance_same hs (conserved_preserved.clock _ clk hs.toConserved) rfl rfl
  feed := fun _ i hs => balance_same hs (conserved_preserved.feed _ i hs.toConserved) rfl rfl
  generator := fun _ hs =>
    balance_same hs (conserved_preserved.generator _ hs.toConserved) rfl rfl
  grant := fun s hs => by
    have hcons := conserved_preserved.grant _ hs.toConserved
    obtain ⟨hrec, hfin⟩ := grant_ids s
    have ht : s.grantTick.trace = s.trace ++ s.current.toList.map Effect.grant := by
      rw [grantTick_eq]
    have hnone : ∀ signal, (s.current.toList.map Effect.grant).countP (Effect.sends signal) = 0 ∧
        (s.current.toList.map Effect.grant).countP Effect.isLine = 0 := by
      intro signal
      cases s.current <;> simp [Effect.sends, Effect.isLine]
    have hent := hs.entered
    have hold := hs.lines
    refine ⟨hcons, ?_, ?_⟩
    · rw [hrec, sent_append ht, sent_append ht, (hnone _).1, (hnone _).1, grantTick_ready]
      exact hent
    · rw [hfin, lineCount_append ht, sent_append ht, sent_append ht, (hnone _).1, (hnone _).1,
        (hnone .stop).2]
      exact hold
  move := fun _ _ hs hm => balance_move hs hm
  arrival := fun _ _ hs hp => balance_arrival hs hp.1 hp.2
  retire := fun _ _ hs hc => balance_retire hs hc

/-! Under SRTN only an arrival can preempt. -/

/-- A shortest process stays current when the algorithm is run. -/
theorem runSRTN_sent (hs : Keyed s) (hgood : GoodReadings s) (hl : Least s) :
    s.runSRTNAlgorithm.sent .stop = s.sent .stop := by
  obtain ⟨hk, -, hleast⟩ := keyed_updateCurrent hs hgood
  have hread : s.updateCurrent.sent .stop = s.sent .stop := by
    rw [sent, (updateCurrent_reread hs.toSound).trace, sent]
  rw [runSRTNAlgorithm_eq, ← hread]
  split
  · rename_i hshorter
    rcases switched_sent (contextSwitching_spec hk.toSound).2.2 with heq | ⟨hne, -⟩
    · exact heq
    · obtain ⟨c, hc⟩ := Option.ne_none_iff_exists'.mp hne
      exact absurd hshorter (root_not_shorter (by simp [hk.algorithm]) hc (hleast hl c hc))
  · rfl

/-- One arrival stops at most one process, and only one with more time left. -/
theorem receiveMessage_sent (hs : Keyed s) (hgood : GoodReadings s) (hl : Least s)
    (hsem : 0 < p.syncSemid) (hroom : s.held.length < 1024) (h0 : 0 ≤ p.executionTime)
    (h1 : p.executionTime < 2 ^ 31) :
    (s.receiveMessage p).sent .stop = s.sent .stop ∨
      (s.receiveMessage p).sent .stop = s.sent .stop + 1 ∧
        ∃ c, s.current = some c ∧ p.executionTime < c.remainingTime := by
  obtain ⟨clk, heq⟩ := receiveMessage_eq s p
  have hsame : (s.receiveMessage p).sent .stop =
      (s.handleProcessArrival p).preemptOnArrival.sent .stop := by
    rw [heq]
    rfl
  have hk := keyed_arrival hs hsem hroom h0 h1
  obtain ⟨-, -, hcur, hsub, -, ht⟩ := handleProcessArrival_spec hs.toSound hsem
  have harr : (s.handleProcessArrival p).sent .stop = s.sent .stop := sent_append ht
  have hg : GoodReadings (s.handleProcessArrival p) := by
    unfold GoodReadings
    rw [hcur, handleProcessArrival_readings]
    exact hgood
  rw [hsame, ← harr]
  generalize s.handleProcessArrival p = t at *
  unfold preemptOnArrival
  split
  · rename_i hcond
    obtain ⟨hk', -, -⟩ := keyed_updateCurrent hk hg
    have hreread := updateCurrent_reread hk.toSound
    have hread : t.updateCurrent.sent .stop = t.sent .stop := by
      rw [sent, hreread.trace, sent]
    rw [runSRTNAlgorithm_eq, ← hread]
    split
    · rename_i hshorter
      refine (switched_sent (contextSwitching_spec hk'.toSound).2.2).imp_right ?_
      rintro ⟨-, hone⟩
      obtain ⟨process, hcp⟩ := Option.ne_none_iff_exists'.mp hcond.2
      have hc := current_some hcp
      obtain ⟨c', hc', hle, hready⟩ := reading_lowers hk hg hcp
      rw [← updateCurrent_some hcp] at hc' hready
      obtain ⟨process', hcp', rfl⟩ := Option.map_eq_some_iff.mp hc'
      have hgt := hshorter.2 process' hcp'
      have hroot := root_mem (by simp [hk'.algorithm]) hshorter.1
      refine ⟨hone, _, hcur.symm.trans hc, ?_⟩
      rw [hready] at hroot
      -- the others have no less left than the current process
      rcases List.mem_cons.mp (hsub.subset hroot) with hnew | hold
      · rw [hnew] at hgt
        exact lt_of_lt_of_le hgt hle
      · have := hl _ (hcur.symm.trans hc) _ hold
        omega
    · exact Or.inl rfl
  · exact Or.inl rfl

theorem completion_sent (hs : Sound s) (clk : ℤ) :
    (s.handleProcessCompletion clk).sent .stop = s.sent .stop := by
  have hclk := hs.withClock clk
  obtain ⟨-, heq⟩ | ⟨process, hcp, heq⟩ := completion_cases s clk
  · rw [heq]
    rfl
  · obtain ⟨value, hsound, -, hnone, -, ht⟩ := retire_spec hclk hcp
    have hret : (retire { s with clockValue := clk } process).sent .stop = s.sent .stop := by
      rw [sent_append ht, (sends_retireEffects _ _ _ _ _).1, Nat.add_zero]
      rfl
    rcases heq with heq | heq
    · rw [heq, hret]
    · rw [heq, ← hret]
      rcases switched_sent (contextSwitching_spec hsound).2.2 with heq | ⟨hne, -⟩
      · exact heq
      · exact absurd (current_eq_none.mpr hnone) hne

theorem balance_initial (algorithm : SchedulingAlgorithm) (quantum clk : ℤ) :
    SignalsBalance (initial algorithm quantum clk) := by
  have hready : (initial algorithm quantum clk).ready = [] := by
    cases algorithm <;> rfl
  refine ⟨conserved_initial algorithm quantum clk, ?_, Nat.le_refl _⟩
  rw [hready]
  rfl

end Scheduler

open Scheduler

variable {l l' : Loop} {a : LoopAct}

theorem loopStep_count (hs : Sound l.scheduler) (h : LoopStep l a l') :
    l'.scheduler.processCount = l.scheduler.processCount + a.brings.length := by
  cases h with
  | @sigusr2 i hp => exact (completion_books (l.scheduler.feed i) l.clock).2.1
  | @receive p i hp =>
    obtain ⟨clk, hb⟩ := receiveMessage_books (l.scheduler.feed i) p
    exact hb.processCount
  | @runAlgorithm i hp => exact (moves_books (runAlgorithm_moves (hs.feed i))).processCount
  | grant hp => exact (grantTick_books l.scheduler).processCount
  | @refresh i hp => exact (moves_books (updateCurrent_moves (hs.feed i))).processCount
  | _ => rfl

/-- A step stops a process only to make room for a shorter one that has just come in. -/
theorem loopStep_stops (hk : Keyed l.scheduler) (hl : Least l.scheduler) (hok : Measurable l a)
    (h : LoopStep l a l') :
    l'.scheduler.sent .stop ≤ l.scheduler.sent .stop + if l.overtaken a then 1 else 0 := by
  have hsame : ∀ s : Scheduler, s.sent .stop = l.scheduler.sent .stop →
      s.sent .stop ≤ l.scheduler.sent .stop + if l.overtaken a then 1 else 0 :=
    fun s heq => heq ▸ Nat.le_add_right _ _
  cases h with
  | @sigusr2 i hp => exact hsame _ (completion_sent (hk.toSound.feed i) l.clock)
  | @receive p i hp =>
    obtain ⟨hsem, h0, h1, hroom, hgood⟩ := hok
    rcases receiveMessage_sent (hk.feed i) hgood hl hsem hroom h0 h1 with heq | ⟨heq, c, hc, hlt⟩
    · exact hsame _ heq
    · have hc : l.scheduler.current = some c := hc
      rw [if_pos (by simp [Loop.overtaken, hc, hlt])]
      exact heq.le
  | @runAlgorithm i hp =>
    have halg : (l.scheduler.feed i).algorithm = .SRTN := hk.algorithm
    have hrun := runSRTN_sent (hk.feed i) hok hl
    refine hsame _ ?_
    simp only [Scheduler.runAlgorithm, halg]
    exact hrun
  | grant hp =>
    refine hsame _ ?_
    rw [grantTick_eq, sent_append rfl]
    cases l.scheduler.current <;> rfl
  | @refresh i hp =>
    refine hsame _ ?_
    rw [sent, (updateCurrent_reread (hk.toSound.feed i)).trace]
    rfl
  | _ => exact hsame _ rfl

/-- The loop, and how many of the processes received were shorter than the current one. -/
structure Overtaking where
  loop : Loop
  shorter : ℕ

structure OvertakingStep (w : Overtaking) (a : LoopAct) (w' : Overtaking) : Prop where
  step : LoopStep w.loop a w'.loop
  shorter : w'.shorter = w.shorter + if w.loop.overtaken a then 1 else 0

/-- A step stops the current process for a shorter arrival, and for nothing else. -/
def StopsForShorter (w : Overtaking) (a : LoopAct) : Prop :=
  ∀ l', LoopStep w.loop a l' →
    l'.scheduler.sent .stop ≤ w.loop.scheduler.sent .stop + if w.loop.overtaken a then 1 else 0

/-- The invariant of the runs of SRTN. -/
structure OvertakingInv (w : Overtaking) : Prop where
  keyed : Keyed w.loop.scheduler
  least : Least w.loop.scheduler
  balance : SignalsBalance w.loop.scheduler
  shorter : w.shorter ≤ w.loop.scheduler.processCount
  stops : w.loop.scheduler.sent .stop ≤ w.shorter

theorem overtakingInv_initial (quantum clk : ℤ) :
    OvertakingInv ⟨Loop.initial .SRTN quantum clk, 0⟩ :=
  have ⟨hkeyed, hleast⟩ := keyed_initial quantum clk
  ⟨hkeyed, hleast, balance_initial .SRTN quantum clk, Nat.le_refl _, Nat.le_refl _⟩

theorem overtakingInv_step {w w' : Overtaking} (h : OvertakingInv w) (hok : Measurable w.loop a)
    (hstep : OvertakingStep w a w') : OvertakingInv w' := by
  obtain ⟨hk, hl, hbal, hcount, hstops⟩ := h
  obtain ⟨hstep, hshorter⟩ := hstep
  have hcnt := loopStep_count hk.toSound hstep
  have hstop := loopStep_stops hk hl hok hstep
  obtain ⟨hk', hl'⟩ := keyed_step hk hl hok hstep
  refine ⟨hk', hl', ?_, ?_, by omega⟩
  · refine balance_preserved.step hbal ?_ hstep
    rintro p i rfl
    obtain ⟨hsem, -, -, hroom, -⟩ := hok
    exact ⟨hsem, Or.inr hroom⟩
  · rw [hshorter, hcnt]
    cases a with
    | receive p i =>
      simp only [LoopAct.brings, List.length_singleton]
      split <;> omega
    | _ => simpa [Loop.overtaken, LoopAct.brings] using hcount

theorem OvertakingInv.switches {w : Overtaking} (h : OvertakingInv w) :
    SwitchesBounded w.loop.scheduler w.shorter := by
  have hent := h.balance.entered
  have hlines := h.balance.lines
  have hlen := h.balance.all.length_eq
  rw [List.length_append] at hlen
  rw [← h.balance.received] at hent hlen
  have hcount := h.shorter
  have hstops := h.stops
  exact ⟨hcount, hstops, by omega, by omega⟩

/-- In every SRTN run a process is stopped at most once for each shorter one that comes in, and for
nothing else, so at most `2 n` signals of a kind and `4 n` lines come of `n` arrivals. -/
theorem srtn_switches_bounded (quantum clk : ℤ) (as : List LoopAct) :
    Throughout (Restrict (fun w a => Measurable w.loop a) OvertakingStep)
        ⟨Loop.initial .SRTN quantum clk, 0⟩ as StopsForShorter ∧
      Always (Restrict (fun w a => Measurable w.loop a) OvertakingStep)
        ⟨Loop.initial .SRTN quantum clk, 0⟩ as
        fun w => SwitchesBounded w.loop.scheduler w.shorter := by
  have hinv : ∀ {pre w}, Trace (Restrict (fun w a => Measurable w.loop a) OvertakingStep)
      ⟨Loop.initial .SRTN quantum clk, 0⟩ pre w → OvertakingInv w := fun ht =>
    ht.invariant (fun _ _ _ h hstep => overtakingInv_step h hstep.1 hstep.2)
      (overtakingInv_initial quantum clk)
  constructor
  · intro pre a w w' _ ht hstep l' hl
    have h := hinv ht
    exact loopStep_stops h.keyed h.least hstep.1 hl
  · exact fun pre w _ ht => (hinv ht).switches

def Overtaking.next (w : Overtaking) (a : LoopAct) : Option Overtaking :=
  (w.loop.next a).map fun l => ⟨l, w.shorter + if w.loop.overtaken a then 1 else 0⟩

theorem overtakingStep_of_next {w w' : Overtaking} (h : w.next a = some w') :
    OvertakingStep w a w' := by
  obtain ⟨l, hl, rfl⟩ := Option.map_eq_some_iff.mp h
  exact ⟨loopStep_of_next hl, rfl⟩

theorem srtn_switches_bounded_overtaken :
    ∃ w, (w.shorter = 1 ∧ w.loop.scheduler.sent .stop = 1 ∧ w.loop.scheduler.sent .cont = 2 ∧
        w.loop.scheduler.lineCount = 4) ∧
      Trace (Restrict (fun w a => Measurable w.loop a) OvertakingStep)
        ⟨Loop.initial .SRTN 0 0, 0⟩ overtakenRun w ∧
      SwitchesBounded w.loop.scheduler w.shorter := by
  obtain ⟨w, hrun, htest⟩ := exists_trace_of_execute (fun _ _ _ => overtakingStep_of_next)
    (show (execute (fun w a => Measurable w.loop a) Overtaking.next
      ⟨Loop.initial .SRTN 0 0, 0⟩ overtakenRun).any
      (fun w => w.shorter = 1 ∧ w.loop.scheduler.sent .stop = 1 ∧
        w.loop.scheduler.sent .cont = 2 ∧ w.loop.scheduler.lineCount = 4) = true by decide +kernel)
  exact ⟨w, of_decide_eq_true htest, hrun,
    (srtn_switches_bounded 0 0 _).2 _ w (List.prefix_refl _) hrun⟩

end KernelSim
