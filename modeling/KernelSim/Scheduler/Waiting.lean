import KernelSim.Scheduler.Accounting

/-! The two computations of a process's waiting time, in runs of the loop beside the processes. -/
namespace KernelSim
open Runs Relation Scheduler

/-- The loop, the processes, and the senders of the `SIGUSR2` under way. -/
structure Simulation where
  loop : Loop
  workers : ℤ → Worker
  signals : List ℤ

inductive SimulationAct
  | loop (act : LoopAct)
  | worker (pid : ℤ) (act : WorkerAct)
  deriving DecidableEq

namespace Simulation

def initial (algorithm : SchedulingAlgorithm) (quantum clk : ℤ) : Simulation :=
  { loop := Loop.initial algorithm quantum clk, workers := fun _ => .create 0, signals := [] }

/-- A step of the loop, and what the processes notice of it. -/
def observing (s : Simulation) (l : Loop) : Simulation :=
  { s with
    loop := l
    workers := (l.scheduler.trace.drop s.loop.scheduler.trace.length).foldl observe s.workers }

def next (s : Simulation) : SimulationAct → Option Simulation
  | .worker pid act => ((s.workers pid).next s.loop.clock act).map fun w =>
      { s with
        workers := Function.update s.workers pid w
        signals := if act = .kill then s.signals ++ [pid] else s.signals }
  | .loop (.sigusr2 inputs) =>
    match s.signals with
    | [] => none
    | _ :: signals => (s.loop.next (.sigusr2 inputs)).map
        ({ s with signals } : Simulation).observing
  | .loop (.receive process inputs) => (s.loop.next (.receive process inputs)).map
      ({ s with workers := Function.update s.workers process.pid (.create process.executionTime) }
        : Simulation).observing
  | .loop act => (s.loop.next act).map s.observing

end Simulation

/-- Neither a message nor a `SIGUSR2`. -/
def LoopAct.Plain : LoopAct → Prop
  | .receive _ _ => False
  | .sigusr2 _ => False
  | _ => True

/-- What one step of the whole can do. -/
inductive SimulationStep (s : Simulation) : SimulationAct → Simulation → Prop
  | worker {pid : ℤ} {act : WorkerAct} {w : Worker}
      (h : (s.workers pid).next s.loop.clock act = some w) :
      SimulationStep s (.worker pid act) { s with
        workers := Function.update s.workers pid w
        signals := if act = .kill then s.signals ++ [pid] else s.signals }
  | sigusr2 {i : Inputs} {pid : ℤ} {signals : List ℤ} {l : Loop} (hs : s.signals = pid :: signals)
      (h : LoopStep s.loop (.sigusr2 i) l) :
      SimulationStep s (.loop (.sigusr2 i)) (({ s with signals } : Simulation).observing l)
  | receive {p : PCB} {i : Inputs} {l : Loop} (h : LoopStep s.loop (.receive p i) l) :
      SimulationStep s (.loop (.receive p i))
        (({ s with workers := Function.update s.workers p.pid (.create p.executionTime) }
          : Simulation).observing l)
  | loop {act : LoopAct} {l : Loop} (ha : act.Plain) (h : LoopStep s.loop act l) :
      SimulationStep s (.loop act) (s.observing l)

theorem simulationStep_of_next {s t : Simulation} {a : SimulationAct} (h : s.next a = some t) :
    SimulationStep s a t := by
  cases a with
  | worker pid act =>
    obtain ⟨w, hw, rfl⟩ := Option.map_eq_some_iff.mp h
    exact .worker hw
  | loop act =>
    cases act with
    | sigusr2 i =>
      simp only [Simulation.next] at h
      split at h
      · cases h
      · rename_i pid signals hs
        obtain ⟨l, hl, rfl⟩ := Option.map_eq_some_iff.mp h
        exact .sigusr2 hs (loopStep_of_next hl)
    | receive p i =>
      obtain ⟨l, hl, rfl⟩ := Option.map_eq_some_iff.mp h
      exact .receive (loopStep_of_next hl)
    | tick =>
      cases h
      exact .loop trivial (loopStep_of_next rfl)
    | sigusr1 | downNb | noMessage | advance =>
      obtain ⟨l, hl, rfl⟩ := Option.map_eq_some_iff.mp h
      exact .loop trivial (loopStep_of_next hl)

/-- Processes take their grants within the tick, and messages are those of new processes, each with
a valid semaphore. -/
def GrantsTaken (s : Simulation) : SimulationAct → Prop
  | .loop .tick => ∀ pid ∈ s.loop.scheduler.receivedPids,
      (s.workers pid).unfinished = true → (s.workers pid).semaphore = false
  | .loop (.receive p _) => 0 < p.syncSemid ∧ p.pid ∉ s.loop.scheduler.receivedPids
  | _ => True

instance : ∀ s a, Decidable (GrantsTaken s a)
  | s, .loop .tick => inferInstanceAs (Decidable (∀ pid ∈ s.loop.scheduler.receivedPids,
      (s.workers pid).unfinished = true → (s.workers pid).semaphore = false))
  | s, .loop (.receive p _) => inferInstanceAs
      (Decidable (0 < p.syncSemid ∧ p.pid ∉ s.loop.scheduler.receivedPids))
  | _, .loop .sigusr1 => isTrue trivial
  | _, .loop (.sigusr2 _) => isTrue trivial
  | _, .loop (.downNb _) => isTrue trivial
  | _, .loop .noMessage => isTrue trivial
  | _, .loop (.advance _) => isTrue trivial
  | _, .worker _ _ => isTrue trivial

/-- Every process has something to run; a process that is current when the clock ticks has taken a
grant of the tick that ends; a switch is made while `clockValue` is the time on the clock, and a
`SIGUSR2` is handled while its sender is current. -/
def OneUnitATick (s : Simulation) : SimulationAct → Prop
  | .loop .tick => ∀ p, s.loop.scheduler.current = some p →
      (s.workers p.pid).phase = .working s.loop.clock
  | .loop (.receive p i) => 1 ≤ p.executionTime ∧ (s.loop.scheduler.algorithm = .SRTN →
      ((s.loop.scheduler.feed i).handleProcessArrival p).Overtaken →
        s.loop.scheduler.clockValue = s.loop.clock)
  | .loop (.sigusr2 _) => ∀ pid ∈ s.signals.head?,
      s.loop.scheduler.current.map PCB.pid = some pid
  | .loop (.advance _) => s.loop.point = .runAlgorithm → s.loop.scheduler.hasWork = true →
      s.loop.scheduler.clockValue = s.loop.clock
  | _ => True

/-- Between the reading of the clock in an iteration and its grant. -/
def LoopPoint.BeforeGrant : LoopPoint → Prop
  | .compare | .assign | .runAlgorithm | .grant => True
  | _ => False

namespace Simulation

/-- The invariant of runs in which every tick of the current process is a unit it runs. -/
structure InStep (s : Simulation) : Prop where
  sound : Sound s.loop.scheduler
  started : 0 ≤ s.loop.clock
  accounts : Accounts s.loop.clock s.loop.scheduler.current s.loop.scheduler.ready
    s.loop.scheduler.receivedPids s.workers
  sender : ∀ pid ∈ s.signals, (s.workers pid).phase = .exited ∧ pid ∈ s.loop.scheduler.receivedPids
  granted : (s.loop.point = .refresh ∨ s.loop.point = .wait) ∧ s.loop.currentTime = s.loop.clock ∨
    Idle s.loop.clock s.loop.scheduler.current s.workers
  timely : s.loop.point.BeforeGrant → s.loop.scheduler.current ≠ none →
    s.loop.currentTime = s.loop.clock
  assigned : s.loop.point = .runAlgorithm → s.loop.scheduler.clockValue = s.loop.currentTime
  ledger : Ledger s.loop.scheduler

variable {s s' : Simulation} {l : Loop} {es : List Effect} {i : Inputs}

theorem observing_eq (ht : l.scheduler.trace = s.loop.scheduler.trace ++ es) :
    s.observing l = { s with loop := l, workers := es.foldl observe s.workers } := by
  simp [observing, ht]

theorem observing_same (ht : l.scheduler.trace = s.loop.scheduler.trace) :
    s.observing l = { s with loop := l } := by
  simp [observing, ht]

/-- Signals and grants leave a process where it is. -/
theorem observe_phase (es : List Effect) (workers : ℤ → Worker) (pid : ℤ) :
    (es.foldl observe workers pid).phase = (workers pid).phase := by
  induction es generalizing workers with
  | nil => rfl
  | cons e es ih =>
    rw [List.foldl_cons, ih]
    cases e with
    | signal signal p =>
      cases signal <;> exact (setStopped_phase workers p.pid _ pid).1
    | grant p =>
      by_cases heq : pid = p.pid
      · subst heq
        simp [observe]
      · simp [observe, Function.update_of_ne heq]
    | _ => rfl

/-- A step of the loop after which the processes are in order and have no grant of the tick. -/
theorem inStep_of_balances (workers : ℤ → Worker) (signals : List ℤ) (h : InStep s)
    (hclk : l.clock = s.loop.clock) (hsound : Sound l.scheduler) (hledger : Ledger l.scheduler)
    (hbal : Balances s.loop.clock workers s.loop.scheduler l.scheduler)
    (hsender : ∀ pid ∈ signals,
      (workers pid).phase = .exited ∧ pid ∈ s.loop.scheduler.receivedPids)
    (htimely : l.point.BeforeGrant → l.scheduler.current ≠ none → l.currentTime = l.clock)
    (hassigned : l.point = .runAlgorithm → l.scheduler.clockValue = l.currentTime) :
    InStep (({ s with workers, signals } : Simulation).observing l) := by
  obtain ⟨es, ht, haccounts, hidle⟩ := hbal
  rw [observing_eq (s := { s with workers, signals }) ht]
  rw [← hclk] at haccounts hidle
  refine ⟨hsound, hclk ▸ h.started, haccounts, ?_, Or.inr hidle, htimely, hassigned, hledger⟩
  intro pid hpid
  obtain ⟨hphase, hmem⟩ := hsender pid hpid
  refine ⟨(observe_phase es workers pid).trans hphase, ?_⟩
  show pid ∈ l.scheduler.receivedPids
  rw [receivedPids, ht, List.filterMap_append]
  exact List.mem_append_left _ hmem

/-- A step of the loop that leaves the scheduler alone. -/
theorem inStep_goto (h : InStep s) (hs : l.scheduler = s.loop.scheduler)
    (hclk : l.clock = s.loop.clock)
    (hgranted : (l.point = .refresh ∨ l.point = .wait) ∧ l.currentTime = l.clock ∨
      Idle s.loop.clock s.loop.scheduler.current s.workers)
    (htimely : l.point.BeforeGrant → s.loop.scheduler.current ≠ none → l.currentTime = l.clock)
    (hassigned : l.point = .runAlgorithm → s.loop.scheduler.clockValue = l.currentTime) :
    InStep (s.observing l) := by
  rw [observing_same (congrArg trace hs)]
  obtain ⟨scheduler, point, currentTime, clock, begun, owed⟩ := l
  dsimp only at *
  subst hs hclk
  exact ⟨h.sound, h.started, h.accounts, h.sender, hgranted, htimely, hassigned, h.ledger⟩

theorem inStep_idle (h : InStep s) (hp : s.loop.point ≠ .refresh ∧ s.loop.point ≠ .wait) :
    Idle s.loop.clock s.loop.scheduler.current s.workers := by
  rcases h.granted with hg | hg
  · rcases hg.1 with hpoint | hpoint
    · exact absurd hpoint hp.1
    · exact absurd hpoint hp.2
  · exact hg

theorem inStep_worker {pid : ℤ} {act : WorkerAct} {w : Worker} (h : InStep s)
    (hw : (s.workers pid).next s.loop.clock act = some w) :
    InStep { s with
      workers := Function.update s.workers pid w
      signals := if act = .kill then s.signals ++ [pid] else s.signals } := by
  obtain ⟨hstop, hstep⟩ := workerStep_of_next hw
  obtain ⟨haccounts, hidle, hknown⟩ := h.accounts.step hstop hstep
  refine ⟨h.sound, h.started, haccounts, ?_, h.granted.imp_right hidle, h.timely, h.assigned,
    h.ledger⟩
  intro pid' hmem
  dsimp only at hmem ⊢
  by_cases heq : pid' = pid
  · subst heq
    refine ⟨?_, hknown⟩
    rw [Function.update_self]
    have hlive : pid' ∉ s.signals := by
      intro hin
      have hexit := (h.sender pid' hin).1
      cases hstep with
      | down hp | decrement hp | clear hp | kill hp => simp [hp] at hexit
    split at hmem
    · rename_i hkill
      subst hkill
      cases hstep
      rfl
    · exact absurd hmem hlive
  · rw [Function.update_of_ne heq]
    refine h.sender pid' ?_
    split at hmem
    · simpa [heq] using hmem
    · exact hmem

/-- The clock ticks, and the current process has taken a grant of the tick that ends. -/
theorem inStep_tick (h : InStep s) (htaken : GrantsTaken s (.loop .tick))
    (hok : OneUnitATick s (.loop .tick)) :
    InStep (s.observing { s.loop with clock := s.loop.clock + 1 }) := by
  have hnone : s.loop.point.BeforeGrant → s.loop.scheduler.current ≠ none → False := by
    intro hp hc
    obtain ⟨p, hcur⟩ := Option.ne_none_iff_exists'.mp hc
    rcases h.granted with hg | hg
    · rcases hg.1 with hpoint | hpoint <;> simp [hpoint, LoopPoint.BeforeGrant] at hp
    · exact hg p hcur (Or.inr (hok p hcur))
  have hidle : Idle (s.loop.clock + 1) s.loop.scheduler.current s.workers := by
    intro p hcur
    have hphase := hok p hcur
    have hknown := h.accounts.known p (by simp [hcur])
    refine Worker.not_granted_tick (h.accounts.running p hcur).regular (htaken _ hknown ?_)
    rw [Worker.unfinished, hphase]
  have hsame := observing_same (s := s) (l := { s.loop with clock := s.loop.clock + 1 }) rfl
  rw [hsame]
  refine ⟨h.sound, ?_, h.accounts.tick hok, h.sender, Or.inr hidle,
    fun hp hc => (hnone hp hc).elim, h.assigned, h.ledger⟩
  have := h.started
  dsimp only
  omega

/-- `run_algorithm`, called while `clockValue` is the time on the clock if there is a process. -/
theorem inStep_runAlgorithm (h : InStep s) (hp : s.loop.point = .runAlgorithm)
    (hok : OneUnitATick s (.loop (.advance i))) :
    InStep (s.observing { s.loop with
      scheduler := (s.loop.scheduler.feed i).runAlgorithm, point := .grant }) := by
  have hfeed := h.sound.feed i
  have hmoves := runAlgorithm_moves hfeed
  have hidle := inStep_idle h (by simp [hp])
  have hledger := ledger_moves (s := s.loop.scheduler.feed i) (h.ledger.congr rfl rfl rfl rfl) hmoves
  have hbalanced : Balanced s.loop.clock (s.loop.scheduler.feed i) s.workers :=
    ⟨h.accounts, hidle⟩
  by_cases hwork : s.loop.scheduler.hasWork = true
  · have hclk := hok hp hwork
    have htime := (h.assigned hp).symm.trans hclk
    have hbal : Balances s.loop.clock s.workers (s.loop.scheduler.feed i)
      (s.loop.scheduler.feed i).runAlgorithm := balances_moves hbalanced hclk h.started hmoves
    exact inStep_of_balances s.workers s.signals h rfl (moves_sound hfeed hmoves) hledger hbal h.sender
      (fun _ _ => htime) nofun
  · have hempty : s.loop.scheduler.current = none ∧ s.loop.scheduler.ready = [] := by
      simpa [hasWork, and_comm] using hwork
    obtain ⟨hc, hr, ht⟩ := moves_empty (s := s.loop.scheduler.feed i) hempty.1 hempty.2 hmoves
    have hread : Reread s.loop.scheduler (s.loop.scheduler.feed i).runAlgorithm :=
      ⟨Or.inl (hc.trans hempty.1.symm), hr.trans hempty.2.symm, ht⟩
    exact inStep_of_balances s.workers s.signals h rfl (moves_sound hfeed hmoves) hledger
      (balances_reread ⟨h.accounts, hidle⟩ hread) h.sender (fun _ hne => absurd hc hne) nofun

/-- The current process gets its grant, in the tick the iteration began in. -/
theorem inStep_grant (h : InStep s) (hp : s.loop.point = .grant) :
    InStep (s.observing { s.loop with
      scheduler := s.loop.scheduler.grantTick, point := .refresh }) := by
  have hsound := h.sound.grantTick
  cases hc : s.loop.scheduler.currentProcess with
  | none =>
    rw [grantTick_none hc]
    exact inStep_goto h rfl rfl (Or.inr (inStep_idle h (by simp [hp]))) nofun nofun
  | some process =>
    have hcur := current_some hc
    have htime := h.timely (by simp [hp, LoopPoint.BeforeGrant]) (by simp [hcur])
    rw [grantTick_some hc] at hsound ⊢
    have ht : (s.loop.scheduler.emit (.grant (s.loop.scheduler.pcbs process))).trace =
      s.loop.scheduler.trace ++ [.grant (s.loop.scheduler.pcbs process)] := rfl
    have hrec := (pids_grant s.loop.scheduler (s.loop.scheduler.pcbs process)).2
    have hlines : (s.loop.scheduler.emit (.grant (s.loop.scheduler.pcbs process))).finishedLines =
        s.loop.scheduler.finishedLines := by simp [finishedLines, ht, Effect.finishedLine]
    have haccounts := h.accounts
    rw [hcur] at haccounts
    have hsame := observing_eq (s := s) (l := { s.loop with
      scheduler := s.loop.scheduler.emit (.grant (s.loop.scheduler.pcbs process))
      point := .refresh }) ht
    rw [hsame]
    refine ⟨hsound, h.started, ?_, ?_, Or.inl ⟨Or.inl rfl, htime⟩, False.elim, by simp,
      h.ledger.congr hlines rfl rfl rfl⟩
    · show Accounts _ s.loop.scheduler.current _ _ _
      rw [hcur, hrec]
      exact haccounts.grant
    · intro pid hpid
      obtain ⟨hphase, hmem⟩ := h.sender pid hpid
      refine ⟨(observe_phase [.grant _] s.workers pid).trans hphase, ?_⟩
      show pid ∈ (s.loop.scheduler.emit (.grant _)).receivedPids
      rw [hrec]
      exact hmem

/-- The reading after the grant. -/
theorem inStep_refresh (h : InStep s) :
    InStep (s.observing { s.loop with
      scheduler := (s.loop.scheduler.feed i).updateCurrent, point := .wait }) := by
  have hfeed := h.sound.feed i
  have hfed := updateCurrent_reread hfeed
  have hread : Reread s.loop.scheduler (s.loop.scheduler.feed i).updateCurrent :=
    ⟨hfed.current, hfed.ready, hfed.trace⟩
  have hmoves := updateCurrent_moves hfeed
  have hrec := (pids_eq hread.trace).2
  have hsame := observing_same (s := s) (l := { s.loop with
    scheduler := (s.loop.scheduler.feed i).updateCurrent, point := .wait }) hread.trace
  rw [hsame]
  refine ⟨moves_sound hfeed hmoves, h.started, accounts_reread h.accounts hread, ?_, ?_, nofun,
    nofun, ledger_moves (s := s.loop.scheduler.feed i) (h.ledger.congr rfl rfl rfl rfl) hmoves⟩
  · intro pid hpid
    refine ⟨(h.sender pid hpid).1, ?_⟩
    show pid ∈ (s.loop.scheduler.feed i).updateCurrent.receivedPids
    rw [hrec]
    exact (h.sender pid hpid).2
  · rcases h.granted with hg | hg
    · exact Or.inl ⟨Or.inr rfl, hg.2⟩
    · exact Or.inr (idle_reread hg hread)

theorem inStep_receive {p : PCB} (h : InStep s) (hp : s.loop.point = .receive)
    (hnew : GrantsTaken s (.loop (.receive p i))) (hok : OneUnitATick s (.loop (.receive p i))) :
    InStep (({ s with workers := Function.update s.workers p.pid (.create p.executionTime) }
      : Simulation).observing
        { s.loop with scheduler := (s.loop.scheduler.feed i).receiveMessage p }) := by
  obtain ⟨hsem, hfresh⟩ := hnew
  obtain ⟨hexec, hclk⟩ := hok
  have hfeed := h.sound.feed i
  have hledger : Ledger (s.loop.scheduler.feed i) := h.ledger.congr rfl rfl rfl rfl
  have hbalanced : Balanced s.loop.clock (s.loop.scheduler.feed i) s.workers :=
    ⟨h.accounts, inStep_idle h (by simp [hp])⟩
  refine inStep_of_balances _ s.signals h rfl ?_ ?_
    (balances_receiveMessage hbalanced hfeed h.started hsem hfresh hexec hclk) ?_ ?_ ?_
  · exact sound_preserved.receiveMessage hfeed hsem
  · exact ledger_receiveMessage hledger hfeed hsem
  · intro pid hpid
    obtain ⟨hphase, hmem⟩ := h.sender pid hpid
    have hne : pid ≠ p.pid := fun heq => hfresh (heq ▸ hmem)
    rw [Function.update_of_ne hne]
    exact ⟨hphase, hmem⟩
  · simp [hp, LoopPoint.BeforeGrant]
  · simp [hp]

theorem inStep_sigusr2 {pid : ℤ} {signals : List ℤ} (h : InStep s)
    (hsig : s.signals = pid :: signals) (hok : OneUnitATick s (.loop (.sigusr2 i))) :
    InStep (({ s with signals } : Simulation).observing (s.loop.complete i)) := by
  have hcpu : s.loop.scheduler.current.map PCB.pid = some pid := hok pid (by simp [hsig])
  obtain ⟨hphase, -⟩ := h.sender pid (by simp [hsig])
  have hledger : Ledger (s.loop.scheduler.feed i) := h.ledger.congr rfl rfl rfl rfl
  obtain ⟨hbal, hledger⟩ := balances_completion (s := s.loop.scheduler.feed i) h.accounts hledger
    (h.sound.feed i) h.started (by
      intro p hc
      have hpid : p.pid = pid := by
        rw [show s.loop.scheduler.current = some p from hc] at hcpu
        exact Option.some.inj hcpu
      rw [hpid]
      exact hphase)
  have hne : s.loop.scheduler.current ≠ none := by
    intro hnone
    simp [hnone] at hcpu
  refine inStep_of_balances s.workers signals (l := s.loop.complete i) h rfl ?_ hledger hbal ?_ ?_
    ?_
  · exact sound_preserved.completion (h.sound.feed i) _
  · exact fun pid' hmem => h.sender pid' (by simp [hsig, hmem])
  · exact fun hp _ => h.timely hp hne
  · intro hp
    have hclk := s.loop.complete_clockValue i
    have htime := h.timely (by simp [show s.loop.point = .runAlgorithm from hp,
      LoopPoint.BeforeGrant]) hne
    exact hclk.trans htime.symm

/-- A statement of the loop, or its end. -/
theorem inStep_advance (h : InStep s) (hok : OneUnitATick s (.loop (.advance i)))
    (hstep : LoopStep s.loop (.advance i) l) : InStep (s.observing l) := by
  have hidle : s.loop.point ≠ .refresh ∧ s.loop.point ≠ .wait →
      Idle s.loop.clock s.loop.scheduler.current s.workers := inStep_idle h
  cases hstep with
  | exit hp | test hp =>
    exact inStep_goto h rfl rfl (Or.inr (hidle (by simp [hp]))) nofun nofun
  | getClk hp =>
    exact inStep_goto h rfl rfl (Or.inr (hidle (by simp [hp]))) (fun _ _ => rfl) nofun
  | differs hp =>
    have htimely := h.timely (by simp [hp, LoopPoint.BeforeGrant])
    exact inStep_goto h rfl rfl (Or.inr (hidle (by simp [hp]))) (fun _ => htimely) nofun
  | equals hp =>
    exact inStep_goto h rfl rfl (Or.inr (hidle (by simp [hp]))) nofun nofun
  | assign hp =>
    have htimely := h.timely (by simp [hp, LoopPoint.BeforeGrant])
    have hsame := observing_same (s := s) (l := { s.loop with
      scheduler := { s.loop.scheduler with clockValue := s.loop.currentTime }
      point := .runAlgorithm }) rfl
    rw [hsame]
    exact ⟨h.sound.withClock _, h.started, h.accounts, h.sender, Or.inr (hidle (by simp [hp])),
      fun _ => htimely, fun _ => rfl, h.ledger.congr rfl rfl rfl rfl⟩
  | runAlgorithm hp => exact inStep_runAlgorithm h hp hok
  | grant hp => exact inStep_grant h hp
  | refresh hp => exact inStep_refresh h
  | again hp hne =>
    refine inStep_goto h rfl rfl (Or.inr ?_) nofun nofun
    rcases h.granted with hg | hg
    · exact absurd hg.2.symm hne
    · exact hg

theorem inStep_next {a : SimulationAct} (h : InStep s) (htaken : GrantsTaken s a)
    (hok : OneUnitATick s a) (hstep : s.next a = some s') : InStep s' := by
  cases simulationStep_of_next hstep with
  | worker hw => exact inStep_worker h hw
  | sigusr2 hsig hl =>
    cases hl
    exact inStep_sigusr2 h hsig hok
  | receive hl =>
    cases hl with
    | receive hp => exact inStep_receive h hp htaken hok
  | @loop act l ha hl =>
    cases act with
    | receive | sigusr2 => exact ha.elim
    | tick =>
      cases hl
      exact inStep_tick h htaken hok
    | sigusr1 =>
      cases hl
      have hsame := observing_same (s := s) (l := { s.loop with
        scheduler := s.loop.scheduler.handleGeneratorCompletion }) rfl
      rw [hsame]
      exact ⟨sound_preserved.generator _ h.sound, h.started, h.accounts, h.sender, h.granted,
        h.timely, h.assigned, h.ledger.congr rfl rfl rfl rfl⟩
    | downNb taken =>
      cases hl with
      | refused hp | taken hp =>
        exact inStep_goto h rfl rfl (Or.inr (inStep_idle h (by simp [hp]))) nofun nofun
    | noMessage =>
      cases hl with
      | noMessage hp =>
        exact inStep_goto h rfl rfl (Or.inr (inStep_idle h (by simp [hp]))) nofun nofun
    | advance i => exact inStep_advance h hok hl

theorem inStep_initial (algorithm : SchedulingAlgorithm) (quantum : ℤ) (clk : ℕ) :
    InStep (initial algorithm quantum clk) := by
  have hheld := initial_held algorithm quantum clk
  have hcur : (Scheduler.initial algorithm quantum clk).current = none := current_eq_none.mpr rfl
  have hready : (Scheduler.initial algorithm quantum clk).ready = [] := by
    rw [← hheld, held_none hcur]
  have hlines : (Scheduler.initial algorithm quantum clk).finishedLines = [] := rfl
  refine ⟨sound_initial algorithm quantum clk, Int.natCast_nonneg clk, ?_, by simp [initial],
    Or.inr ?_, nofun, nofun, ⟨⟨?_, ?_⟩, ?_, ?_, ?_⟩⟩
  · show Accounts _ (Scheduler.initial algorithm quantum clk).current
      (Scheduler.initial algorithm quantum clk).ready _ _
    rw [hcur, hready]
    constructor <;> simp [initial, Worker.create]
  · show Idle _ (Scheduler.initial algorithm quantum clk).current _
    rw [hcur]
    simp [Idle]
  · show ∀ p f, (p, f) ∈ (Scheduler.initial algorithm quantum clk).finishedLines → _
    simp [hlines]
  · show ∀ k p f, (Scheduler.initial algorithm quantum clk).finishedLines[k]? = some (p, f) → _
    simp [hlines]
  · rfl
  · exact List.length_replicate
  · exact List.length_replicate

end Simulation

/-- The two computations agree in every run in which each tick of the current process is a unit it
runs. -/
theorem waitsAgree_always (algorithm : SchedulingAlgorithm) (quantum : ℤ) (clk : ℕ)
    (as : List SimulationAct) :
    Always (Guarded (fun s a => GrantsTaken s a ∧ OneUnitATick s a) Simulation.next)
      (Simulation.initial algorithm quantum clk) as (fun s => WaitsAgree s.loop.scheduler) := by
  intro pre s _ ht
  have hin : s.InStep := by
    refine ht.invariant ?_ (Simulation.inStep_initial algorithm quantum clk)
    rintro s a s' h ⟨⟨htaken, hok⟩, hstep⟩
    exact Simulation.inStep_next h htaken hok hstep
  exact hin.ledger.toWaitsAgree

/-- A process of run time 1 arrives at time 1 while `clockValue` is 0, runs, and ends at time 2. -/
def earlyWaitRun : List SimulationAct :=
  [.loop (.advance {}), .loop (.downNb true),
    .loop (.receive (Process.newPcb ⟨1, 0, 5, 0, 64⟩ 101 11 21) {}), .loop .noMessage,
    .loop (.advance {}), .loop (.advance {}), .loop (.advance {}), .loop (.advance {}),
    .loop (.advance {}), .worker 101 .down, .loop (.advance ⟨[some 5], []⟩),
    .loop .tick, .worker 101 .decrement, .loop (.advance {}), .loop (.advance {}),
    .loop (.downNb true),
    .loop (.receive (Process.newPcb ⟨2, 1, 1, 0, 64⟩ 102 12 22) ⟨[some 4, some 4, some 4], []⟩),
    .loop .noMessage, .loop (.advance {}), .loop (.advance {}), .loop (.advance {}),
    .loop (.advance ⟨[some 1], []⟩), .loop (.advance {}), .worker 102 .down,
    .loop (.advance ⟨[some 1], []⟩),
    .loop .tick, .worker 102 .decrement, .worker 102 .clear, .worker 102 .kill,
    .loop (.sigusr2 ⟨[some 0], []⟩)]

/-- Its line says that it waited -1 ticks, and `wait_times` that it waited none. -/
theorem earlyWait_not_agree :
    ¬ Always (Guarded GrantsTaken Simulation.next) (Simulation.initial .SRTN 0 (0 : ℕ)) earlyWaitRun
      (fun s => WaitsAgree s.loop.scheduler) := by
  intro h
  obtain ⟨s, hrun, htest⟩ := exists_trace_of_execute
    (R := fun s a t => Simulation.next s a = some t) (fun _ _ _ h => h)
    (show (execute GrantsTaken Simulation.next (Simulation.initial .SRTN 0 (0 : ℕ))
      earlyWaitRun).any (fun s => s.loop.scheduler.finishedLines.any fun line =>
        decide (line.1.waitingTime ≠ line.2 - line.1.arrivalTime - line.1.executionTime)) = true by
        decide +kernel)
  obtain ⟨line, hline, hne⟩ := List.any_eq_true.mp htest
  exact of_decide_eq_true hne
    ((h _ s (List.prefix_refl _) hrun).printed line.1 line.2 hline)

end KernelSim
