import KernelSim.Generator.Admission
import KernelSim.Generator.ReadProcesses
import KernelSim.Generator.SenderRefinement
import KernelSim.Scheduler.Handshake
import KernelSim.Scheduler.LogText
import KernelSim.Scheduler.Shutdown

/-! The simulator as a whole: the generator with its memory, the scheduler, the clock they share and
what is under way between them. From the process file to `scheduler.log`. -/
namespace KernelSim
open Formats PriorityQueue Runs Relation Scheduler

/-- One step of the loop with its memory. -/
def Admission.next (s : Admission) : AdmissionAct → Option Admission
  | .main a =>
    if a = .tick ∨ s.memory.phase = .idle ∧ a.answer = none then
      (s.intake.next a).map fun g => { s with intake := g }
    else none
  | .refuse a =>
    match s.intake.request with
    | some (id, size) =>
      (s.memory.next (.search id size s.intake.lastTick)).bind fun m =>
        if m.phase = .idle ∧ a.answer = some false then
          (s.intake.next a).map fun g => { intake := g, memory := m }
        else none
    | none => none
  | .memory (.search id size time) =>
    if s.intake.request = some (id, size) ∧ time = s.intake.lastTick then
      (s.memory.next (.search id size time)).bind fun m =>
        if m.phase = .idle then none else some { s with memory := m }
    else none
  | .memory .msgsnd => none
  | .memory a => (s.memory.next a).map fun m => { s with memory := m }
  | .send a =>
    match s.memory.phase with
    | .stamped _ pid =>
      if a.answer = some true ∧ a.pid = some pid then
        (s.memory.next .msgsnd).bind fun m =>
          (s.intake.next a).map fun g => { intake := g, memory := m }
      else none
    | _ => none

/-- What a step of the generator's loop does to the scheduler. -/
def Intake.sends (g : Intake) : IntakeAct → Option Sent
  | .serve true pid shmId => some (.message { queueFront g.waitingQueue with pid, shmId })
  | .admitArrived true pid shmId syncSemid =>
    some (.message ((pqTop g.pq).newPcb pid shmId syncSemid))
  | .post => some .permit
  | .check =>
    if pqEmpty g.pq = true ∧ queueEmpty g.waitingQueue = true ∧ g.once = true then some .sigusr1
    else none
  | _ => none

/-- The step of the loop that an admission step is. -/
def AdmissionAct.intake : AdmissionAct → Option IntakeAct
  | .main a => some a
  | .refuse a => some a
  | .send a => some a
  | .memory _ => none

/-- The generator, the scheduler, and what is under way between them. -/
structure Simulator where
  admission : Admission
  loop : Loop
  msgq : List PCB
  permit : Bool
  sigusr1 : Bool

inductive SimulatorAct
  /-- `clk.c` counts one unit of time -/
  | tick
  | generator (act : AdmissionAct)
  | scheduler (act : LoopAct)

namespace Simulator

def initial (algorithm : SchedulingAlgorithm) (quantum clk schedulerPid clkPid : ℤ)
    (pq : PriorityQueue) : Simulator :=
  { admission :=
      { intake := { Intake.initial clk [] with pq }
        memory := initialGenerator schedulerPid clkPid }
    loop := Loop.initial algorithm quantum clk
    msgq := []
    permit := false
    sigusr1 := false }

/-- The simulator that has read this process file. -/
def ofFile (algorithm : SchedulingAlgorithm) (quantum clk schedulerPid clkPid : ℤ)
    (outside : ℤ → Option ℤ) (file : List Char) : Simulator :=
  initial algorithm quantum clk schedulerPid clkPid
    (readProcessesFile outside file (pqInit 20 .sortByArrivalTime unusedProcess))

/-- The two parties of it. -/
def parties (s : Simulator) : Parties :=
  { loop := s.loop
    sender := s.admission.intake.toSender
    msgq := s.msgq
    permit := s.permit
    sigusr1 := s.sigusr1
    sent := s.admission.intake.sent.length }

def deliver (s : Simulator) : Option Sent → Simulator
  | some (.message p) => { s with msgq := s.msgq ++ [p] }
  | some .permit => { s with permit := true }
  | some .sigusr1 => { s with sigusr1 := true }
  | none => s

def next (s : Simulator) : SimulatorAct → Option Simulator
  | .tick => some
      { s with
        admission.intake.clock := s.admission.intake.clock + 1
        loop.clock := s.loop.clock + 1 }
  | .generator (.main .tick) => none
  | .generator a => (s.admission.next a).map fun m =>
      { s with admission := m }.deliver (a.intake.bind s.admission.intake.sends)
  | .scheduler .tick => none
  | .scheduler a => (s.parties.loopNext a).map fun t =>
      { s with loop := t.loop, msgq := t.msgq, permit := t.permit, sigusr1 := t.sigusr1 }

/-- The signals to the scheduler are handled in time, and under HPF and SRTN each message finds a
place in the heap. -/
def InTime (s : Simulator) : SimulatorAct → Prop
  | .scheduler a => SignalsInTime s.parties (.loop a)
  | _ => True

instance (s : Parties) : Decidable s.Kept :=
  inferInstanceAs (Decidable (s.msgq = [] ∨ s.loop.point = .downNb ∨ s.loop.point = .receive ∨
    s.loop.scheduler.ready ≠ [] ∨ s.loop.scheduler.current ≠ none))

instance : ∀ s a, Decidable (InTime s a)
  | s, .scheduler .sigusr1 => inferInstanceAs (Decidable s.parties.Kept)
  | s, .scheduler (.sigusr2 _) => inferInstanceAs (Decidable
      (s.parties.loop.scheduler.generatorFinished = true → s.parties.msgq = [] ∨
        s.parties.loop.point = .downNb ∨ s.parties.loop.point = .receive ∨
          s.parties.loop.scheduler.ready ≠ []))
  | s, .scheduler (.receive _ _) => inferInstanceAs (Decidable
      (s.parties.loop.scheduler.algorithm = .RR ∨ s.parties.loop.scheduler.held.length < 1024))
  | _, .scheduler .tick => isTrue trivial
  | _, .scheduler (.downNb _) => isTrue trivial
  | _, .scheduler .noMessage => isTrue trivial
  | _, .scheduler (.advance _) => isTrue trivial
  | _, .tick => isTrue trivial
  | _, .generator _ => isTrue trivial

end Simulator

/-- The record of a process that an effect reports as finished. -/
def Effect.finishedRecord : Effect → Option Process
  | .logged event _ p _ => if event = .finished then some p.process else none
  | _ => none

namespace Scheduler

/-- The messages received. -/
def messages (s : Scheduler) : List PCB := s.trace.filterMap Effect.message

def finishedRecords (s : Scheduler) : List Process := s.trace.filterMap Effect.finishedRecord

end Scheduler

/-- A message as `handle_process_arrival` takes it. -/
def PCB.asReceived (p : PCB) : PCB := { p with remainingTime := p.executionTime }

/-- What `scheduler.log` tells of a process from beginning to end. -/
def Process.told (p : Process) : ℤ × ℤ × ℤ := (p.id, p.arrivalTime, p.executionTime)

/-- The processes that a text of `scheduler.log` reports as finished. -/
def finishedInText (text : List Char) : List (ℤ × ℤ × ℤ) :=
  ((readAll schedulerFormat text).filterMap LogLine.ofFields).filterMap fun r =>
    if r.event = .finished then
      some (r.standing.idFromFile, r.standing.arrivalTime, r.standing.executionTime)
    else none

variable {s t : Admission} {a : AdmissionAct}

theorem admissionStep_of_next (h : s.next a = some t) : AdmissionStep s a t := by
  cases a with
  | main b =>
    simp only [Admission.next, Option.ite_none_right_eq_some, Option.map_eq_some_iff] at h
    obtain ⟨hwhen, g, hg, rfl⟩ := h
    have hstep := intakeStep_of_next hg
    rcases hwhen with rfl | ⟨hidle, hanswer⟩
    · exact .tick hstep
    · exact .main hidle hanswer hstep
  | refuse b =>
    simp only [Admission.next] at h
    split at h
    · rename_i hr
      simp only [Option.bind_eq_some_iff, Option.ite_none_right_eq_some, Option.map_eq_some_iff] at h
      obtain ⟨m, hm, ⟨hfail, hanswer⟩, g, hg, rfl⟩ := h
      exact .refuse hr (generatorStep_of_next hm) hfail hanswer (intakeStep_of_next hg)
    · cases h
  | memory b =>
    cases b with
    | search id size time =>
      simp only [Admission.next, Option.ite_none_right_eq_some, Option.bind_eq_some_iff] at h
      obtain ⟨⟨hr, rfl⟩, m, hm, h⟩ := h
      simp only [Option.ite_none_left_eq_some, Option.some.injEq] at h
      obtain ⟨hfound, rfl⟩ := h
      exact .found hr (generatorStep_of_next hm) hfound
    | msgsnd => cases h
    | reserve | createProcess | updateId | reap =>
      simp only [Admission.next, Option.map_eq_some_iff] at h
      obtain ⟨m, hm, rfl⟩ := h
      exact .memory trivial (generatorStep_of_next hm)
  | send b =>
    simp only [Admission.next] at h
    split at h
    · rename_i hp
      simp only [Option.ite_none_right_eq_some, Option.bind_eq_some_iff,
        Option.map_eq_some_iff] at h
      obtain ⟨⟨hanswer, hpid⟩, m, hm, g, hg, rfl⟩ := h
      exact .send hp (generatorStep_of_next hm) hanswer hpid (intakeStep_of_next hg)
    · cases h

/-- An admission step is a step of the loop, or leaves the loop as it is. -/
theorem admission_intake (h : AdmissionStep s a t) :
    a.intake = none ∧ t.intake = s.intake ∨
      ∃ b, a.intake = some b ∧ IntakeStep s.intake b t.intake := by
  cases h with
  | tick h => exact Or.inr ⟨.tick, rfl, h⟩
  | main _ _ h => exact Or.inr ⟨_, rfl, h⟩
  | refuse _ _ _ _ h => exact Or.inr ⟨_, rfl, h⟩
  | found | memory => exact Or.inl ⟨rfl, rfl⟩
  | send _ _ _ _ h => exact Or.inr ⟨_, rfl, h⟩

section Generator

variable {i i' : Intake} {b : IntakeAct}

/-- The messages are what `sent` collects. -/
theorem sent_sends (h : IntakeStep i b i') :
    i'.sent = i.sent ++ (Sent.message? (i.sends b)).toList := by
  cases h with
  | announce hp hpq hq honce => simp [Intake.sends, hpq, hq, honce, Sent.message?]
  | again hp hno => simp [Intake.sends, if_neg hno, Sent.message?]
  | serveGranted | admitGranted => rfl
  | _ => exact (List.append_nil _).symm

/-- What the loop sends is what the party may send. -/
theorem intake_sends (hs : i.Sound) (hg : i.toSender.Sound) (h : IntakeStep i b i') :
    i'.toSender.Sound ∧ i.toSender.Sends i'.toSender (i.sends b) := by
  have hsound : i'.toSender.Sound := by
    rcases toSender_step hs h with ⟨heq, -⟩ | ⟨c, out, hmove, -⟩
    · rw [heq]
      exact hg
    · exact (sender_step hg hmove).1
  refine ⟨hsound, ?_⟩
  cases h with
  | tick => exact ⟨rfl, id⟩
  | newTick hp hne => exact ⟨rfl, by simp [Intake.toSender]⟩
  | sameTick hp heq => exact ⟨rfl, fun _ => Or.inl (by simp [Intake.toSender, hp])⟩
  | served hp hq | restore hp hq | restored hp hq =>
    exact ⟨rfl, by simp [Intake.toSender, hp]⟩
  | serveRefused hp hq => exact ⟨rfl, by simp [Intake.toSender, hp]⟩
  | admitRefused hp hq harr hsem => exact ⟨rfl, by simp [Intake.toSender, hp]⟩
  | post hp hnone => exact rfl
  | @serveGranted pid shmId hp hq =>
    obtain ⟨-, hlist⟩ := queueDequeue_spec hs.waiting (queueSize_pos hq)
    have hwaiting : i.toSender.waitingQueue = i.waitingQueue.toList := by
      simp [Intake.toSender, hp]
    have honce : i.once = true := by
      by_contra hne
      have hnil := (hg.drained (by simpa [Intake.toSender] using hne)).2.1
      rw [hwaiting, hlist] at hnil
      cases hnil
    refine ⟨?_, honce, honce, by simp [Intake.toSender, hp], by simp [Intake.toSender, hp]⟩
    apply hg.semids (queueFront i.waitingQueue)
    rw [hwaiting, hlist]
    exact List.mem_append_left _ List.mem_cons_self
  | admitGranted hp hq harr hsem =>
    have honce : i.once = true := by
      by_contra hne
      have hnil := (hg.drained (by simpa [Intake.toSender] using hne)).1
      rw [show i.toSender.pq = i.pq.drain from rfl, PriorityQueue.drain_cons hq] at hnil
      cases hnil
    exact ⟨hsem, honce, honce, by simp [Intake.toSender, hp], by simp [Intake.toSender, hp]⟩
  | announce hp hpq hq honce =>
    rw [show i.sends .check = some .sigusr1 from if_pos ⟨hpq, hq, honce⟩]
    exact ⟨by simp [Intake.toSender, hp], rfl⟩
  | again hp hno =>
    rw [show i.sends .check = none from if_neg hno]
    exact ⟨rfl, fun _ => Or.inr (by simp [Intake.toSender, hp])⟩

end Generator

namespace Scheduler

variable {s s' : Scheduler} {p : PCB}

/-- Nothing but a message adds to the messages received. -/
theorem messages_preserved (received : List PCB) :
    Preserved (fun s => Sound s ∧ s.messages = received) fun _ _ => False where
  sound := fun _ hs => hs.1
  semid := fun _ _ hp => absurd hp id
  clock := fun _ clk hs => ⟨hs.1.withClock clk, hs.2⟩
  feed := fun _ i hs => ⟨hs.1.feed i, hs.2⟩
  generator := fun _ hs => ⟨sound_preserved.generator _ hs.1, hs.2⟩
  grant := fun s hs => by
    refine ⟨hs.1.grantTick, ?_⟩
    rw [← hs.2]
    unfold grantTick
    split <;> simp [messages, emit, Effect.message]
  move := fun _ _ hs hm => by
    obtain ⟨es, ht, hes⟩ := hm.trace
    have hnone := filterMap_ofSwitch (fun _ => message_ofSwitch) hes
    refine ⟨hm.sound, ?_⟩
    rw [← hs.2, messages, ht, List.filterMap_append, hnone, List.append_nil, messages]
  arrival := fun _ _ _ hp => absurd hp id
  retire := fun s process hs hc => by
    obtain ⟨value, hsound, -, -, -, ht⟩ := retire_spec hs.1 hc
    refine ⟨hsound, ?_⟩
    rw [← hs.2, messages, ht, List.filterMap_append, retireEffects_message, List.append_nil,
      messages]

theorem messages_receive (hs : Sound s) (hsem : 0 < p.syncSemid) :
    (s.receiveMessage p).messages = s.messages ++ [p.asReceived] := by
  obtain ⟨hsound, -, -, -, -, ht⟩ := handleProcessArrival_spec hs hsem
  have harr : (s.handleProcessArrival p).messages = s.messages ++ [p.asReceived] := by
    rw [messages, ht, List.filterMap_append]
    rfl
  obtain ⟨_, heq⟩ := receiveMessage_eq s p
  rw [heq]
  exact ((messages_preserved _).moves ⟨hsound, harr⟩
    (moved_moves (preemptOnArrival_moved hsound).1)).2

end Scheduler

/-- The record in a message is reported when the process has finished. -/
theorem record_keptUntilRetired :
    KeptUntilRetired (fun p => some p.process) Effect.finishedRecord where
  lasting := fun p q h => by
    have hsame : p.lasting.process = q.lasting.process := congrArg PCB.process h
    exact congrArg some hsame
  received := fun _ => rfl
  switch := fun e h => by
    cases e with
    | logged event => exact if_neg h
    | _ => rfl
  grant := fun _ => rfl
  retired := fun clk finished count value p => by
    unfold retireEffects
    split <;> rfl

/-- The invariant: every line of the file is in one place between `pq` and `scheduler.log`. -/
structure SimulatorInv (lines : List Process) (s : Simulator) : Prop where
  intake : IntakeInv lines s.admission.intake
  orderly : Orderly s.parties
  path : ReflTransGen (Dispatches (fun _ _ => True) fun _ => True) Dispatcher.idle
    s.loop.scheduler.view
  delivered : s.loop.scheduler.messages ++ s.msgq.map PCB.asReceived =
    s.admission.intake.sent.map PCB.asReceived

variable {lines : List Process} {sim sim' : Simulator} {w w' : Parties} {c : LoopAct}

theorem partyStep_sent (h : PartyStep w c w') : w'.sent = w.sent := by
  cases h <;> rfl

/-- A message goes from the queue to the scheduler. -/
theorem partyStep_messages (hs : Orderly w) (h : PartyStep w c w') :
    w'.loop.scheduler.messages ++ w'.msgq.map PCB.asReceived =
      w.loop.scheduler.messages ++ w.msgq.map PCB.asReceived := by
  have hkeep {l : Loop} (hne : ∀ p i, c ≠ .receive p i) (h : LoopStep w.loop c l) :
      l.scheduler.messages = w.loop.scheduler.messages :=
    ((messages_preserved _).step ⟨hs.conserved.toSound, rfl⟩
      (fun p i heq => absurd heq (hne p i)) h).2
  cases h with
  | own ha h =>
    rw [hkeep ?_ h]
    rintro p i rfl
    exact ha
  | sigusr1 _ h => rw [hkeep (by simp) h]
  | downNb h => rw [hkeep (by simp) h]
  | noMessage _ h => rw [hkeep (by simp) h]
  | @receive l p rest i hq h =>
    have hsem : 0 < p.syncSemid := hs.semids p (hq ▸ List.mem_cons_self)
    cases h with
    | receive hp =>
      show (Scheduler.receiveMessage _ p).messages ++ _ = _
      rw [messages_receive (hs.conserved.toSound.feed i) hsem, hq, List.map_cons,
        List.append_assoc]
      rfl

/-- The scheduler goes on as a dispatcher. -/
theorem partyStep_dispatches (hs : Orderly w) (hok : SignalsInTime w (.loop c))
    (h : PartyStep w c w') : ReflTransGen (Dispatches (fun _ _ => True) fun _ => True)
      w.loop.scheduler.view w'.loop.scheduler.view := by
  have hdispatching : Dispatching (fun _ => True) w.loop.scheduler :=
    ⟨hs.conserved.toSound, hs.conserved.room, fun _ _ => trivial⟩
  have hadmits : Admits (fun _ _ => True) (fun _ => True) w.loop c := by
    cases h with
    | own ha h =>
      cases c with
      | sigusr2 | advance => exact fun _ _ => trivial
      | receive => exact absurd ha id
      | _ => trivial
    | @receive l p rest i hq h =>
      exact ⟨hs.semids p (hq ▸ List.mem_cons_self), hok, trivial, fun _ _ => trivial⟩
    | sigusr1 | downNb | noMessage => trivial
  exact (loopStep_dispatches hdispatching trivial hadmits (partyStep_spec h).1).2

theorem simulatorInv_tick (hi : SimulatorInv lines sim) (h : sim.next .tick = some sim') :
    SimulatorInv lines sim' := by
  cases h
  refine ⟨intakeInv_step hi.intake .tick, ?_, hi.path, hi.delivered⟩
  exact orderly_own (a := .tick) hi.orderly trivial trivial .tick

theorem next_scheduler (h : sim.next (.scheduler c) = some sim') :
    ∃ w, sim.parties.loopNext c = some w ∧
      { sim with loop := w.loop, msgq := w.msgq, permit := w.permit, sigusr1 := w.sigusr1 } =
        sim' := by
  cases c with
  | tick => cases h
  | _ => exact Option.map_eq_some_iff.mp h

theorem next_generator (h : sim.next (.generator a) = some sim') :
    ∃ m, sim.admission.next a = some m ∧
      { sim with admission := m }.deliver (a.intake.bind sim.admission.intake.sends) = sim' := by
  cases a with
  | main b =>
    cases b with
    | tick => cases h
    | _ => exact Option.map_eq_some_iff.mp h
  | _ => exact Option.map_eq_some_iff.mp h

theorem simulatorInv_scheduler (hi : SimulatorInv lines sim)
    (hok : SignalsInTime sim.parties (.loop c)) (h : sim.next (.scheduler c) = some sim') :
    SimulatorInv lines sim' := by
  obtain ⟨w, hw, rfl⟩ := next_scheduler h
  have hstep := partyStep_of_loopNext hw
  obtain ⟨-, hsender, -⟩ := partyStep_spec hstep
  have hsent := partyStep_sent hstep
  refine ⟨hi.intake, ?_, hi.path.trans (partyStep_dispatches hi.orderly hok hstep),
    (partyStep_messages hi.orderly hstep).trans hi.delivered⟩
  have horderly := orderly_loop hi.orderly hok hstep
  obtain ⟨loop, sender, msgq, permit, sigusr1, sent⟩ := w
  obtain rfl : sender = sim.parties.sender := hsender
  obtain rfl : sent = sim.parties.sent := hsent
  exact horderly

theorem deliver_parties {m : Admission} {out : Option Sent}
    (hsent : m.intake.sent = sim.admission.intake.sent ++ (Sent.message? out).toList) :
    ({ sim with admission := m }.deliver out).parties =
      { sim.parties with sender := m.intake.toSender }.deliver out := by
  cases out with
  | none => simp [Simulator.deliver, Simulator.parties, Parties.deliver, hsent, Sent.message?]
  | some out =>
    cases out <;>
      simp [Simulator.deliver, Simulator.parties, Parties.deliver, hsent, Sent.message?]

theorem deliver_msgq (out : Option Sent) :
    (sim.deliver out).msgq = sim.msgq ++ (Sent.message? out).toList := by
  cases out with
  | none => exact (List.append_nil _).symm
  | some out => cases out <;> simp [Simulator.deliver, Sent.message?]

theorem deliver_frame (sim : Simulator) (out : Option Sent) :
    (sim.deliver out).admission = sim.admission ∧ (sim.deliver out).loop = sim.loop := by
  cases out with
  | none => exact ⟨rfl, rfl⟩
  | some out => cases out <;> exact ⟨rfl, rfl⟩

theorem simulatorInv_generator (hi : SimulatorInv lines sim)
    (h : sim.next (.generator a) = some sim') : SimulatorInv lines sim' := by
  obtain ⟨m, hm, rfl⟩ := next_generator h
  rcases admission_intake (admissionStep_of_next hm) with ⟨hnone, hsame⟩ | ⟨b, hb, hstep⟩
  · rw [hnone]
    obtain ⟨intake, memory⟩ := m
    obtain rfl : intake = sim.admission.intake := hsame
    exact ⟨hi.intake, hi.orderly, hi.path, hi.delivered⟩
  · obtain ⟨hsound, hsends⟩ := intake_sends hi.intake.toSound hi.orderly.sender hstep
    have hsent := sent_sends hstep
    rw [hb, Option.bind_some]
    obtain ⟨hadmission, hloop⟩ :=
      deliver_frame { sim with admission := m } (sim.admission.intake.sends b)
    refine ⟨?_, ?_, ?_, ?_⟩
    · rw [hadmission]
      exact intakeInv_step hi.intake hstep
    · rw [deliver_parties hsent]
      exact orderly_sender hi.orderly hsound hsends
    · rw [hloop]
      exact hi.path
    · rw [hadmission, hloop, deliver_msgq, hsent, List.map_append, List.map_append, ← hi.delivered,
        List.append_assoc]

theorem simulatorInv_step {d : SimulatorAct} (hi : SimulatorInv lines sim)
    (h : Guarded Simulator.InTime Simulator.next sim d sim') : SimulatorInv lines sim' := by
  obtain ⟨hok, hstep⟩ := h
  cases d with
  | tick => exact simulatorInv_tick hi hstep
  | generator a => exact simulatorInv_generator hi hstep
  | scheduler a => exact simulatorInv_scheduler hi hok hstep

theorem simulatorInv_initial (algorithm : SchedulingAlgorithm)
    (quantum clk schedulerPid clkPid : ℤ)
    (hv : ∀ p ∈ lines, 0 ≤ p.arrivalTime ∧ p.arrivalTime < 2 ^ 31) :
    SimulatorInv lines (Simulator.initial algorithm quantum clk schedulerPid clkPid
      (readProcesses (pqInit 20 .sortByArrivalTime unusedProcess) lines)) := by
  have hintake := intakeInv_initial clk hv
  refine ⟨hintake, ?_, ?_, rfl⟩
  · refine ⟨conserved_initial algorithm quantum clk, ⟨fun _ => rfl, ?_, nofun⟩,
      by simp [Simulator.initial, Simulator.parties], rfl, ?_, fun h => absurd rfl h, nofun, nofun⟩
    · intro p hp
      cases hp
    · rintro (h | h) <;> cases h
  · show ReflTransGen _ _ (Scheduler.initial algorithm quantum clk).view
    rw [view_initial]

/-- When the scheduler has left its loop, whatever was sent has been reported. -/
theorem reported_of_exited {β : Type} {key : PCB → Option β} {out : Effect → Option β}
    (hkey : KeptUntilRetired key out) (hi : SimulatorInv lines sim)
    (hp : sim.loop.point = .exited) :
    (sim.loop.scheduler.trace.filterMap out).Perm (sim.admission.intake.sent.filterMap key) := by
  obtain ⟨-, hready, hc⟩ := isDone_idle (hi.orderly.exited hp)
  obtain ⟨hq, -, -⟩ := noneLost_of_orderly hi.orderly hp
  have hheld : sim.loop.scheduler.held = [] := (held_none hc).trans hready
  have hmessages : sim.loop.scheduler.messages =
      sim.admission.intake.sent.map PCB.asReceived := by
    rw [← hi.delivered, show sim.msgq = [] from hq, List.map_nil, List.append_nil]
  have hsame : (fun p : PCB => key p.asReceived) = key :=
    funext fun p => hkey.lasting p.asReceived p rfl
  have hbalance := dispatched_balanced hkey hi.path rfl
  rw [Dispatcher.Balanced, view_processes, hheld] at hbalance
  apply Multiset.coe_eq_coe.mp
  calc (sim.loop.scheduler.trace.filterMap out : Multiset β)
      = (sim.loop.scheduler.messages.filterMap key : List β) := by
        simpa [view, messages] using hbalance
    _ = (sim.admission.intake.sent.filterMap key : List β) := by
        rw [hmessages, List.filterMap_map]
        exact congrArg (fun f => ((sim.admission.intake.sent.filterMap f : List β) : Multiset β))
          hsame

/-- By then every line has been sent. -/
theorem sent_of_exited (hi : SimulatorInv lines sim) (hp : sim.loop.point = .exited) :
    sim.admission.intake.waitingQueue.toList = [] ∧ sim.admission.intake.tempQueue.toList = [] ∧
      (sim.admission.intake.sent.map PCB.process).Perm lines := by
  obtain ⟨hgen, -, -⟩ := isDone_idle (hi.orderly.exited hp)
  have honce : sim.admission.intake.once = false := hi.orderly.announced (Or.inr hgen)
  obtain ⟨hpq, hwaiting, htemp⟩ := hi.intake.announced honce
  have hsplit := hi.intake.split
  rw [hpq, Intake.arrived, hwaiting, htemp] at hsplit
  exact ⟨hwaiting, htemp, hsplit⟩

/-- And every line has come to its end. -/
theorem finished_of_exited (hi : SimulatorInv lines sim) (hp : sim.loop.point = .exited) :
    sim.loop.scheduler.finishedRecords.Perm lines := by
  have hreported := reported_of_exited record_keptUntilRetired hi hp
  have hmap : sim.admission.intake.sent.filterMap (fun p => some p.process) =
      sim.admission.intake.sent.map PCB.process := congrFun List.filterMap_eq_map _
  exact (hmap ▸ hreported).trans (sent_of_exited hi hp).2.2

theorem fitsInt_of_intField {text after : List Char} {z : ℤ} (h : intField text = some (z, after)) :
    FitsInt z := of_decide_eq_true (Option.filter_eq_some_iff.mp h).2

theorem arrival_of_lineRecord {line : List Char} {p : Process} (h : lineRecord line = some p) :
    FitsInt p.arrivalTime := by
  unfold lineRecord at h
  split at h
  · cases h
  simp only [Option.bind_eq_bind, Option.bind_eq_some_iff] at h
  obtain ⟨_, -, ⟨arrival, rest⟩, harrival, _, -, _, -, _, -, heq⟩ := h
  cases heq
  exact fitsInt_of_intField (intField_of_nextField harrival)

/-- The lines 'finished' as they are read back. -/
theorem finishedInText_eq {wta : ℤ → ℤ → List Char} (hwta : ∀ ta total, '\n' ∉ wta ta total)
    (t : Scheduler) :
    finishedInText (schedulerText wta t.trace) = t.finishedRecords.map Process.told := by
  rw [finishedInText, lines_schedulerText hwta, finishedRecords, List.filterMap_filterMap,
    List.map_filterMap]
  apply List.filterMap_congr
  intro e _
  cases e with
  | logged event time p finishTime =>
    cases event <;> rfl
  | _ => rfl

/-- The lines of a file as they are in `pq`. -/
theorem arrivals_valid {file : List Char}
    (harrival : ∀ line ∈ processLines file, 0 ≤ line.2.arrivalTime) :
    ∀ p ∈ (processLines file).map Prod.snd, 0 ≤ p.arrivalTime ∧ p.arrivalTime < 2 ^ 31 := by
  intro p hp
  obtain ⟨line, hline, rfl⟩ := List.mem_map.mp hp
  refine ⟨harrival line hline, ?_⟩
  have hmem := List.mem_map_of_mem (f := Prod.snd) hline
  rw [processLines, Lines.map_snd_numbered] at hmem
  obtain ⟨records, hrecords, hin⟩ := List.mem_flatten.mp hmem
  obtain ⟨text, -, rfl⟩ := List.mem_map.mp hrecords
  exact (arrival_of_lineRecord (Option.mem_toList.mp hin)).2

theorem ofFile_eq {algorithm : SchedulingAlgorithm} {quantum clk schedulerPid clkPid : ℤ}
    {outside : ℤ → Option ℤ} {file : List Char} (hfile : LinesReadOnce outside file) :
    Simulator.ofFile algorithm quantum clk schedulerPid clkPid outside file =
      Simulator.initial algorithm quantum clk schedulerPid clkPid
        (readProcesses (pqInit 20 .sortByArrivalTime unusedProcess)
          ((processLines file).map Prod.snd)) := by
  rw [Simulator.ofFile, readProcessesFile_eq, pushed_iff.mpr hfile]

theorem finishedInText_of_exited {wta : ℤ → ℤ → List Char} {file : List Char}
    (hwta : ∀ ta total, '\n' ∉ wta ta total)
    (hi : SimulatorInv ((processLines file).map Prod.snd) sim) (hp : sim.loop.point = .exited) :
    (finishedInText (schedulerText wta sim.loop.scheduler.trace)).Perm
      ((processLines file).map fun line => line.2.told) := by
  rw [finishedInText_eq hwta]
  have hperm := (finished_of_exited hi hp).map Process.told
  rwa [List.map_map] at hperm

/-- From end to end: in every interleaving in which the signals are handled in time and the messages
find a place in the heap, once the scheduler has left its loop `scheduler.log` reports as finished
the processes of the file, each as often as the file has it. -/
theorem schedulerLog_lists_file (algorithm : SchedulingAlgorithm)
    (quantum clk schedulerPid clkPid : ℤ) (outside : ℤ → Option ℤ) (file : List Char)
    (wta : ℤ → ℤ → List Char) (hwta : ∀ ta total, '\n' ∉ wta ta total)
    (hfile : LinesReadOnce outside file) (harrival : ∀ line ∈ processLines file, 0 ≤ line.2.arrivalTime)
    (as : List SimulatorAct) :
    Always (Guarded Simulator.InTime Simulator.next)
      (Simulator.ofFile algorithm quantum clk schedulerPid clkPid outside file) as
      fun s => s.loop.point = .exited →
        (finishedInText (schedulerText wta s.loop.scheduler.trace)).Perm
          ((processLines file).map fun line => line.2.told) := by
  intro pre s _ ht hp
  have hinv : SimulatorInv ((processLines file).map Prod.snd) s := by
    refine ht.invariant (P := SimulatorInv ((processLines file).map Prod.snd)) ?_ ?_
    · exact fun _ _ _ => simulatorInv_step
    · rw [ofFile_eq hfile]
      exact simulatorInv_initial algorithm quantum clk schedulerPid clkPid (arrivals_valid harrival)
  exact finishedInText_of_exited hwta hinv hp

/-- A heading and two processes, of which the first needs all of the memory. -/
def crowdedFile : List Char := "#id\n7 0 1 5 1024\n8 0 1 5 64\n".toList

/-- The second process waits until the first has ended and the child has been reaped; then it is
admitted and runs. -/
def crowdedRun : List SimulatorAct :=
  [.generator (.main .readClock), .generator (.main .served), .generator (.main .restored),
    .generator (.memory (.search 7 1024 0)), .generator (.memory .reserve),
    .generator (.memory (.createProcess 201)), .generator (.memory .updateId),
    .generator (.send (.admitArrived true 201 11 5)),
    .generator (.refuse (.admitArrived false 0 0 6)), .generator (.main .post),
    .generator (.main .check), .scheduler (.advance {}), .scheduler (.downNb true),
    .scheduler (.receive ((⟨7, 0, 1, 5, 1024⟩ : Process).newPcb 201 11 5) {}),
    .scheduler .noMessage] ++ List.replicate 6 (.scheduler (.advance {})) ++
  [.tick, .scheduler (.sigusr2 {}), .generator (.memory (.reap 201 (.exited 0) 1)),
    .generator (.main .readClock), .generator (.memory (.search 8 64 1)),
    .generator (.memory .reserve), .generator (.memory (.createProcess 202)),
    .generator (.memory .updateId), .generator (.send (.serve true 202 12)),
    .generator (.main .served), .generator (.main .restored), .generator (.main .post),
    .generator (.main .check), .scheduler (.advance {}), .scheduler (.advance {}),
    .scheduler (.downNb true),
    .scheduler (.receive ((⟨8, 0, 1, 5, 64⟩ : Process).newPcb 202 12 6) {}),
    .scheduler .noMessage, .scheduler .sigusr1, .tick] ++
  List.replicate 6 (.scheduler (.advance {})) ++
  [.tick, .scheduler (.sigusr2 {}), .generator (.memory (.reap 202 (.exited 0) 3)),
    .scheduler (.advance {}), .scheduler (.advance {})]

theorem schedulerLog_lists_file_two :
    ∃ s, Trace (Guarded Simulator.InTime Simulator.next)
        (Simulator.ofFile .HPF 0 0 100 101 (fun _ => none) crowdedFile) crowdedRun s ∧
      s.loop.point = .exited ∧
      (finishedInText (schedulerText (fun _ _ => "1.00".toList) s.loop.scheduler.trace)).Perm
        [(7, 0, 1), (8, 0, 1)] := by
  obtain ⟨s, hrun, htest⟩ := exists_trace_of_execute
    (R := fun (s : Simulator) a t => s.next a = some t) (fun _ _ _ h => h)
    (show (execute Simulator.InTime Simulator.next
      (Simulator.ofFile .HPF 0 0 100 101 (fun _ => none) crowdedFile) crowdedRun).any
        (fun s => s.loop.point = .exited) = true by decide +kernel)
  have hp : s.loop.point = .exited := of_decide_eq_true htest
  have hlines : processLines crowdedFile =
      [(1, ⟨7, 0, 1, 5, 1024⟩), (2, ⟨8, 0, 1, 5, 64⟩)] := by decide +kernel
  have hfile : LinesReadOnce (fun _ => none) crowdedFile := pushed_iff.mp (by decide +kernel)
  have hperm := schedulerLog_lists_file .HPF 0 0 100 101 (fun _ => none) crowdedFile
    (fun _ _ => "1.00".toList) (fun _ _ => by decide) hfile (by simp [hlines]) crowdedRun
    crowdedRun s (List.prefix_refl _) hrun hp
  rw [hlines] at hperm
  exact ⟨s, hrun, hp, hperm⟩

end KernelSim
