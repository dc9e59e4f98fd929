import KernelSim.Scheduler.WorkConservation

/-! The generator and the scheduler as two parties, with the message queue, the tick semaphore and
`SIGUSR1` between them. -/
namespace KernelSim
open Runs Relation

/-- Where the generator's `main` is in its loop. -/
inductive SenderPoint
  /-- `int current_time = get_clk();` -/
  | top
  /-- the first loop of `serve_waiting_queue` -/
  | serve
  /-- the loop over `pq` -/
  | admitArrived
  /-- `if (pq_empty(&pq) && queue_empty(&waiting_queue) && once)` -/
  | check
  deriving DecidableEq

/-- The generator in its loop. `pq` is in the order of `pq_pop`. -/
structure Sender where
  pq : List Process
  waitingQueue : List PCB
  tempQueue : List PCB
  lastTick : ℤ
  once : Bool
  point : SenderPoint

/-- What the generator does to the scheduler. -/
inductive Sent
  /-- `msgsnd` -/
  | message (process : PCB)
  /-- `semctl(semid, 0, SETVAL, 1)` -/
  | permit
  /-- `kill(scheduler_pid, SIGUSR1)` -/
  | sigusr1

/-- The steps of the generator; `admitted` is what `allocate_memory` returns. -/
inductive SenderAct
  | readClock
  | serve (admitted : Bool) (pid shmId : ℤ)
  | admitArrived (admitted : Bool) (pid shmId syncSemid : ℤ)
  | post
  | check
  deriving DecidableEq

/-- One step at the time `clk`, with what it sends; `none` where the step is not the next one, or
the generator exits for want of a semaphore. -/
def Sender.next (g : Sender) (clk : ℤ) : SenderAct → Option (Sender × Option Sent)
  | .readClock =>
    if g.point = .top then
      if clk ≠ g.lastTick then some ({ g with lastTick := clk, point := .serve }, none)
      else some ({ g with point := .check }, none)
    else none
  | .serve admitted pid shmId =>
    if g.point = .serve then
      match g.waitingQueue with
      | p :: rest =>
        if admitted then
          some ({ g with waitingQueue := rest }, some (.message { p with pid, shmId }))
        else some ({ g with waitingQueue := rest, tempQueue := g.tempQueue ++ [p] }, none)
      | [] => some ({ g with waitingQueue := g.tempQueue, tempQueue := [], point := .admitArrived }, none)
    else none
  | .admitArrived admitted pid shmId syncSemid =>
    if g.point = .admitArrived ∧ 0 < syncSemid then
      match g.pq with
      | p :: rest =>
        if p.arrivalTime ≤ g.lastTick then
          if admitted then
            some ({ g with pq := rest }, some (.message (p.newPcb pid shmId syncSemid)))
          else
            some ({ g with
              pq := rest
              waitingQueue := g.waitingQueue ++ [p.newPcb pid shmId syncSemid] }, none)
        else none
      | [] => none
    else none
  | .post =>
    if g.point = .admitArrived ∧ ∀ p ∈ g.pq.head?, g.lastTick < p.arrivalTime then
      some ({ g with point := .check }, some .permit)
    else none
  | .check =>
    if g.point = .check then
      if g.pq.isEmpty ∧ g.waitingQueue.isEmpty ∧ g.once then
        some ({ g with once := false, point := .top }, some .sigusr1)
      else some ({ g with point := .top }, none)
    else none

/-- Both parties, and what is under way between them: the messages, the tick semaphore and a
`SIGUSR1` that the scheduler has not handled. -/
structure Parties where
  loop : Loop
  sender : Sender
  msgq : List PCB
  permit : Bool
  sigusr1 : Bool
  sent : ℕ

inductive PartyAct
  | loop (act : LoopAct)
  | sender (act : SenderAct)
  deriving DecidableEq

namespace Parties

def initial (algorithm : SchedulingAlgorithm) (quantum clk : ℤ) (pq : List Process) : Parties :=
  { loop := Loop.initial algorithm quantum clk
    sender :=
      { pq, waitingQueue := [], tempQueue := [], lastTick := -1, once := true, point := .top }
    msgq := []
    permit := false
    sigusr1 := false
    sent := 0 }

/-- A step of the scheduler, where what it takes from the generator is there. -/
def loopNext (s : Parties) (a : LoopAct) : Option Parties :=
  match a with
  | .sigusr1 =>
    if s.sigusr1 then (s.loop.next a).map fun l => { s with loop := l, sigusr1 := false } else none
  | .downNb taken =>
    if taken = s.permit then (s.loop.next a).map fun l => { s with loop := l, permit := false }
    else none
  | .receive process _ =>
    match s.msgq with
    | p :: rest =>
      if p = process then (s.loop.next a).map fun l => { s with loop := l, msgq := rest } else none
    | [] => none
  | .noMessage => if s.msgq.isEmpty then (s.loop.next a).map fun l => { s with loop := l } else none
  | _ => (s.loop.next a).map fun l => { s with loop := l }

def deliver (s : Parties) : Option Sent → Parties
  | some (.message p) => { s with msgq := s.msgq ++ [p], sent := s.sent + 1 }
  | some .permit => { s with permit := true }
  | some .sigusr1 => { s with sigusr1 := true }
  | none => s

def next (s : Parties) : PartyAct → Option Parties
  | .loop a => s.loopNext a
  | .sender a => (s.sender.next s.loop.clock a).map fun (g, sent) => { s with sender := g }.deliver sent

end Parties

/-- A step that the scheduler takes by itself, or with a process. -/
def LoopAct.Own : LoopAct → Prop
  | .tick => True
  | .sigusr2 _ => True
  | .advance _ => True
  | _ => False

/-- What a step of the scheduler takes from the generator. -/
inductive PartyStep (s : Parties) : LoopAct → Parties → Prop
  | own {a : LoopAct} {l : Loop} (ha : a.Own) (h : LoopStep s.loop a l) :
      PartyStep s a { s with loop := l }
  | sigusr1 {l : Loop} (hs : s.sigusr1 = true) (h : LoopStep s.loop .sigusr1 l) :
      PartyStep s .sigusr1 { s with loop := l, sigusr1 := false }
  | downNb {l : Loop} (h : LoopStep s.loop (.downNb s.permit) l) :
      PartyStep s (.downNb s.permit) { s with loop := l, permit := false }
  | receive {l : Loop} {p : PCB} {rest : List PCB} {i : Inputs} (hq : s.msgq = p :: rest)
      (h : LoopStep s.loop (.receive p i) l) :
      PartyStep s (.receive p i) { s with loop := l, msgq := rest }
  | noMessage {l : Loop} (hq : s.msgq = []) (h : LoopStep s.loop .noMessage l) :
      PartyStep s .noMessage { s with loop := l }

variable {s s' : Parties} {a : LoopAct} {l l' : Loop} {g g' : Sender} {sent : Option Sent}

theorem partyStep_of_loopNext (h : s.loopNext a = some s') : PartyStep s a s' := by
  cases a with
  | tick | sigusr2 | advance =>
    simp only [Parties.loopNext, Option.map_eq_some_iff] at h
    obtain ⟨l, hl, rfl⟩ := h
    exact .own trivial (loopStep_of_next hl)
  | sigusr1 =>
    simp only [Parties.loopNext, Option.ite_none_right_eq_some, Option.map_eq_some_iff] at h
    obtain ⟨hs, l, hl, rfl⟩ := h
    exact .sigusr1 hs (loopStep_of_next hl)
  | downNb taken =>
    simp only [Parties.loopNext, Option.ite_none_right_eq_some, Option.map_eq_some_iff] at h
    obtain ⟨rfl, l, hl, rfl⟩ := h
    exact .downNb (loopStep_of_next hl)
  | receive p i =>
    cases hq : s.msgq with
    | nil => simp [Parties.loopNext, hq] at h
    | cons q rest =>
      simp only [Parties.loopNext, hq, Option.ite_none_right_eq_some, Option.map_eq_some_iff] at h
      obtain ⟨rfl, l, hl, rfl⟩ := h
      exact .receive hq (loopStep_of_next hl)
  | noMessage =>
    simp only [Parties.loopNext, Option.ite_none_right_eq_some, Option.map_eq_some_iff] at h
    obtain ⟨hq, l, hl, rfl⟩ := h
    exact .noMessage (List.isEmpty_iff.mp hq) (loopStep_of_next hl)

namespace Scheduler

variable {t t' : Scheduler} {p : PCB}

theorem moves_busy (h : ReflTransGen Move t t') (hb : t.ready ≠ [] ∨ t.current ≠ none) :
    t'.ready ≠ [] ∨ t'.current ≠ none := by
  induction h with
  | refl => exact hb
  | tail _ hm ih =>
    rcases hm.outcome with hr | hw
    · rcases ih with ih | ih
      · exact Or.inl (hr.ready ▸ ih)
      · exact Or.inr (moves_current (.single hm) ih)
    · cases hw with
      | kept _ _ hc' => exact Or.inr (by simp [hc'])
      | idle hc hr => exact absurd ih (by simp [hc, hr])
      | dispatched _ _ _ _ hc' => exact Or.inr (by simp [hc'])
      | replaced _ _ _ _ _ _ _ _ hc' => exact Or.inr (by simp [hc'])

theorem isDone_idle (h : t.isDone = true) :
    t.generatorFinished = true ∧ t.ready = [] ∧ t.current = none := by
  simp only [isDone, Bool.and_eq_true, Option.isNone_iff_eq_none] at h
  obtain ⟨⟨hgen, hc⟩, hsize⟩ := h
  refine ⟨hgen, ?_, current_eq_none.mpr hc⟩
  by_contra hr
  cases ha : t.algorithm with
  | RR =>
    have := (rrQueue_size_pos ha).mpr hr
    simp only [ha, beq_iff_eq] at hsize
    omega
  | HPF | SRTN =>
    have := (readyHeap_size_pos (by simp [ha])).mpr hr
    simp only [ha, beq_iff_eq] at hsize
    omega

/-- A completion that leaves a process ready leaves work. -/
theorem completion_busy (hs : Sound t) (hr : t.ready ≠ []) (clk : ℤ) :
    (t.handleProcessCompletion clk).ready ≠ [] ∨
      (t.handleProcessCompletion clk).current ≠ none := by
  obtain ⟨-, heq⟩ | ⟨process, hc, heq⟩ := completion_cases t clk
  · rw [heq]
    exact Or.inl hr
  · obtain ⟨value, hsound, -, -, hready, -⟩ := retire_spec (hs.withClock clk) hc
    have hr' : (retire { t with clockValue := clk } process).ready ≠ [] := by
      rw [hready]
      exact hr
    rcases heq with heq | heq
    · rw [heq]
      exact Or.inl hr'
    · rw [heq]
      exact Or.inr (contextSwitching_current hsound hr')

end Scheduler

open Scheduler

/-- The scheduler's own steps neither count a process nor end the generator. -/
theorem own_books (ha : a.Own) (h : LoopStep l a l') :
    l'.scheduler.processCount = l.scheduler.processCount ∧
      l'.scheduler.generatorFinished = l.scheduler.generatorFinished := by
  cases h with
  | @sigusr2 i hp => exact (completion_books (l.scheduler.feed i) l.clock).2
  | @runAlgorithm i hp =>
    have hb := primitives_books (runAlgorithm_primitives (l.scheduler.feed i))
    exact ⟨hb.processCount, hb.generatorFinished⟩
  | grant hp =>
    have hb := grantTick_books l.scheduler
    exact ⟨hb.processCount, hb.generatorFinished⟩
  | @refresh i hp =>
    have hb := primitives_books (updateCurrent_primitives (l.scheduler.feed i))
    exact ⟨hb.processCount, hb.generatorFinished⟩
  | sigusr1 | refused | taken | receive | noMessage => exact absurd ha id
  | _ => exact ⟨rfl, rfl⟩

/-- Nothing is left for the generator to send. -/
def Sender.Drained (g : Sender) : Prop :=
  g.pq = [] ∧ g.waitingQueue = [] ∧ g.tempQueue = []

/-- The generator keeps `temp_queue` only in `serve_waiting_queue`, fills its PCBs with valid
semaphore ids, and has nothing left once it has announced so. -/
structure Sender.Sound (g : Sender) : Prop where
  temp : g.point ≠ .serve → g.tempQueue = []
  semids : ∀ p ∈ g.waitingQueue ++ g.tempQueue, 0 < p.syncSemid
  drained : g.once = false → g.Drained

/-- What the generator sends in one step, and where it is then. -/
def Sender.Sends (g g' : Sender) : Option Sent → Prop
  | some (.message p) => 0 < p.syncSemid ∧ g.once = true ∧ g'.once = true ∧
      g'.point ≠ .top ∧ g'.point ≠ .check
  | some .permit => g'.once = g.once
  | some .sigusr1 => g.point = .check ∧ g'.once = false
  | none => g'.once = g.once ∧ (g'.point = .top ∨ g'.point = .check →
      g.point = .top ∨ g.point = .check)

theorem sender_step {clk : ℤ} {a : SenderAct} (hg : g.Sound)
    (h : g.next clk a = some (g', sent)) : g'.Sound ∧ g.Sends g' sent := by
  cases a with
  | readClock =>
    simp only [Sender.next, Option.ite_none_right_eq_some] at h
    obtain ⟨hp, h⟩ := h
    have htemp := hg.temp (by simp [hp])
    split at h <;> cases h
    · exact ⟨⟨fun _ => htemp, hg.semids, hg.drained⟩, rfl, by simp⟩
    · exact ⟨⟨fun _ => htemp, hg.semids, hg.drained⟩, rfl, fun _ => Or.inl hp⟩
  | serve admitted pid shmId =>
    simp only [Sender.next, Option.ite_none_right_eq_some] at h
    obtain ⟨hp, h⟩ := h
    split at h
    · rename_i p rest hq
      have honce : g.once = true := by
        by_contra hne
        have hnil := (hg.drained (by simpa using hne)).2.1
        simp [hq] at hnil
      have hall : ∀ q ∈ p :: rest ++ g.tempQueue, 0 < q.syncSemid := hq ▸ hg.semids
      split at h <;> cases h
      · refine ⟨⟨hg.temp, fun q hmem => hall q (List.mem_cons_of_mem _ hmem), ?_⟩,
          hall p List.mem_cons_self, honce, honce, by simp [hp], by simp [hp]⟩
        simp [honce]
      · refine ⟨⟨fun hne => absurd hp hne, fun q hmem => hall q ?_, by simp [honce]⟩, rfl,
          by simp [hp]⟩
        simp only [List.mem_append, List.mem_cons, List.not_mem_nil, or_false] at hmem ⊢
        tauto
    · rename_i hq
      cases h
      refine ⟨⟨fun _ => rfl, ?_, fun honce => ?_⟩, rfl, by simp⟩
      · have hall := hg.semids
        simpa [hq] using hall
      · have hd := hg.drained honce
        exact ⟨hd.1, hd.2.2, rfl⟩
  | admitArrived admitted pid shmId syncSemid =>
    simp only [Sender.next, Option.ite_none_right_eq_some] at h
    obtain ⟨⟨hp, hsem⟩, h⟩ := h
    split at h
    · rename_i p rest hq
      have honce : g.once = true := by
        by_contra hne
        have hnil := (hg.drained (by simpa using hne)).1
        simp [hq] at hnil
      have htemp := hg.temp (by simp [hp])
      simp only [Option.ite_none_right_eq_some] at h
      obtain ⟨-, h⟩ := h
      split at h <;> cases h
      · exact ⟨⟨fun _ => htemp, hg.semids, by simp [honce]⟩, hsem, honce, honce, by simp [hp],
          by simp [hp]⟩
      · refine ⟨⟨fun _ => htemp, fun q hmem => ?_, by simp [honce]⟩, rfl, by simp [hp]⟩
        simp only [htemp, List.append_nil, List.mem_append, List.mem_cons, List.not_mem_nil,
          or_false] at hmem
        rcases hmem with hmem | rfl
        · exact hg.semids q (List.mem_append_left _ hmem)
        · exact hsem
    · cases h
  | post =>
    simp only [Sender.next, Option.ite_none_right_eq_some] at h
    obtain ⟨⟨hp, -⟩, h⟩ := h
    cases h
    exact ⟨⟨fun _ => hg.temp (by simp [hp]), hg.semids, hg.drained⟩, rfl⟩
  | check =>
    simp only [Sender.next, Option.ite_none_right_eq_some] at h
    obtain ⟨hp, h⟩ := h
    have htemp := hg.temp (by simp [hp])
    split at h <;> cases h
    · rename_i hempty
      refine ⟨⟨fun _ => htemp, hg.semids, fun _ => ?_⟩, hp, rfl⟩
      exact ⟨List.isEmpty_iff.mp hempty.1, List.isEmpty_iff.mp hempty.2.1, htemp⟩
    · exact ⟨⟨fun _ => htemp, hg.semids, hg.drained⟩, rfl, fun _ => Or.inr hp⟩

/-- The loop is about to receive, or has a process that keeps it from ending. -/
def Loop.Stays (l : Loop) : Prop := l.point = .downNb ∨ l.point = .receive ∨ l.Busy

/-- No message waits that the loop could end without. -/
def Parties.Kept (s : Parties) : Prop := s.msgq = [] ∨ s.loop.Stays

/-- The invariant of runs in which no signal finds a message that it makes the scheduler miss. -/
structure Orderly (s : Parties) : Prop where
  conserved : Conserved s.loop.scheduler
  sender : s.sender.Sound
  semids : ∀ p ∈ s.msgq, 0 < p.syncSemid
  sent : s.sent = s.loop.scheduler.processCount + s.msgq.length
  announced : s.sigusr1 = true ∨ s.loop.scheduler.generatorFinished = true → s.sender.once = false
  posted : s.msgq ≠ [] →
    s.sender.once = false ∨ s.sender.point = .top ∨ s.sender.point = .check →
      s.permit = true ∨ s.loop.point = .receive
  kept : s.loop.scheduler.generatorFinished = true → s.Kept
  exited : s.loop.point = .exited → s.loop.scheduler.isDone = true

/-- No process is lost at shutdown. -/
def NoneLost (s : Parties) : Prop :=
  s.loop.point = .exited → s.msgq = [] ∧
    s.loop.scheduler.finishedProcesses = s.loop.scheduler.processCount ∧
    s.loop.scheduler.processCount = s.sent

/-- No signal is handled that would let the loop end with a message in the queue: when it comes the
scheduler is about to receive, or still has another process. And there is room for each message. -/
def SignalsInTime (s : Parties) : PartyAct → Prop
  | .loop .sigusr1 => s.Kept
  | .loop (.sigusr2 _) => s.loop.scheduler.generatorFinished = true →
      s.msgq = [] ∨ s.loop.point = .downNb ∨ s.loop.point = .receive ∨
        s.loop.scheduler.ready ≠ []
  | .loop (.receive _ _) => s.loop.scheduler.algorithm = .RR ∨ s.loop.scheduler.held.length < 1024
  | _ => True

theorem noneLost_of_orderly (hs : Orderly s) : NoneLost s := by
  intro hp
  obtain ⟨hgen, hready, hc⟩ := isDone_idle (hs.exited hp)
  have hq : s.msgq = [] := by
    rcases hs.kept hgen with hq | hd | hd | hd
    · exact hq
    · simp [hp] at hd
    · simp [hp] at hd
    · exact absurd hd (by simp [Loop.Busy, hready, hc])
  have hheld : s.loop.scheduler.heldIds = [] := by
    rw [heldIds, held_none hc, hready, List.map_nil]
  have hall := hs.conserved.all.length_eq
  rw [hheld, List.nil_append] at hall
  refine ⟨hq, ?_, ?_⟩
  · rw [hs.conserved.finished, hs.conserved.received, hall]
  · rw [hs.sent, hq, List.length_nil, Nat.add_zero]

/-- A step of the generator. -/
theorem orderly_sender (hs : Orderly s) (hg : g.Sound) (h : s.sender.Sends g sent) :
    Orderly ({ s with sender := g }.deliver sent) := by
  cases sent with
  | none =>
    obtain ⟨honce, hpoint⟩ := h
    refine ⟨hs.conserved, hg, hs.semids, hs.sent, ?_, ?_, hs.kept, hs.exited⟩
    · exact fun h => honce.trans (hs.announced h)
    · intro hne hwhen
      exact hs.posted hne (hwhen.imp honce.symm.trans hpoint)
  | some m =>
    cases m with
    | message p =>
      obtain ⟨hsem, honce, honce', htop, hcheck⟩ := h
      have hearly : ¬ (s.sigusr1 = true ∨ s.loop.scheduler.generatorFinished = true) := by
        intro hsent
        simp [hs.announced hsent] at honce
      refine ⟨hs.conserved, hg, ?_, ?_, fun hsent => absurd hsent hearly, ?_,
        fun hgen => absurd (Or.inr hgen) hearly, hs.exited⟩
      · intro q hq
        rcases List.mem_append.mp hq with hq | hq
        · exact hs.semids q hq
        · exact List.mem_singleton.mp hq ▸ hsem
      · show s.sent + 1 = _ + (s.msgq ++ [p]).length
        rw [hs.sent, List.length_append]
        rfl
      · rintro - (hfalse | hpoint | hpoint)
        · exact absurd (honce'.symm.trans hfalse) (by simp)
        · exact absurd hpoint htop
        · exact absurd hpoint hcheck
    | permit =>
      refine ⟨hs.conserved, hg, hs.semids, hs.sent, ?_, fun _ _ => Or.inl rfl, hs.kept, hs.exited⟩
      exact fun h' => Eq.trans h (hs.announced h')
    | sigusr1 =>
      obtain ⟨hp, honce⟩ := h
      refine ⟨hs.conserved, hg, hs.semids, hs.sent, fun _ => honce, ?_, hs.kept, hs.exited⟩
      exact fun hne _ => hs.posted hne (Or.inr (Or.inr hp))

theorem own_receive (ha : a.Own) (h : LoopStep l a l') (hp : l.point = .receive) :
    l'.point = .receive := by
  cases h with
  | tick | sigusr2 => exact hp
  | sigusr1 | refused | taken | receive | noMessage => exact absurd ha id
  | _ hp' => simp [hp] at hp'

theorem own_exited (ha : a.Own) (h : LoopStep l a l')
    (hold : l.point = .exited → l.scheduler.isDone = true) (hp : l'.point = .exited) :
    l'.scheduler.isDone = true := by
  cases h with
  | tick => exact hold hp
  | sigusr2 hp' => exact absurd hp hp'
  | exit _ hd => exact hd
  | sigusr1 | refused | taken | receive | noMessage => exact absurd ha id
  | _ => cases hp

/-- The loop does not end before a process in it is finished. -/
theorem own_stays (hs : Sound l.scheduler) (ha : a.Own) (h : LoopStep l a l')
    (hsig : ∀ i, a = .sigusr2 i →
      l.point = .downNb ∨ l.point = .receive ∨ l.scheduler.ready ≠ [])
    (hl : l.Stays) : l'.Stays := by
  have hbusy : l.point ≠ .downNb → l.point ≠ .receive → l.Busy :=
    fun h h' => (hl.resolve_left h).resolve_left h'
  cases h with
  | tick => exact hl
  | @sigusr2 i hp =>
    rcases hsig i rfl with hp | hp | hr
    · exact Or.inl hp
    · exact Or.inr (Or.inl hp)
    · exact Or.inr (Or.inr (completion_busy (hs.feed i) hr l.clock))
  | exit hp hd =>
    obtain ⟨-, hr, hc⟩ := isDone_idle hd
    exact absurd (hbusy (by simp [hp]) (by simp [hp])) (by simp [Loop.Busy, hr, hc])
  | test hp hd => exact Or.inl rfl
  | @runAlgorithm i hp =>
    exact Or.inr (Or.inr (moves_busy (runAlgorithm_moves (hs.feed i))
      (hbusy (by simp [hp]) (by simp [hp]))))
  | @refresh i hp =>
    exact Or.inr (Or.inr (moves_busy (updateCurrent_moves (hs.feed i))
      (hbusy (by simp [hp]) (by simp [hp]))))
  | grant hp =>
    have hwork := hbusy (by simp [hp]) (by simp [hp])
    refine Or.inr (Or.inr ?_)
    show _ ∨ _
    rw [grantTick_ready, grantTick_current]
    exact hwork
  | sigusr1 | refused | taken | receive | noMessage => exact absurd ha id
  | getClk hp | differs hp | equals hp | assign hp | again hp =>
    exact Or.inr (Or.inr (hbusy (by simp [hp]) (by simp [hp])))

/-- A step of the scheduler that takes nothing from the generator. -/
theorem orderly_own (hs : Orderly s) (hok : SignalsInTime s (.loop a)) (ha : a.Own)
    (h : LoopStep s.loop a l) : Orderly { s with loop := l } := by
  have hcons : Conserved l.scheduler := by
    refine conserved_preserved.step hs.conserved ?_ h
    rintro p i rfl
    exact absurd ha id
  obtain ⟨hcount, hgen⟩ := own_books ha h
  refine ⟨hcons, hs.sender, hs.semids, ?_, ?_, ?_, ?_, own_exited ha h hs.exited⟩
  · rw [hcount]
    exact hs.sent
  · rw [hgen]
    exact hs.announced
  · intro hne hwhen
    exact (hs.posted hne hwhen).imp_right (own_receive ha h)
  · rw [hgen]
    intro hfin
    rcases hs.kept hfin with hq | hstays
    · exact Or.inl hq
    · by_cases hq : s.msgq = []
      · exact Or.inl hq
      · refine Or.inr (own_stays hs.conserved.toSound ha h ?_ hstays)
        rintro i rfl
        exact (hok hfin).resolve_left hq

/-- A step of the scheduler. -/
theorem orderly_loop (hs : Orderly s) (hok : SignalsInTime s (.loop a)) (h : PartyStep s a s') :
    Orderly s' := by
  cases h with
  | own ha h => exact orderly_own hs hok ha h
  | sigusr1 hsent h =>
    cases h with
    | sigusr1 hp =>
      refine ⟨conserved_preserved.generator _ hs.conserved, hs.sender, hs.semids, hs.sent,
        fun _ => hs.announced (Or.inl hsent), hs.posted, fun _ => hok, fun h => absurd h hp⟩
  | downNb h =>
    generalize hpermit : s.permit = taken at h
    cases h with
    | refused hp =>
      have hunposted : ∀ hwhen, s.msgq ≠ [] → False := fun hwhen hne => by
        rcases hs.posted hne hwhen with h | h
        · simp [hpermit] at h
        · simp [hp] at h
      refine ⟨hs.conserved, hs.sender, hs.semids, hs.sent, hs.announced,
        fun hne hwhen => absurd hne (hunposted hwhen), fun hfin => ?_, nofun⟩
      by_contra hkept
      refine hunposted (Or.inl (hs.announced (Or.inr hfin))) fun hq => hkept (Or.inl hq)
    | taken hp =>
      exact ⟨hs.conserved, hs.sender, hs.semids, hs.sent, hs.announced,
        fun _ _ => Or.inr rfl, fun _ => Or.inr (Or.inr (Or.inl rfl)), nofun⟩
  | @receive l p rest i hq h =>
    have hsem : 0 < p.syncSemid := hs.semids p (hq ▸ List.mem_cons_self)
    have hcons : Conserved l.scheduler := by
      refine conserved_preserved.step hs.conserved ?_ h
      rintro q j ⟨⟩
      exact ⟨hsem, hok⟩
    cases h with
    | receive hp =>
      obtain ⟨clk, hb⟩ := receiveMessage_books (Scheduler.feed _ i) p
      have hcount := hb.processCount
      have hgen := hb.generatorFinished
      refine ⟨hcons, hs.sender, fun q h => hs.semids q (hq ▸ List.mem_cons_of_mem _ h), ?_, ?_,
        fun _ _ => Or.inr hp, fun _ => Or.inr (Or.inr (Or.inl hp)), ?_⟩
      · have hsent := hs.sent
        rw [hq, List.length_cons] at hsent
        rw [hcount]
        show s.sent = s.loop.scheduler.processCount + 1 + rest.length
        omega
      · rw [hgen]
        exact hs.announced
      · intro h
        simp [hp] at h
  | noMessage hq h =>
    cases h with
    | noMessage hp =>
      exact ⟨hs.conserved, hs.sender, hs.semids, hs.sent, hs.announced,
        fun hne => absurd hq hne, fun _ => Or.inl hq, nofun⟩

/-- Nothing is lost in any interleaving in which the signals are handled in time and the messages
find a place in the heap. -/
theorem noneLost_always (algorithm : SchedulingAlgorithm) (quantum clk : ℤ) (pq : List Process)
    (as : List PartyAct) :
    Always (Guarded SignalsInTime Parties.next) (Parties.initial algorithm quantum clk pq) as
      NoneLost := by
  intro pre s _ ht
  refine noneLost_of_orderly (ht.invariant (P := Orderly) ?_ ?_)
  · rintro s a s' hs ⟨hok, hstep⟩
    cases a with
    | loop a => exact orderly_loop hs hok (partyStep_of_loopNext hstep)
    | sender a =>
      simp only [Parties.next, Option.map_eq_some_iff] at hstep
      obtain ⟨⟨g, sent⟩, hg, rfl⟩ := hstep
      obtain ⟨hsound, hsends⟩ := sender_step hs.sender hg
      exact orderly_sender hs hsound hsends
  · refine ⟨conserved_initial algorithm quantum clk, ⟨fun _ => rfl, by simp [Parties.initial], nofun⟩,
      by simp [Parties.initial], rfl, ?_, fun h => absurd rfl h, nofun, nofun⟩
    rintro (h | h) <;> cases h

/-- One process is sent, and then the announcement, before the scheduler's first `down_nb`. -/
def lostProcessRun : List PartyAct :=
  [.sender .readClock, .sender (.serve false 0 0), .sender (.admitArrived true 101 11 21), .sender .post,
    .sender .check, .loop .sigusr1, .loop (.advance {})]

/-- The scheduler ends with the process in the queue. -/
theorem lostProcess_in_queue :
    ¬ Always (Guarded (fun _ _ => True) Parties.next)
      (Parties.initial .HPF 0 0 [⟨1, 0, 3, 0, 64⟩]) lostProcessRun NoneLost := by
  intro h
  obtain ⟨s, hrun, htest⟩ := exists_trace_of_execute (R := fun s a t => Parties.next s a = some t)
    (fun _ _ _ h => h)
    (show (execute (fun _ _ => True) Parties.next
      (Parties.initial .HPF 0 0 [⟨1, 0, 3, 0, 64⟩]) lostProcessRun).any
        (fun s => s.loop.point = .exited ∧ s.msgq ≠ []) = true by decide +kernel)
  obtain ⟨hp, hq⟩ := of_decide_eq_true htest
  exact hq (h _ s (List.prefix_refl _) hrun hp).1

end KernelSim
