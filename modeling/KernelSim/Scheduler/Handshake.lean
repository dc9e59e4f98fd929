import KernelSim.Library.Channel
import KernelSim.Scheduler.Shutdown

/-! The handshake of a tick: which messages of the generator the scheduler has when it decides. -/
namespace KernelSim
open Runs Channel

/-- The two parties, with a record of the messages sent, each with the tick of the generator it is
sent in, of the messages received, and of the calls of `run_algorithm`, each with its `clockValue`
and the messages received before it. -/
structure Handshake where
  parties : Parties
  sent : List (ℤ × PCB)
  received : List PCB
  decisions : List (ℤ × List PCB)

namespace Handshake

def initial (algorithm : SchedulingAlgorithm) (quantum clk : ℤ) (pq : List Process) : Handshake :=
  { parties := Parties.initial algorithm quantum clk pq, sent := [], received := [], decisions := [] }

/-- The generator's tick is that of the `current_time` it has read last. -/
def sends (s : Handshake) : PartyAct → List (ℤ × PCB)
  | .sender a =>
    match s.parties.sender.next s.parties.loop.clock a with
    | some (_, some (.message p)) => [(s.parties.sender.lastTick, p)]
    | _ => []
  | .loop _ => []

def decides (s : Handshake) : PartyAct → List (ℤ × List PCB)
  | .loop (.advance _) =>
    if s.parties.loop.point = .runAlgorithm then
      [(s.parties.loop.scheduler.clockValue, s.received)]
    else []
  | _ => []

end Handshake

def PartyAct.receives : PartyAct → List PCB
  | .loop (.receive p _) => [p]
  | _ => []

def Handshake.next (s : Handshake) (a : PartyAct) : Option Handshake :=
  (s.parties.next a).map fun parties =>
    { parties
      sent := s.sent ++ s.sends a
      received := s.received ++ a.receives
      decisions := s.decisions ++ s.decides a }

/-- Every decision was made with all the messages of the ticks up to its `clockValue`, however late
they were sent. -/
def ReceivedFirst (s : Handshake) : Prop := ∀ d ∈ s.decisions, CaughtUp s.sent d.2 d.1

namespace Sender

/-- `while (!pq_empty(&pq) && pq_top(&pq).arrival_time <= current_time)` is not entered. -/
def NoneDue (g : Sender) (t : ℤ) : Prop := ∀ p ∈ g.pq.head?, t < p.arrivalTime

/-- Nothing is left to send in the tick the generator is in. -/
def TickOver (g : Sender) : Prop :=
  match g.point with
  | .top | .check => True
  | .serve => g.waitingQueue = [] ∧ g.NoneDue g.lastTick
  | .admitArrived => g.NoneDue g.lastTick

/-- Nothing is left to send at `t`: its tick is over, or there is nothing for it. -/
def Through (g : Sender) (t : ℤ) : Prop :=
  g.lastTick = t ∧ g.TickOver ∨ g.waitingQueue = [] ∧ g.tempQueue = [] ∧ g.NoneDue t

/-- Nothing more is sent in a tick up to `t`. -/
def Past (g : Sender) (t : ℤ) : Prop := t < g.lastTick ∨ g.Through t

variable {g g' : Sender} {t v clk : ℤ} {a : SenderAct} {sent : Option Sent} {p : PCB}

theorem NoneDue.mono (h : g.NoneDue t) (hle : v ≤ t) : g.NoneDue v :=
  fun p hp => lt_of_le_of_lt hle (h p hp)

theorem Through.past (h : g.Through t) (hle : v ≤ t) : g.Past v := by
  rcases h with ⟨rfl, hover⟩ | ⟨hwaiting, htemp, hdue⟩
  · rcases lt_or_eq_of_le hle with hlt | rfl
    · exact Or.inl hlt
    · exact Or.inr (Or.inl ⟨rfl, hover⟩)
  · exact Or.inr (Or.inr ⟨hwaiting, htemp, hdue.mono hle⟩)

/-- Between two ticks nothing is left of the one before. -/
theorem Past.between (h : g.Past v) {point : SenderPoint} (hp : point = .top ∨ point = .check) :
    ({ g with point } : Sender).Past v := by
  have hover : ({ g with point } : Sender).TickOver := by
    rcases hp with rfl | rfl <;> exact trivial
  rcases h with hlt | ⟨hlast, -⟩ | hnone
  · exact Or.inl hlt
  · exact Or.inr (Or.inl ⟨hlast, hover⟩)
  · exact Or.inr (Or.inr hnone)

theorem lastTick_step (hle : g.lastTick ≤ clk) (h : g.next clk a = some (g', sent)) :
    g.lastTick ≤ g'.lastTick ∧ g'.lastTick ≤ clk := by
  cases a with
  | readClock =>
    simp only [Sender.next, Option.ite_none_right_eq_some] at h
    obtain ⟨-, h⟩ := h
    split at h <;> cases h
    · exact ⟨hle, le_refl clk⟩
    · exact ⟨le_refl _, hle⟩
  | serve admitted pid shmId =>
    simp only [Sender.next, Option.ite_none_right_eq_some] at h
    obtain ⟨-, h⟩ := h
    split at h
    · split at h <;> cases h <;> exact ⟨le_refl _, hle⟩
    · cases h
      exact ⟨le_refl _, hle⟩
  | admitArrived admitted pid shmId syncSemid =>
    simp only [Sender.next, Option.ite_none_right_eq_some] at h
    obtain ⟨-, h⟩ := h
    split at h
    · simp only [Option.ite_none_right_eq_some] at h
      obtain ⟨-, h⟩ := h
      split at h <;> cases h <;> exact ⟨le_refl _, hle⟩
    · cases h
  | post =>
    simp only [Sender.next, Option.ite_none_right_eq_some] at h
    obtain ⟨-, h⟩ := h
    cases h
    exact ⟨le_refl _, hle⟩
  | check =>
    simp only [Sender.next, Option.ite_none_right_eq_some] at h
    obtain ⟨-, h⟩ := h
    split at h <;> cases h <;> exact ⟨le_refl _, hle⟩

/-- What is past stays past, and the messages are those of later ticks. -/
theorem past_step (hle : g.lastTick ≤ clk) (hv : g.Past v) (h : g.next clk a = some (g', sent)) :
    g'.Past v ∧ ∀ p, sent = some (.message p) → v < g.lastTick := by
  cases a with
  | readClock =>
    simp only [Sender.next, Option.ite_none_right_eq_some] at h
    obtain ⟨hp, h⟩ := h
    split at h
    · rename_i hne
      cases h
      refine ⟨?_, by simp⟩
      rcases hv with hlt | ⟨rfl, -⟩ | hnone
      · exact Or.inl (lt_of_lt_of_le hlt hle)
      · exact Or.inl (lt_of_le_of_ne hle (Ne.symm hne))
      · exact Or.inr (Or.inr hnone)
    · cases h
      exact ⟨hv.between (Or.inr rfl), by simp⟩
  | serve admitted pid shmId =>
    simp only [Sender.next, Option.ite_none_right_eq_some] at h
    obtain ⟨hp, h⟩ := h
    split at h
    · rename_i p rest hq
      have hlt : v < g.lastTick := by
        rcases hv with hlt | ⟨-, hover⟩ | ⟨hnil, -⟩
        · exact hlt
        · simp [TickOver, hp, hq] at hover
        · simp [hq] at hnil
      split at h <;> cases h <;> exact ⟨Or.inl hlt, fun _ _ => hlt⟩
    · rename_i hq
      cases h
      refine ⟨?_, by simp⟩
      rcases hv with hlt | ⟨rfl, hover⟩ | ⟨-, htemp, hdue⟩
      · exact Or.inl hlt
      · simp only [TickOver, hp] at hover
        exact Or.inr (Or.inl ⟨rfl, hover.2⟩)
      · exact Or.inr (Or.inr ⟨htemp, rfl, hdue⟩)
  | admitArrived admitted pid shmId syncSemid =>
    simp only [Sender.next, Option.ite_none_right_eq_some] at h
    obtain ⟨⟨hp, -⟩, h⟩ := h
    split at h
    · rename_i p rest hq
      simp only [Option.ite_none_right_eq_some] at h
      obtain ⟨harrived, h⟩ := h
      have hnotDue : ∀ t, g.NoneDue t → t < g.lastTick := by
        intro t hdue
        exact lt_of_lt_of_le (hdue p (by simp [hq])) harrived
      have hlt : v < g.lastTick := by
        rcases hv with hlt | ⟨-, hover⟩ | ⟨-, -, hdue⟩
        · exact hlt
        · simp only [TickOver, hp] at hover
          exact absurd (hnotDue _ hover) (lt_irrefl _)
        · exact hnotDue v hdue
      split at h <;> cases h <;> exact ⟨Or.inl hlt, fun _ _ => hlt⟩
    · cases h
  | post =>
    simp only [Sender.next, Option.ite_none_right_eq_some] at h
    obtain ⟨-, h⟩ := h
    cases h
    exact ⟨hv.between (Or.inr rfl), by simp⟩
  | check =>
    simp only [Sender.next, Option.ite_none_right_eq_some] at h
    obtain ⟨-, h⟩ := h
    split at h <;> cases h
    · exact ⟨hv.between (Or.inl rfl), by simp⟩
    · exact ⟨hv.between (Or.inl rfl), by simp⟩

end Sender

namespace Loop

/-- The `clockValue` that `run_algorithm` will be called with, where no signal comes between. -/
def due (l : Loop) : Option ℤ :=
  match l.point with
  | .compare => if l.currentTime ≠ l.scheduler.clockValue then some l.currentTime else none
  | .assign => some l.currentTime
  | .runAlgorithm => some l.scheduler.clockValue
  | _ => none

/-- The step reads a time on the clock that is not `clockValue`, and `run_algorithm` follows: in the
loop, or in the handler of `SIGUSR2` once the loop has read the clock. -/
def Reads (l : Loop) : LoopAct → Prop
  | .advance _ => l.point = .getClk ∧ l.clock ≠ l.scheduler.clockValue
  | .sigusr2 _ => l.clock ≠ l.scheduler.clockValue ∧
      (l.point = .compare ∧ l.currentTime = l.scheduler.clockValue ∨ l.point = .runAlgorithm)
  | _ => False

instance (l : Loop) : ∀ a, Decidable (l.Reads a)
  | .advance _ => inferInstanceAs (Decidable (l.point = .getClk ∧ l.clock ≠ l.scheduler.clockValue))
  | .sigusr2 _ => inferInstanceAs (Decidable (l.clock ≠ l.scheduler.clockValue ∧
      (l.point = .compare ∧ l.currentTime = l.scheduler.clockValue ∨ l.point = .runAlgorithm)))
  | .tick => isFalse id
  | .sigusr1 => isFalse id
  | .downNb _ => isFalse id
  | .receive _ _ => isFalse id
  | .noMessage => isFalse id

variable {l l' : Loop} {a : LoopAct} {v : ℤ}

/-- A value becomes due by such a reading only. -/
theorem due_step (hle : l.currentTime ≤ l.clock) (h : LoopStep l a l') (hv : l'.due = some v) :
    l.due = some v ∨ l.Reads a ∧ v ≤ l.clock := by
  cases h with
  | tick | sigusr1 => exact Or.inl hv
  | @sigusr2 i hp =>
    have hvalue := l.complete_clockValue i
    have hpoint : (l.complete i).point = l.point := rfl
    have hread : (l.complete i).currentTime = l.currentTime := rfl
    simp only [due, hpoint, hread, hvalue] at hv
    by_cases heq : l.clock = l.scheduler.clockValue
    · left
      rwa [heq] at hv
    · cases hp' : l.point <;> simp only [hp'] at hv
      case compare =>
        rw [Option.ite_none_right_eq_some, Option.some.injEq] at hv
        obtain ⟨-, rfl⟩ := hv
        by_cases hsame : l.currentTime = l.scheduler.clockValue
        · exact Or.inr ⟨⟨heq, Or.inl ⟨hp', hsame⟩⟩, hle⟩
        · left
          simp [due, hp', hsame]
      case assign =>
        left
        simpa [due, hp'] using hv
      case runAlgorithm =>
        cases hv
        exact Or.inr ⟨⟨heq, Or.inr hp'⟩, le_refl _⟩
      all_goals cases hv
  | getClk hp =>
    simp only [due, Option.ite_none_right_eq_some, Option.some.injEq] at hv
    obtain ⟨hne, rfl⟩ := hv
    exact Or.inr ⟨⟨hp, hne⟩, le_refl _⟩
  | differs hp hne =>
    left
    simpa [due, hp, hne] using hv
  | assign hp =>
    left
    simpa [due, hp] using hv
  | receive hp => simp [due, hp] at hv
  | exit | test | refused | taken | noMessage | equals | runAlgorithm | grant | refresh
  | again => cases hv

end Loop

/-- The messages are received, and the generator sends no more at the time on the clock. -/
def Parties.Served (s : Parties) : Prop := s.msgq = [] ∧ s.sender.Through s.loop.clock

/-- A time is read for `run_algorithm` only when the generator is through with it. -/
def ReadsInTurn (s : Handshake) : PartyAct → Prop
  | .loop a => s.parties.loop.Reads a → s.parties.Served
  | .sender _ => True

/-- The messages of the ticks up to `v` are received, and there will be no others. -/
def Handshake.Settled (s : Handshake) (v : ℤ) : Prop :=
  CaughtUp s.sent s.received v ∧ s.parties.sender.Past v

/-- Every PCB on its way to the scheduler has a valid semaphore id. -/
structure Parties.Valid (s : Parties) : Prop where
  sound : Scheduler.Sound s.loop.scheduler
  sender : s.sender.Sound
  semids : ∀ p ∈ s.msgq, 0 < p.syncSemid

/-- The record agrees with the parties: the messages received and those in the queue are the ones
sent, none of them in a tick that is still to come. -/
structure Handshake.Faithful (s : Handshake) : Prop where
  valid : s.parties.Valid
  fifo : s.received ++ s.parties.msgq = s.sent.map Prod.snd
  stamps : ∀ m ∈ s.sent, m.1 ≤ s.parties.sender.lastTick
  lastTick : s.parties.sender.lastTick ≤ s.parties.loop.clock
  currentTime : s.parties.loop.currentTime ≤ s.parties.loop.clock

/-- The invariant of runs in which the clock is read in turn. -/
structure InTurn (s : Handshake) : Prop extends s.Faithful where
  due : ∀ v, s.parties.loop.due = some v → s.Settled v
  decided : ∀ d ∈ s.decisions, CaughtUp s.sent d.2 d.1 ∧ s.parties.sender.Past d.1

variable {s s' : Handshake} {t t' : Parties} {a : LoopAct} {v : ℤ}

/-- What a step of the scheduler does to the generator, the queue and the clock. -/
theorem partyStep_spec (h : PartyStep t a t') :
    LoopStep t.loop a t'.loop ∧ t'.sender = t.sender ∧
      t.msgq = (PartyAct.loop a).receives ++ t'.msgq := by
  cases h with
  | own ha h =>
    refine ⟨h, rfl, ?_⟩
    cases h with
    | sigusr1 | refused | taken | receive | noMessage => exact absurd ha id
    | _ => rfl
  | sigusr1 hs h => exact ⟨h, rfl, rfl⟩
  | downNb h => exact ⟨h, rfl, rfl⟩
  | receive hq h => exact ⟨h, rfl, hq⟩
  | noMessage hq h => exact ⟨h, rfl, rfl⟩

theorem valid_loop (hs : t.Valid) (h : PartyStep t a t') : t'.Valid := by
  obtain ⟨hl, hsender, hq⟩ := partyStep_spec h
  refine ⟨?_, hsender ▸ hs.sender, fun p hp => hs.semids p ?_⟩
  · refine Scheduler.sound_preserved.step hs.sound ?_ hl
    rintro p i rfl
    apply hs.semids p
    rw [hq]
    exact List.mem_cons_self
  · rw [hq]
    exact List.mem_append_right _ hp

theorem valid_sender {g : Sender} {sent : Option Sent} (hs : t.Valid) (hg : g.Sound)
    (h : t.sender.Sends g sent) : ({ t with sender := g }.deliver sent).Valid := by
  cases sent with
  | none => exact ⟨hs.sound, hg, hs.semids⟩
  | some m =>
    cases m with
    | permit | sigusr1 => exact ⟨hs.sound, hg, hs.semids⟩
    | message p =>
      refine ⟨hs.sound, hg, fun q hq => ?_⟩
      rcases List.mem_append.mp hq with hq | hq
      · exact hs.semids q hq
      · exact List.mem_singleton.mp hq ▸ h.1

theorem loop_clock {l l' : Loop} (h : LoopStep l a l') (hle : l.currentTime ≤ l.clock) :
    l.clock ≤ l'.clock ∧ l'.currentTime ≤ l'.clock := by
  cases h with
  | tick =>
    dsimp only
    omega
  | getClk hp => exact ⟨le_refl _, le_refl _⟩
  | _ => exact ⟨le_refl _, hle⟩

/-- The clock read in turn settles its value. -/
theorem settled_served (hs : s.Faithful) (h : s.parties.Served) (hle : v ≤ s.parties.loop.clock) :
    s.Settled v := by
  obtain ⟨hq, hthrough⟩ := h
  have hfifo := hs.fifo
  rw [hq, List.append_nil] at hfifo
  exact ⟨caughtUp_of_drained hfifo, hthrough.past hle⟩

/-- A decision is made with the value that is due. -/
theorem decides_due {d : ℤ × List PCB} {b : PartyAct} (h : d ∈ s.decides b) :
    s.parties.loop.due = some d.1 ∧ d.2 = s.received := by
  cases b with
  | sender b => cases h
  | loop b =>
    cases b with
    | advance i =>
      simp only [Handshake.decides] at h
      split at h
      · rename_i hp
        obtain rfl := List.mem_singleton.mp h
        exact ⟨by simp [Loop.due, hp], rfl⟩
      · cases h
    | _ => cases h

/-- A step of the generator adds its message to the record. -/
theorem sends_eq {b : SenderAct} {g : Sender} {sent : Option Sent}
    (h : s.parties.sender.next s.parties.loop.clock b = some (g, sent)) :
    (∃ p, sent = some (.message p) ∧
        s.sends (.sender b) = [(s.parties.sender.lastTick, p)]) ∨
      (∀ p, sent ≠ some (.message p)) ∧ s.sends (.sender b) = [] := by
  simp only [Handshake.sends, h]
  cases sent with
  | none => exact Or.inr ⟨by simp, rfl⟩
  | some m =>
    cases m with
    | message p => exact Or.inl ⟨p, rfl, rfl⟩
    | permit | sigusr1 => exact Or.inr ⟨by simp, rfl⟩

theorem deliver_loop {g : Sender} {sent : Option Sent} :
    ({ t with sender := g }.deliver sent).loop = t.loop ∧
      ({ t with sender := g }.deliver sent).sender = g := by
  cases sent with
  | none => exact ⟨rfl, rfl⟩
  | some m => cases m <;> exact ⟨rfl, rfl⟩

/-- What a step does to the record and to the parties. -/
inductive HandshakeStep (s : Handshake) : PartyAct → Handshake → Prop
  | loop {a : LoopAct} {t : Parties} (h : PartyStep s.parties a t) :
      HandshakeStep s (.loop a)
        { parties := t
          sent := s.sent
          received := s.received ++ (PartyAct.loop a).receives
          decisions := s.decisions ++ s.decides (.loop a) }
  | sender {b : SenderAct} {g : Sender} {sent : Option Sent}
      (h : s.parties.sender.next s.parties.loop.clock b = some (g, sent)) :
      HandshakeStep s (.sender b)
        { parties := { s.parties with sender := g }.deliver sent
          sent := s.sent ++ s.sends (.sender b)
          received := s.received
          decisions := s.decisions }

theorem handshakeStep_of_next {b : PartyAct} (h : s.next b = some s') : HandshakeStep s b s' := by
  simp only [Handshake.next, Option.map_eq_some_iff] at h
  obtain ⟨parties, hstep, rfl⟩ := h
  cases b with
  | loop a =>
    have hsent : s.sent ++ s.sends (.loop a) = s.sent := List.append_nil _
    rw [hsent]
    exact .loop (partyStep_of_loopNext hstep)
  | sender b =>
    simp only [Parties.next, Option.map_eq_some_iff] at hstep
    obtain ⟨⟨g, sent⟩, hg, rfl⟩ := hstep
    have hreceived : s.received ++ (PartyAct.sender b).receives = s.received := List.append_nil _
    have hdecisions : s.decisions ++ s.decides (.sender b) = s.decisions := List.append_nil _
    rw [hreceived, hdecisions]
    exact .sender hg

theorem faithful_step {b : PartyAct} (hs : s.Faithful) (h : HandshakeStep s b s') :
    s'.Faithful := by
  cases h with
  | loop h =>
    obtain ⟨hl, hsender, hq⟩ := partyStep_spec h
    obtain ⟨hclk, hcur⟩ := loop_clock hl hs.currentTime
    refine ⟨valid_loop hs.valid h, ?_, hsender ▸ hs.stamps, ?_, hcur⟩
    · rw [List.append_assoc, ← hq]
      exact hs.fifo
    · rw [hsender]
      exact hs.lastTick.trans hclk
  | @sender b g sent h =>
    obtain ⟨hsound, hsends⟩ := sender_step hs.valid.sender h
    obtain ⟨hloop, hsender⟩ : ({ s.parties with sender := g }.deliver sent).loop = s.parties.loop ∧
      ({ s.parties with sender := g }.deliver sent).sender = g := deliver_loop
    obtain ⟨hlater, hlast⟩ := Sender.lastTick_step hs.lastTick h
    refine ⟨valid_sender hs.valid hsound hsends, ?_, ?_, ?_, ?_⟩
    · have hfifo := hs.fifo
      rcases sends_eq h with ⟨p, rfl, hmessage⟩ | ⟨hother, hnone⟩
      · rw [hmessage, List.map_append, ← hfifo, List.append_assoc]
        rfl
      · rw [hnone, List.append_nil, ← hfifo]
        cases sent with
        | none => rfl
        | some m =>
          cases m with
          | message p => exact absurd rfl (hother p)
          | permit | sigusr1 => rfl
    · intro m hm
      rw [hsender]
      rcases List.mem_append.mp hm with hm | hm
      · exact (hs.stamps m hm).trans hlater
      · rcases sends_eq h with ⟨p, -, hmessage⟩ | ⟨-, hnone⟩
        · rw [hmessage, List.mem_singleton] at hm
          rw [hm]
          exact hlater
        · simp [hnone] at hm
    · rw [hloop, hsender]
      exact hlast
    · rw [hloop]
      exact hs.currentTime

theorem inTurn_step {b : PartyAct} (hs : InTurn s) (hok : ReadsInTurn s b)
    (h : HandshakeStep s b s') : InTurn s' := by
  have hfaithful := faithful_step hs.toFaithful h
  cases h with
  | loop h =>
    obtain ⟨hl, hsender, -⟩ := partyStep_spec h
    refine ⟨hfaithful, ?_, ?_⟩
    · intro v hv
      have hsettled : s.Settled v := by
        rcases Loop.due_step hs.currentTime hl hv with hdue | ⟨hreads, hle⟩
        · exact hs.due v hdue
        · exact settled_served hs.toFaithful (hok hreads) hle
      refine ⟨hsettled.1.receive, ?_⟩
      rw [hsender]
      exact hsettled.2
    · intro d hd
      rw [hsender]
      rcases List.mem_append.mp hd with hd | hd
      · exact hs.decided d hd
      · obtain ⟨hdue, hgot⟩ := decides_due hd
        rw [hgot]
        exact hs.due d.1 hdue
  | @sender b g sent h =>
    obtain ⟨hloop, hsender⟩ : ({ s.parties with sender := g }.deliver sent).loop = s.parties.loop ∧
      ({ s.parties with sender := g }.deliver sent).sender = g := deliver_loop
    have hcaught : ∀ got v, CaughtUp s.sent got v ∧ s.parties.sender.Past v →
        CaughtUp (s.sent ++ s.sends (.sender b)) got v ∧ g.Past v := by
      rintro got v ⟨hgot, hpast⟩
      obtain ⟨hpast', hlater⟩ := Sender.past_step hs.lastTick hpast h
      refine ⟨?_, hpast'⟩
      rcases sends_eq h with ⟨p, hp, hmessage⟩ | ⟨-, hnone⟩
      · rw [hmessage]
        exact hgot.send (not_le.mpr (hlater p hp))
      · rw [hnone, List.append_nil]
        exact hgot
    refine ⟨hfaithful, ?_, ?_⟩
    · intro v hv
      rw [hloop] at hv
      have hsettled := hcaught s.received v (hs.due v hv)
      refine ⟨hsettled.1, ?_⟩
      rw [hsender]
      exact hsettled.2
    · intro d hd
      rw [hsender]
      exact hcaught d.2 d.1 (hs.decided d hd)

theorem faithful_initial (algorithm : SchedulingAlgorithm) (quantum : ℤ) (clk : ℕ)
    (pq : List Process) : (Handshake.initial algorithm quantum clk pq).Faithful := by
  refine ⟨⟨Scheduler.sound_initial algorithm quantum clk, ⟨fun _ => rfl, ?_, ?_⟩, ?_⟩, rfl, ?_, ?_,
    le_refl _⟩
  · simp [Handshake.initial, Parties.initial]
  · intro h
    cases h
  · simp [Handshake.initial, Parties.initial]
  · intro m hm
    cases hm
  · show (-1 : ℤ) ≤ clk
    omega

theorem inTurn_initial (algorithm : SchedulingAlgorithm) (quantum : ℤ) (clk : ℕ)
    (pq : List Process) : InTurn (Handshake.initial algorithm quantum clk pq) := by
  refine ⟨faithful_initial algorithm quantum clk pq, ?_, ?_⟩
  · intro v hv
    cases hv
  · intro d hd
    cases hd

/-- So the messages of every tick are received first in every run. -/
theorem receivedFirst_always (algorithm : SchedulingAlgorithm) (quantum : ℤ) (clk : ℕ)
    (pq : List Process) (as : List PartyAct) :
    Always (Guarded ReadsInTurn Handshake.next) (Handshake.initial algorithm quantum clk pq) as
      ReceivedFirst := by
  intro pre s _ ht d hd
  refine ((ht.invariant (P := InTurn) ?_ ?_).decided d hd).1
  · rintro s a t hs ⟨hok, hstep⟩
    exact inTurn_step hs hok (handshakeStep_of_next hstep)
  · exact inTurn_initial algorithm quantum clk pq

/-- The permit of tick 0 is taken, the clock goes to 1, and time 1 is read and decided upon before
the generator reads it and sends the process that arrives then. -/
def stalePermitRun : List PartyAct :=
  [.sender .readClock, .sender (.serve false 0 0), .sender (.admitArrived true 101 11 21),
    .sender .post, .loop (.advance {}), .loop (.downNb true),
    .loop (.receive (Process.newPcb ⟨1, 0, 3, 0, 64⟩ 101 11 21) {}), .loop .noMessage, .loop .tick,
    .loop (.advance {}), .loop (.advance {}), .loop (.advance {}), .loop (.advance {}),
    .sender .check, .sender .readClock, .sender (.serve false 0 0),
    .sender (.admitArrived true 102 12 22)]

/-- The decision at time 1 was made without the second process. -/
theorem stalePermit_not_first :
    ¬ Always (Guarded (fun _ _ => True) Handshake.next)
      (Handshake.initial .HPF 0 0 [⟨1, 0, 3, 0, 64⟩, ⟨2, 1, 2, 1, 64⟩]) stalePermitRun
      ReceivedFirst := by
  intro h
  obtain ⟨s, hrun, htest⟩ := exists_trace_of_execute
    (R := fun s a t => Handshake.next s a = some t) (fun _ _ _ h => h)
    (show (execute (fun _ _ => True) Handshake.next
      (Handshake.initial .HPF 0 0 [⟨1, 0, 3, 0, 64⟩, ⟨2, 1, 2, 1, 64⟩]) stalePermitRun).any
        (fun s => s.decisions.any (fun d => decide (d.1 = 1 ∧ d.2.length = 1)) &&
          decide (s.sent[1]?.map Prod.fst = some 1)) = true by decide +kernel)
  rw [Bool.and_eq_true, List.any_eq_true, decide_eq_true_eq, Option.map_eq_some_iff] at htest
  obtain ⟨⟨d, hd, hone⟩, ⟨tick, p⟩, hsecond, rfl⟩ := htest
  obtain ⟨hvalue, hcount⟩ := of_decide_eq_true hone
  have hgot := h _ s (List.prefix_refl _) hrun d hd 1 1 p hsecond (le_of_eq hvalue.symm)
  have hlt := (List.getElem?_eq_some_iff.mp hgot).1
  omega

namespace Sender

/-- Some steps at the time `clk` lead to one that sends a message. -/
inductive CanSend (clk : ℤ) : Sender → Prop
  | send {g g' : Sender} {a : SenderAct} {p : PCB}
      (h : g.next clk a = some (g', some (.message p))) : CanSend clk g
  | wait {g g' : Sender} {a : SenderAct} {sent : Option Sent} (h : g.next clk a = some (g', sent))
      (hno : ∀ p, sent ≠ some (.message p)) (hg : CanSend clk g') : CanSend clk g

variable {g : Sender} {clk : ℤ}

theorem canSend_admitArrived (hp : g.point = .admitArrived) (hdue : ¬ g.NoneDue g.lastTick) :
    CanSend clk g := by
  cases hq : g.pq with
  | nil => exact absurd (by simp [NoneDue, hq]) hdue
  | cons p rest =>
    have harrived : p.arrivalTime ≤ g.lastTick := by simpa [NoneDue, hq] using hdue
    have hstep : g.next clk (.admitArrived true 0 0 1) =
        some ({ g with pq := rest }, some (.message (p.newPcb 0 0 1))) := by
      simp [Sender.next, hp, hq, harrived]
    exact .send hstep

theorem canSend_serve (hp : g.point = .serve)
    (h : g.waitingQueue ≠ [] ∨ ¬ g.NoneDue g.lastTick) : CanSend clk g := by
  cases hq : g.waitingQueue with
  | cons p rest =>
    have hstep : g.next clk (.serve true 0 0) = some ({ g with waitingQueue := rest },
        some (.message { p with pid := 0, shmId := 0 })) := by
      simp [Sender.next, hp, hq]
    exact .send hstep
  | nil =>
    have hstep : g.next clk (.serve true 0 0) = some ({ g with
        waitingQueue := g.tempQueue, tempQueue := [], point := .admitArrived }, none) := by
      simp [Sender.next, hp, hq]
    exact .wait hstep (by simp) (canSend_admitArrived rfl (h.resolve_left (by simp [hq])))

theorem canSend_top (hp : g.point = .top) (hne : clk ≠ g.lastTick)
    (h : g.waitingQueue ≠ [] ∨ ¬ g.NoneDue clk) : CanSend clk g := by
  have hstep : g.next clk .readClock =
      some ({ g with lastTick := clk, point := .serve }, none) := by
    simp [Sender.next, hp, hne]
  exact .wait hstep (by simp) (canSend_serve rfl h)

theorem canSend_check (hp : g.point = .check) (hne : clk ≠ g.lastTick)
    (h : g.waitingQueue ≠ [] ∨ ¬ g.NoneDue clk) : CanSend clk g := by
  have hwork : ¬ (g.pq.isEmpty ∧ g.waitingQueue.isEmpty ∧ g.once) := by
    rintro ⟨hpq, hwaiting, -⟩
    rcases h with h | h
    · exact h (List.isEmpty_iff.mp hwaiting)
    · exact h (by simp [NoneDue, List.isEmpty_iff.mp hpq])
  have hstep : g.next clk .check = some ({ g with point := .top }, none) := by
    simp only [Sender.next, if_pos hp, if_neg hwork]
  exact .wait hstep (by simp) (canSend_top rfl hne h)

theorem canSend_post (hp : g.point = .admitArrived) (hne : clk ≠ g.lastTick)
    (h : g.waitingQueue ≠ [] ∨ ¬ g.NoneDue clk) : CanSend clk g := by
  by_cases hdue : g.NoneDue g.lastTick
  · have hstep : g.next clk .post = some ({ g with point := .check }, some .permit) := by
      exact if_pos ⟨hp, hdue⟩
    exact .wait hstep (by simp) (canSend_check rfl hne h)
  · exact canSend_admitArrived hp hdue

/-- Where the generator is not through with the time on the clock, it can still send at it. -/
theorem canSend_of_not_through (hg : g.Sound) (h : ¬ g.Through clk) : CanSend clk g := by
  obtain ⟨hover, hwork⟩ := not_or.mp h
  have hrest : g.tempQueue = [] → g.waitingQueue ≠ [] ∨ ¬ g.NoneDue clk := by
    intro htemp
    by_contra hnone
    obtain ⟨hwaiting, hdue⟩ := not_or.mp hnone
    exact hwork ⟨not_not.mp hwaiting, htemp, not_not.mp hdue⟩
  by_cases hlast : g.lastTick = clk
  · have hover : ¬ g.TickOver := fun h => hover ⟨hlast, h⟩
    cases hp : g.point with
    | top | check => exact absurd (by simp [TickOver, hp]) hover
    | serve =>
      refine canSend_serve hp ?_
      by_contra hnone
      obtain ⟨hwaiting, hdue⟩ := not_or.mp hnone
      refine hover ?_
      simp only [TickOver, hp]
      exact ⟨not_not.mp hwaiting, not_not.mp hdue⟩
    | admitArrived =>
      refine canSend_admitArrived hp fun hdue => hover ?_
      simpa only [TickOver, hp] using hdue
  · have hne : clk ≠ g.lastTick := Ne.symm hlast
    cases hp : g.point with
    | top => exact canSend_top hp hne (hrest (hg.temp (by simp [hp])))
    | check => exact canSend_check hp hne (hrest (hg.temp (by simp [hp])))
    | admitArrived => exact canSend_post hp hne (hrest (hg.temp (by simp [hp])))
    | serve =>
      by_cases hq : g.waitingQueue = []
      · have hstep : g.next clk (.serve true 0 0) = some ({ g with
            waitingQueue := g.tempQueue, tempQueue := [], point := .admitArrived }, none) := by
          simp [Sender.next, hp, hq]
        refine .wait hstep (by simp) (canSend_post rfl hne ?_)
        by_contra hnone
        obtain ⟨htemp, hdue⟩ := not_or.mp hnone
        exact hwork ⟨hq, not_not.mp htemp, not_not.mp hdue⟩
      · exact canSend_serve hp (Or.inl hq)

end Sender

/-- The steps of the parties in any order. -/
def FreeStep : Handshake → PartyAct → Handshake → Prop := Guarded (fun _ _ => True) Handshake.next

theorem faithful_reachable (h : Reachable FreeStep s s') (hs : s.Faithful) : s'.Faithful :=
  h.invariant (fun _ _ _ hs hstep => faithful_step hs (handshakeStep_of_next hstep.2)) hs

theorem reach_sender {b : SenderAct} {g : Sender} {sent : Option Sent}
    (h : s.parties.sender.next s.parties.loop.clock b = some (g, sent)) :
    ∃ t, Reachable FreeStep s t ∧ t.parties.sender = g ∧ t.parties.loop = s.parties.loop ∧
      t.sent = s.sent ++ s.sends (.sender b) ∧ t.decisions = s.decisions := by
  have hnext : s.next (.sender b) = some
      { parties := { s.parties with sender := g }.deliver sent
        sent := s.sent ++ s.sends (.sender b)
        received := s.received ++ (PartyAct.sender b).receives
        decisions := s.decisions ++ s.decides (.sender b) } := by
    simp only [Handshake.next, Parties.next, h, Option.map_some]
  refine ⟨_, Reachable.refl.snoc ⟨trivial, hnext⟩, deliver_loop.2, deliver_loop.1, rfl, ?_⟩
  exact List.append_nil _

/-- The rest of an iteration up to the decision. -/
theorem reach_decision (hp : s.parties.loop.point = .getClk)
    (hne : s.parties.loop.clock ≠ s.parties.loop.scheduler.clockValue) :
    ∃ t, Reachable FreeStep s t ∧ t.parties.sender = s.parties.sender ∧
      t.parties.loop.clock = s.parties.loop.clock ∧ t.sent = s.sent ∧
      (s.parties.loop.clock, s.received) ∈ t.decisions := by
  obtain ⟨⟨⟨sch, point, currentTime, clock, begun, owed⟩, sender, msgq, permit, sigusr1, n⟩, sent,
    received, decisions⟩ := s
  dsimp only at hp hne
  subst hp
  have hadvance : ∀ {s : Handshake} {l : Loop}, s.parties.loop.advance {} = some l →
      ∀ {t}, Reachable FreeStep t s → Reachable FreeStep t
        { parties := { s.parties with loop := l }
          sent := s.sent
          received := s.received
          decisions := s.decisions ++ s.decides (.loop (.advance {})) } := by
    intro s l hl t ht
    refine ht.snoc (a := .loop (.advance {})) ⟨trivial, ?_⟩
    simp [Handshake.next, Parties.next, Parties.loopNext, Loop.next, Loop.attempt, hl, Handshake.sends,
      PartyAct.receives]
  have hread := hadvance rfl (.refl (s := ⟨⟨⟨sch, .getClk, currentTime, clock, begun, owed⟩, sender,
    msgq, permit, sigusr1, n⟩, sent, received, decisions⟩))
  have hcompare := hadvance rfl hread
  dsimp only at hcompare
  rw [if_pos hne] at hcompare
  have hdecide := hadvance rfl (hadvance rfl hcompare)
  refine ⟨_, hdecide, rfl, rfl, rfl, ?_⟩
  exact List.mem_append_right _ List.mem_cons_self

/-- Some run goes on to a decision without a message that it should have had. -/
def Handshake.Breaks (s : Handshake) : Prop :=
  ∃ t, Reachable FreeStep s t ∧ ¬ ReceivedFirst t

/-- A message that is sent at the time of a decision breaks it. -/
theorem breaks_of_canSend {g : Sender} {clk : ℤ} {got : List PCB} (h : g.CanSend clk)
    (hs : s.Faithful) (hg : s.parties.sender = g) (hclk : s.parties.loop.clock = clk)
    (hd : (clk, got) ∈ s.decisions) (hgot : got.length ≤ s.sent.length) : s.Breaks := by
  induction h generalizing s with
  | @send g g' a p h =>
    subst hg hclk
    obtain ⟨t, ht, -, -, hsent, hdecisions⟩ := reach_sender h
    refine ⟨t, ht, fun hfirst => ?_⟩
    have hmessage : t.sent[s.sent.length]? = some (s.parties.sender.lastTick, p) := by
      have hsends : s.sends (.sender a) = [(s.parties.sender.lastTick, p)] := by
        simp only [Handshake.sends, h]
      simp [hsent, hsends]
    have hreceived := hfirst _ (hdecisions ▸ hd) _ _ p hmessage hs.lastTick
    have hlt := (List.getElem?_eq_some_iff.mp hreceived).1
    dsimp only at hlt
    omega
  | @wait g g' a sent h hno _ ih =>
    subst hg hclk
    obtain ⟨t, ht, hsender, hloop, hsent, hdecisions⟩ := reach_sender h
    have hlen : s.sent.length ≤ t.sent.length := by
      rw [hsent, List.length_append]
      omega
    obtain ⟨u, hu, hbreaks⟩ := ih (faithful_reachable ht hs) hsender (congrArg Loop.clock hloop)
      (hdecisions ▸ hd) (hgot.trans hlen)
    exact ⟨u, ht.trans hu, hbreaks⟩

/-- A time read out of turn can be decided upon too early. -/
theorem breaks_of_unserved (hs : s.Faithful) (hp : s.parties.loop.point = .getClk)
    (hne : s.parties.loop.clock ≠ s.parties.loop.scheduler.clockValue)
    (hnot : ¬ s.parties.Served) : s.Breaks := by
  obtain ⟨t, ht, hsender, hclk, hsent, hd⟩ := reach_decision hp hne
  have hfaithful := faithful_reachable ht hs
  have hlen : s.received.length ≤ t.sent.length := by
    have hfifo := congrArg List.length hs.fifo
    rw [List.length_append, List.length_map] at hfifo
    rw [hsent]
    omega
  by_cases hq : s.parties.msgq = []
  · have hsend := Sender.canSend_of_not_through hs.valid.sender fun h => hnot ⟨hq, h⟩
    obtain ⟨u, hu, hbreaks⟩ := breaks_of_canSend hsend hfaithful hsender hclk hd hlen
    exact ⟨u, ht.trans hu, hbreaks⟩
  · obtain ⟨p, rest, hq⟩ := List.exists_cons_of_ne_nil hq
    refine ⟨t, ht, fun hfirst => ?_⟩
    have hnext : (s.sent.map Prod.snd)[s.received.length]? = some p := by
      rw [← hs.fifo, hq]
      simp
    rw [List.getElem?_map, Option.map_eq_some_iff] at hnext
    obtain ⟨⟨tick, p⟩, hmessage, rfl⟩ := hnext
    have hstamp : tick ≤ s.parties.loop.clock :=
      (hs.stamps _ (List.mem_of_getElem? hmessage)).trans hs.lastTick
    rw [← hsent] at hmessage
    have hlt := (List.getElem?_eq_some_iff.mp (hfirst _ hd _ _ p hmessage hstamp)).1
    exact lt_irrefl _ hlt

/-- So the loop must read every new time in turn: of a run in which it does not, some continuation
decides too early. -/
theorem readInTurn_of_receivedFirst (algorithm : SchedulingAlgorithm) (quantum : ℤ) (clk : ℕ)
    (pq : List Process) (hs : Reachable FreeStep (Handshake.initial algorithm quantum clk pq) s)
    (hall : ∀ t, Reachable FreeStep s t → ReceivedFirst t)
    (hp : s.parties.loop.point = .getClk) (i : Inputs) :
    ReadsInTurn s (.loop (.advance i)) := by
  rintro ⟨-, hne⟩
  by_contra hnot
  obtain ⟨t, ht, hbreaks⟩ := breaks_of_unserved
    (faithful_reachable hs (faithful_initial algorithm quantum clk pq)) hp hne hnot
  exact hbreaks (hall t ht)

end KernelSim
