import KernelSim.Scheduler.Conservation
import KernelSim.Scheduler.Preemption

/-! The times recorded for a process follow the order of events. -/
namespace KernelSim
open Runs Relation

/-- Dispatched no earlier than it arrived, and so far no more often resumed than stopped. -/
structure PCB.Punctual (p : PCB) : Prop where
  started : p.arrivalTime ≤ p.startTime
  waited : 0 ≤ p.waitingTime

/-- The times of an unfinished process, none of them later than `bound`. -/
structure PCB.Causal (bound : ℤ) (p : PCB) : Prop where
  arrived : p.arrivalTime ≤ bound
  stopped : p.lastPremptTime ≠ -1 → p.lastPremptTime ≤ bound
  punctual : p.startTime ≠ -1 → p.Punctual

variable {p q : PCB} {bound bound' clk value : ℤ}

theorem PCB.Causal.mono (h : p.Causal bound) (hb : bound ≤ bound') : p.Causal bound' :=
  ⟨h.arrived.trans hb, fun hp => (h.stopped hp).trans hb, h.punctual⟩

/-- A dispatch at or after the bound. -/
theorem PCB.Causal.dispatched (h : p.Causal bound) (hb : bound ≤ clk) :
    (p.dispatched clk).Causal bound ∧ (p.dispatched clk).Punctual := by
  have harr := h.arrived
  have hpunctual : (p.dispatched clk).Punctual := by
    unfold PCB.dispatched
    split
    · refine ⟨?_, ?_⟩
      · show p.arrivalTime ≤ clk
        omega
      · show 0 ≤ clk - p.arrivalTime
        omega
    · rename_i hstart
      obtain ⟨hstarted, hwaited⟩ := h.punctual hstart
      refine ⟨hstarted, ?_⟩
      unfold PCB.resume
      dsimp only
      split
      · rename_i hstop
        have := h.stopped hstop
        omega
      · exact hwaited
  have hlast : (p.dispatched clk).lastPremptTime = p.lastPremptTime := by
    unfold PCB.dispatched
    split <;> rfl
  refine ⟨⟨?_, ?_, fun _ => hpunctual⟩, hpunctual⟩
  · rw [PCB.dispatched_arrivalTime]
    exact harr
  · rw [hlast]
    exact h.stopped

/-- A preemption at or before the bound. -/
theorem PCB.Causal.preempted (h : p.Causal bound) (hp : p.Punctual) (hb : clk ≤ bound) :
    (p.preempted clk value).Causal bound :=
  ⟨h.arrived, fun _ => hb, fun _ => ⟨hp.started, hp.waited⟩⟩

theorem PCB.causal_arrived (h : p.arrivalTime ≤ bound) : p.arrived.Causal bound :=
  ⟨h, fun hp => absurd rfl hp, fun hp => absurd rfl hp⟩

namespace Scheduler

variable {s s' : Scheduler} {process : ℕ}

/-- The times of all processes, at a moment when none of them is later than `bound`. -/
structure Timed (bound : ℤ) (s : Scheduler) : Prop extends Sound s where
  causal : ∀ p ∈ s.held, p.Causal bound
  punctual : ∀ p, s.current = some p → p.Punctual
  logged : ∀ event t p f, .logged event t p f ∈ s.trace → p.Punctual

theorem Timed.mono (hs : Timed bound s) (hb : bound ≤ bound') : Timed bound' s :=
  ⟨hs.toSound, fun p hp => (hs.causal p hp).mono hb, hs.punctual, hs.logged⟩

theorem Timed.of_eq (hs : Timed bound s) (hsound : Sound s') (hc : s'.current = s.current)
    (hr : s'.ready = s.ready)
    (ht : ∀ event t p f, .logged event t p f ∈ s'.trace → .logged event t p f ∈ s.trace) :
    Timed bound s' := by
  refine ⟨hsound, ?_, hc ▸ hs.punctual, fun event t p f h => hs.logged event t p f (ht _ _ _ _ h)⟩
  unfold held
  rw [hc, hr]
  exact hs.causal

theorem Timed.ready (hs : Timed bound s) : ∀ p ∈ s.ready, p.Causal bound :=
  fun p hp => hs.causal p (List.mem_append_right _ hp)

theorem Timed.current (hs : Timed bound s) (hc : s.current = some p) : p.Causal bound :=
  hs.causal p (by simp [held, hc])

theorem timed_reread (hs : Timed bound s) (hsound : Sound s') (h : Reread s s') :
    Timed bound s' := by
  have hlog : ∀ event t p f, .logged event t p f ∈ s'.trace → .logged event t p f ∈ s.trace := by
    rw [h.trace]
    exact fun _ _ _ _ h => h
  rcases h.current with hc | ⟨p, v, hc, hc'⟩
  · exact hs.of_eq hsound hc h.ready hlog
  · have hcausal := hs.current hc
    obtain ⟨hstarted, hwaited⟩ := hs.punctual p hc
    refine ⟨hsound, ?_, ?_, fun event t p f h => hs.logged event t p f (hlog _ _ _ _ h)⟩
    · rw [held_some hc', h.ready]
      intro q hq
      rcases List.mem_cons.mp hq with rfl | hq
      · exact ⟨hcausal.arrived, hcausal.stopped, fun _ => ⟨hstarted, hwaited⟩⟩
      · exact hs.ready q hq
    · intro q hq
      obtain rfl : _ = q := Option.some.inj (hc'.symm.trans hq)
      exact ⟨hstarted, hwaited⟩

theorem logged_cont {event e : ProcessEvent} {sent : Bool} {t f : ℤ}
    (h : .logged e t q f ∈ contEffects event clk sent p) : q = p := by
  rcases mem_contEffects h with h | h <;> cases h
  rfl

theorem logged_stop {e : ProcessEvent} {sent : Bool} {t f : ℤ}
    (h : .logged e t q f ∈ stopEffects clk sent p) : q = p := by
  rcases mem_stopEffects h with h | h | h <;> cases h
  rfl

/-- The dispatch of a ready process at or after the bound. -/
theorem timed_dispatched (sent : Bool) (hs : Timed bound s) (hsound : Sound s')
    (hall : ∀ a ∈ q :: s'.ready, a.Causal bound) (hb : bound ≤ clk)
    (hc : s'.current = some (q.dispatched clk))
    (ht : ∀ event t a f, .logged event t a f ∈ s'.trace → .logged event t a f ∈ s.trace ∨
      a.Punctual ∨
        .logged event t a f ∈ contEffects (dispatchEvent q) clk sent (q.dispatched clk)) :
    Timed bound s' := by
  obtain ⟨hcausal, hpunctual⟩ := (hall q List.mem_cons_self).dispatched hb
  refine ⟨hsound, ?_, ?_, ?_⟩
  · rw [held_some hc]
    intro a ha
    rcases List.mem_cons.mp ha with rfl | ha
    · exact hcausal
    · exact hall a (List.mem_cons_of_mem _ ha)
  · intro a ha
    obtain rfl : _ = a := Option.some.inj (hc.symm.trans ha)
    exact hpunctual
  · intro event t a f hin
    rcases ht event t a f hin with h | h | h
    · exact hs.logged event t a f h
    · exact h
    · exact logged_cont h ▸ hpunctual

theorem timed_move (hs : Timed bound s) (hb : bound ≤ s.clockValue)
    (hc : s.current ≠ none → s.clockValue ≤ bound) (h : Move s s') : Timed bound s' := by
  rcases h.outcome with hr | hw
  · exact timed_reread hs h.sound hr
  · cases hw with
    | kept p hcur hc' hr ht => exact timed_reread hs h.sound ⟨Or.inr ⟨p, 0, hcur, hc'⟩, hr, ht⟩
    | idle hcur hr hc' hr' ht =>
      refine hs.of_eq h.sound (hc'.trans hcur.symm) (hr'.trans hr.symm) ?_
      rw [ht]
      exact fun _ _ _ _ h => h
    | dispatched q sent hcur hr hc' ht =>
      refine timed_dispatched sent hs h.sound ?_ hb hc' ?_
      · exact fun a ha => hs.ready a (hr.mem_iff.mpr ha)
      · intro event t a f hin
        rw [ht] at hin
        exact (List.mem_append.mp hin).imp_right Or.inr
    | replaced p q v stopped sent hcur hr hroom hc' ht =>
      have hpunctual := hs.punctual p hcur
      refine timed_dispatched sent hs h.sound ?_ hb hc' ?_
      · intro a ha
        rcases List.mem_cons.mp (hr.subset ha) with rfl | ha
        · exact (hs.current hcur).preempted hpunctual (hc (by simp [hcur]))
        · exact hs.ready a ha
      · intro event t a f hin
        rw [ht, List.append_assoc] at hin
        rcases List.mem_append.mp hin with hin | hin
        · exact Or.inl hin
        · rcases List.mem_append.mp hin with hin | hin
          · exact Or.inr (Or.inl (logged_stop hin ▸ ⟨hpunctual.started, hpunctual.waited⟩))
          · exact Or.inr (Or.inr hin)

/-- Switches made while `clockValue` is the bound. -/
theorem timed_moves (hs : Timed s.clockValue s) (h : ReflTransGen Move s s') :
    Timed s.clockValue s' := by
  induction h with
  | refl => exact hs
  | tail h hm ih =>
    have hclk := (moves_books h).clockValue
    exact timed_move ih hclk.ge (fun _ => hclk.le) hm

/-- Readings, at any time, and dispatches at or after the bound. -/
theorem timed_gentles (hs : Timed bound s) (hb : s.current = none → bound ≤ s.clockValue)
    (h : ReflTransGen GentleMove s s') : Timed bound s' := by
  induction h with
  | refl => exact hs
  | @tail t u h hm ih =>
    have hmoves := gentles_moves h
    by_cases hc : t.current = none
    · have hstart : s.current = none := by
        by_contra hne
        exact moves_current hmoves hne hc
      have hclk := hb hstart
      rw [← (moves_books hmoves).clockValue] at hclk
      exact timed_move ih hclk (fun hne => absurd hc hne) hm.toMove
    · exact timed_reread ih hm.sound (hm.gentle hc)

theorem timed_arrival (hs : Timed bound s) (hsem : 0 < p.syncSemid)
    (harr : p.arrivalTime ≤ bound) : Timed bound (s.handleProcessArrival p) := by
  obtain ⟨hsound, -, hc, hsub, -, ht⟩ := handleProcessArrival_spec hs.toSound hsem
  refine ⟨hsound, ?_, hc ▸ hs.punctual, ?_⟩
  · intro a ha
    rw [held, hc] at ha
    rcases List.mem_append.mp ha with ha | ha
    · exact hs.causal a (List.mem_append_left _ ha)
    · rcases List.mem_cons.mp (hsub.subset ha) with rfl | ha
      · exact PCB.causal_arrived harr
      · exact hs.ready a ha
  · intro event t a f hin
    rw [ht] at hin
    exact hs.logged event t a f (by simpa using hin)

theorem timed_retire (hs : Timed bound s) (hcp : s.currentProcess = some process) :
    Timed bound (s.retire process) := by
  obtain ⟨value, hsound, -, hnone, hr, ht⟩ := retire_spec hs.toSound hcp
  have hc := current_some hcp
  have hnone := current_eq_none.mpr hnone
  refine ⟨hsound, ?_, ?_, ?_⟩
  · rw [held_none hnone, hr]
    exact hs.ready
  · simp [hnone]
  · intro event t a f hin
    rw [ht, retireEffects] at hin
    rcases List.mem_append.mp hin with hin | hin
    · exact hs.logged event t a f hin
    · have ha : a = (s.pcbs process).retired value := by
        rcases List.mem_append.mp hin with hin | hin
        · split at hin <;> simp at hin
        · simp only [List.mem_cons, Effect.logged.injEq, List.not_mem_nil, or_false,
            reduceCtorEq] at hin
          exact hin.2.2.1
      obtain ⟨hstarted, hwaited⟩ := hs.punctual _ hc
      exact ha ▸ ⟨hstarted, hwaited⟩

theorem Timed.withClock (hs : Timed bound s) (clk : ℤ) : Timed bound { s with clockValue := clk } :=
  hs.of_eq (hs.toSound.withClock clk) rfl rfl fun _ _ _ _ h => h

theorem Timed.feed (hs : Timed bound s) (i : Inputs) : Timed bound (s.feed i) :=
  hs.of_eq (hs.toSound.feed i) rfl rfl fun _ _ _ _ h => h

theorem timed_grantTick (hs : Timed bound s) :
    Timed bound s.grantTick ∧ ∀ clk, StopsAt clk s s.grantTick := by
  have hsound := hs.toSound.grantTick
  unfold grantTick at *
  split
  · exact ⟨hs, fun _ => .of_eq rfl⟩
  · rename_i process hc
    simp only [hc] at hsound
    refine ⟨hs.of_eq hsound rfl rfl fun event t p f h => ?_, fun _ => ⟨_, rfl, fun p hp => ?_⟩⟩
    · simpa [emit] using h
    · simp at hp

/-- The handler switches only from no process, at the time on the clock. -/
theorem timed_completion (hs : Timed bound s) (hb : bound ≤ clk) :
    Timed bound (s.handleProcessCompletion clk) ∧
      ∀ clk', StopsAt clk' s (s.handleProcessCompletion clk) := by
  have hclk := hs.withClock clk
  obtain ⟨-, heq⟩ | ⟨process, hc, heq⟩ := completion_cases s clk
  · rw [heq]
    exact ⟨hclk, fun _ => .of_eq rfl⟩
  · have hret := timed_retire hclk hc
    obtain ⟨value, hsound, hbooks, hnone, -, ht⟩ := retire_spec hclk.toSound hc
    have hgentle := contextSwitching_gentle hsound fun h => stopsCurrent_some h hnone
    have hstops : ∀ clk', StopsAt clk' s (retire { s with clockValue := clk } process) := by
      refine fun clk' => ⟨_, ht, fun p hp => ?_⟩
      unfold retireEffects at hp
      split at hp <;> simp at hp
    rcases heq with heq | heq
    · rw [heq]
      exact ⟨hret, hstops⟩
    · rw [heq]
      refine ⟨timed_move hret ?_ ?_ hgentle.toMove,
        fun clk' => (hstops clk').trans (gentle_stopsAt hgentle)⟩
      · rw [hbooks.clockValue]
        exact hb
      · exact fun hne => absurd (current_eq_none.mpr hnone) hne

/-- `receive_new_process` compares the new process with the current one. -/
theorem preemptOnArrival_eq (ha : s.algorithm = .SRTN) (hc : s.current ≠ none) :
    s.preemptOnArrival = s.runSRTNAlgorithm := if_pos ⟨ha, current_eq_none.not.mp hc⟩

theorem timed_preemptOnArrival (hs : Timed bound s)
    (hclk : s.algorithm = .SRTN → s.Overtaken → s.clockValue = bound) :
    Timed bound s.preemptOnArrival ∧ StopsAt bound s s.preemptOnArrival := by
  unfold preemptOnArrival
  split
  · rename_i hcond
    by_cases hover : s.Overtaken
    · have hclk := hclk hcond.1 hover
      have hmoves := runSRTN_moves hs.toSound
      subst hclk
      exact ⟨timed_moves hs hmoves, moves_stopsAt hmoves⟩
    · have hgentle := runSRTN_gentle hs.toSound hover
      exact ⟨timed_gentles hs (fun hnone => absurd (current_eq_none.mp hnone) hcond.2) hgentle,
        gentles_stopsAt hgentle⟩
  · exact ⟨hs, .of_eq rfl⟩

theorem timed_receiveMessage (hs : Timed bound s) (hsem : 0 < p.syncSemid)
    (harr : p.arrivalTime ≤ bound)
    (hclk : s.algorithm = .SRTN → (s.handleProcessArrival p).Overtaken → s.clockValue = bound) :
    Timed bound (s.receiveMessage p) ∧ StopsAt bound s (s.receiveMessage p) := by
  obtain ⟨-, hb, -, -, -, ht⟩ := handleProcessArrival_spec hs.toSound hsem
  have hstored : StopsAt bound s (s.handleProcessArrival p) :=
    ⟨_, ht, fun q hq => by simp at hq⟩
  obtain ⟨htimed, hstops⟩ := timed_preemptOnArrival (timed_arrival hs hsem harr)
    (by rw [hb.algorithm, hb.clockValue]; exact hclk)
  obtain ⟨_, heq⟩ := receiveMessage_eq s p
  rw [heq]
  exact ⟨htimed.withClock _, hstored.trans hstops⟩

theorem receiveMessage_stopped (hs : Sound s) (hsem : 0 < p.syncSemid) (ha : s.algorithm = .SRTN)
    (hover : (s.handleProcessArrival p).Overtaken) :
    Stopped s.clockValue s (s.receiveMessage p) := by
  obtain ⟨hsound, hb, -, -, -, ht⟩ := handleProcessArrival_spec hs hsem
  have hc : (s.handleProcessArrival p).current ≠ none := by
    intro hnone
    have hcp := current_eq_none.mp hnone
    have hstop := hover.2.2
    rw [updateCurrent_none hcp] at hstop
    exact stopsCurrent_some hstop hcp
  have hpre := runSRTN_stopped hsound hover
  rw [← preemptOnArrival_eq (hb.algorithm.trans ha) hc, hb.clockValue] at hpre
  have hpre := hpre.of_trace ⟨_, ht⟩
  obtain ⟨_, heq⟩ := receiveMessage_eq s p
  rw [heq]
  exact hpre

end Scheduler

open Scheduler

variable {l l' : Loop} {a : LoopAct}

/-- Messages of processes that have arrived, each with a valid semaphore id. -/
def MessagesArrived (l : Loop) : LoopAct → Prop
  | .receive p _ => 0 < p.syncSemid ∧ p.arrivalTime ≤ l.clock
  | _ => True

instance : ∀ l a, Decidable (MessagesArrived l a)
  | l, .receive p _ => inferInstanceAs (Decidable (0 < p.syncSemid ∧ p.arrivalTime ≤ l.clock))
  | _, .tick => isTrue trivial
  | _, .sigusr1 => isTrue trivial
  | _, .sigusr2 _ => isTrue trivial
  | _, .downNb _ => isTrue trivial
  | _, .noMessage => isTrue trivial
  | _, .advance _ => isTrue trivial

namespace Loop

/-- The clock value of the iteration, which `get_clk` has still to read while messages come in. -/
def iterationTime (l : Loop) : ℤ :=
  match l.point with
  | .receive | .getClk => l.clock
  | _ => l.currentTime

/-- The latest time that can be recorded for a process at this point. -/
def latest (l : Loop) : ℤ :=
  match l.point with
  | .compare | .assign | .runAlgorithm => l.currentTime
  | _ => l.clock

/-- Every process that was dispatched started after its arrival and has waited no negative time,
and every process stopped in this iteration was stopped at the time of the iteration. -/
structure Causality (l : Loop) : Prop where
  held : ∀ p ∈ l.scheduler.held, p.startTime ≠ -1 → p.Punctual
  current : ∀ p, l.scheduler.current = some p → p.Punctual
  logged : ∀ event t p f, .logged event t p f ∈ l.scheduler.trace → p.Punctual
  stopped : ∀ p, .signal .stop p ∈ l.recent → p.lastPremptTime = l.iterationTime

/-- When a process is stopped, `clockValue` is the clock value of the iteration, and `get_clk` reads
it before the next tick. -/
def StopsOnTime (l : Loop) : LoopAct → Prop
  | .tick => l.point = .receive ∨ l.point = .getClk → ∀ p, .signal .stop p ∉ l.recent
  | .receive p i => l.scheduler.algorithm = .SRTN →
      ((l.scheduler.feed i).handleProcessArrival p).Overtaken → l.scheduler.clockValue = l.clock
  | .advance i => l.point = .runAlgorithm → (l.scheduler.feed i).Preempts →
      l.scheduler.clockValue = l.currentTime
  | _ => True

/-- The invariant of runs in which every process is stopped on time. -/
structure OnTime (l : Loop) : Prop where
  timed : Timed l.latest l.scheduler
  begun : l.begun ≤ l.scheduler.trace.length
  latest_le : l.latest ≤ l.clock
  assigned : l.point = .runAlgorithm → l.currentTime ≤ l.scheduler.clockValue
  stopped : ∀ p, .signal .stop p ∈ l.recent → p.lastPremptTime = l.iterationTime

theorem OnTime.causality (hl : OnTime l) : Causality l :=
  ⟨fun p hp => (hl.timed.causal p hp).punctual, hl.timed.punctual, hl.timed.logged, hl.stopped⟩

/-- A step that adds to the trace and stays in the iteration. -/
theorem recent_stopsAt (l' : Loop) (hl : OnTime l) (hb : l'.begun = l.begun)
    (ht : l'.iterationTime = l.iterationTime)
    (h : StopsAt l'.iterationTime l.scheduler l'.scheduler) :
    l'.begun ≤ l'.scheduler.trace.length ∧
      ∀ p, .signal .stop p ∈ l'.recent → p.lastPremptTime = l'.iterationTime := by
  obtain ⟨es, htrace, hes⟩ := h
  obtain ⟨hrecent, hlen⟩ := recent_append hl.begun hb htrace
  refine ⟨hlen, fun p hp => ?_⟩
  rw [hrecent] at hp
  rcases List.mem_append.mp hp with hp | hp
  · exact ht ▸ hl.stopped p hp
  · exact hes p hp

end Loop

open Loop

theorem onTime_tick (hl : OnTime l) (hok : StopsOnTime l .tick) :
    OnTime { l with clock := l.clock + 1 } := by
  have hle := hl.latest_le
  have hb : l.latest ≤ ({ l with clock := l.clock + 1 } : Loop).latest ∧
      ({ l with clock := l.clock + 1 } : Loop).latest ≤ l.clock + 1 := by
    unfold latest at *
    split <;> simp_all <;> omega
  refine ⟨hl.timed.mono hb.1, hl.begun, hb.2, hl.assigned, fun p hp => ?_⟩
  have hold := hl.stopped p hp
  have hmoved : l.point ≠ .receive ∧ l.point ≠ .getClk := by
    refine ⟨fun hpoint => ?_, fun hpoint => ?_⟩
    · exact hok (Or.inl hpoint) p hp
    · exact hok (Or.inr hpoint) p hp
  rw [hold]
  unfold iterationTime
  split <;> simp_all

theorem onTime_completion (hl : OnTime l) (i : Inputs) : OnTime (l.complete i) := by
  have hle := hl.latest_le
  obtain ⟨htimed, hstops⟩ := timed_completion (hl.timed.feed i) hle
  obtain ⟨hb, hs⟩ := recent_stopsAt (l.complete i) hl rfl rfl (hstops _)
  refine ⟨htimed, hb, hle, fun hp => ?_, hs⟩
  have hclk := l.complete_clockValue i
  have hp : l.point = .runAlgorithm := hp
  have hlatest : l.latest = l.currentTime := by
    unfold latest
    rw [hp]
  rw [hclk]
  exact hlatest ▸ hle

/-- The algorithm runs with `clockValue` at the time of the iteration, or later without stopping. -/
theorem onTime_runAlgorithm (hl : OnTime l) {i : Inputs} (hp : l.point = .runAlgorithm)
    (hok : StopsOnTime l (.advance i)) :
    OnTime { l with scheduler := (l.scheduler.feed i).runAlgorithm, point := .grant } := by
  have hlatest : l.latest = l.currentTime := by
    unfold latest
    rw [hp]
  have hfeed := hlatest ▸ hl.timed.feed i
  have hle := hlatest ▸ hl.latest_le
  have hrun : Timed l.currentTime (l.scheduler.feed i).runAlgorithm ∧
      StopsAt l.currentTime (l.scheduler.feed i) (l.scheduler.feed i).runAlgorithm := by
    by_cases hpre : (l.scheduler.feed i).Preempts
    · have hclk : (l.scheduler.feed i).clockValue = l.currentTime := hok hp hpre
      have hmoves := runAlgorithm_moves hfeed.toSound
      rw [← hclk] at hfeed ⊢
      exact ⟨timed_moves hfeed hmoves, moves_stopsAt hmoves⟩
    · have hgentle := runAlgorithm_gentle hfeed.toSound hpre
      exact ⟨timed_gentles hfeed (fun _ => hl.assigned hp) hgentle, gentles_stopsAt hgentle⟩
  have htime : l.iterationTime = l.currentTime := by
    unfold iterationTime
    rw [hp]
  obtain ⟨hb, hs⟩ := recent_stopsAt { l with
    scheduler := (l.scheduler.feed i).runAlgorithm, point := .grant } hl rfl htime.symm hrun.2
  exact ⟨hrun.1.mono hle, hb, le_refl _, nofun, hs⟩

/-- A statement that only moves on. -/
theorem onTime_goto (hl : OnTime l) (hs : l'.scheduler = l.scheduler) (hb : l'.begun = l.begun)
    (hlatest : l.latest ≤ l'.latest) (hle : l'.latest ≤ l'.clock)
    (ha : l'.point ≠ .runAlgorithm) (ht : l'.iterationTime = l.iterationTime) : OnTime l' := by
  have hrecent : l'.recent = l.recent := by rw [recent, hs, hb, recent]
  refine ⟨hs ▸ hl.timed.mono hlatest, ?_, hle, fun hp => absurd hp ha, ?_⟩
  · rw [hs, hb]
    exact hl.begun
  · rw [hrecent, ht]
    exact hl.stopped

theorem onTime_step (hl : OnTime l) (hok : StopsOnTime l a) (harr : MessagesArrived l a)
    (h : LoopStep l a l') : OnTime l' := by
  have hle := hl.latest_le
  have htimed := hl.timed
  cases h with
  | tick => exact onTime_tick hl hok
  | sigusr1 hp =>
    refine ⟨?_, hl.begun, hl.latest_le, hl.assigned, hl.stopped⟩
    exact hl.timed.of_eq (sound_preserved.generator _ hl.timed.toSound) rfl rfl fun _ _ _ _ h => h
  | sigusr2 hp => exact onTime_completion hl _
  | exit hp hd | test hp hd | refused hp | again hp hne =>
    refine onTime_goto hl rfl rfl ?_ (le_refl _) (by simp) ?_
    · simp [latest, hp]
    · simp [iterationTime, hp]
  | taken hp =>
    refine ⟨htimed.mono ?_, le_refl _, le_refl _, by simp, ?_⟩
    · simp [latest, hp]
    · simp [recent]
  | @receive p i hp =>
    obtain ⟨hsem, harr⟩ := harr
    have hlatest : l.latest = l.clock := by simp [latest, hp]
    have htime : l.iterationTime = l.clock := by simp [iterationTime, hp]
    rw [hlatest] at htimed
    obtain ⟨htimed, hstops⟩ := timed_receiveMessage (htimed.feed i) hsem harr hok
    have hnew : ({ l with scheduler := (l.scheduler.feed i).receiveMessage p } : Loop).iterationTime
        = l.clock := by simp [iterationTime, hp]
    obtain ⟨hb, hs⟩ := recent_stopsAt
      { l with scheduler := (l.scheduler.feed i).receiveMessage p } hl rfl
      (hnew.trans htime.symm) (by rw [hnew]; exact hstops)
    refine ⟨?_, hb, hle, ?_, hs⟩
    · show Timed l.latest _
      rw [hlatest]
      exact htimed
    · simp [hp]
  | noMessage hp =>
    refine onTime_goto hl rfl rfl ?_ (le_refl _) (by simp) ?_
    · simp [latest, hp]
    · simp [iterationTime, hp]
  | getClk hp =>
    refine onTime_goto hl rfl rfl ?_ (le_refl _) (by simp) ?_
    · simp [latest, hp]
    · simp [iterationTime, hp]
  | differs hp hne =>
    refine onTime_goto hl rfl rfl ?_ ?_ (by simp) ?_
    · simp [latest, hp]
    · simpa [latest, hp] using hle
    · simp [iterationTime, hp]
  | equals hp heq =>
    refine onTime_goto hl rfl rfl ?_ (le_refl _) (by simp) ?_
    · simpa [latest, hp] using hle
    · simp [iterationTime, hp]
  | assign hp =>
    have hlatest : l.latest = l.currentTime := by simp [latest, hp]
    have htime : l.iterationTime = l.currentTime := by simp [iterationTime, hp]
    rw [hlatest] at htimed hle
    exact ⟨htimed.withClock _, hl.begun, hle, fun _ => le_refl _, htime ▸ hl.stopped⟩
  | @runAlgorithm i hp => exact onTime_runAlgorithm hl hp hok
  | grant hp =>
    have htime : l.iterationTime = l.currentTime := by simp [iterationTime, hp]
    have hlatest : l.latest = l.clock := by simp [latest, hp]
    obtain ⟨hgrant, hstops⟩ := timed_grantTick htimed
    obtain ⟨hb, hs⟩ := recent_stopsAt
      { l with scheduler := l.scheduler.grantTick, point := .refresh } hl rfl htime.symm
      (hstops _)
    exact ⟨hlatest ▸ hgrant, hb, le_refl _, by simp, hs⟩
  | @refresh i hp =>
    have htime : l.iterationTime = l.currentTime := by simp [iterationTime, hp]
    have hlatest : l.latest = l.clock := by simp [latest, hp]
    have hfeed := hlatest ▸ htimed.feed i
    have hread := updateCurrent_reread hfeed.toSound
    have hmoves := updateCurrent_moves hfeed.toSound
    obtain ⟨hb, hs⟩ := recent_stopsAt { l with
      scheduler := (l.scheduler.feed i).updateCurrent, point := .wait } hl rfl htime.symm
      (StopsAt.of_eq hread.trace)
    exact ⟨timed_reread hfeed (moves_sound hfeed.toSound hmoves) hread, hb, le_refl _, by simp, hs⟩

/-- A process stopped while `clockValue` is not the iteration's time is stopped at the wrong time. -/
theorem not_causality_of_stopped (hb : l.begun ≤ l.scheduler.trace.length)
    (hb' : l'.begun = l.begun) {clk : ℤ} (h : Stopped clk l.scheduler l'.scheduler)
    (hne : clk ≠ l'.iterationTime) : ¬ Causality l' := by
  obtain ⟨es, p, ht, hp, hclk⟩ := h
  obtain ⟨hrecent, -⟩ := recent_append hb hb' ht
  intro hcausal
  refine hne (hclk.symm.trans (hcausal.stopped p ?_))
  rw [hrecent]
  exact List.mem_append_right _ hp

theorem not_causality_of_late (hl : OnTime l) (hlate : ¬ StopsOnTime l a)
    (harr : MessagesArrived l a) (h : LoopStep l a l') : ¬ Causality l' := by
  have hsound := hl.timed.toSound
  cases h with
  | tick =>
    simp only [StopsOnTime, not_forall, not_not] at hlate
    obtain ⟨hpoint, p, hp⟩ := hlate
    intro hcausal
    have hold := hl.stopped p hp
    have hnew := hcausal.stopped p hp
    rw [hold] at hnew
    rcases hpoint with hpoint | hpoint <;> simp [iterationTime, hpoint] at hnew
  | @receive p i hp =>
    simp only [StopsOnTime, Classical.not_imp] at hlate
    obtain ⟨halg, hover, hne⟩ := hlate
    have hstopped := receiveMessage_stopped (hsound.feed i) harr.1 halg hover
    refine not_causality_of_stopped hl.begun rfl hstopped ?_
    simp only [iterationTime, hp]
    exact hne
  | @runAlgorithm i hp =>
    simp only [StopsOnTime, Classical.not_imp] at hlate
    obtain ⟨-, hpre, hne⟩ := hlate
    exact not_causality_of_stopped hl.begun rfl
      (runAlgorithm_stopped (hsound.feed i) hpre) hne
  | sigusr1 | sigusr2 | refused | taken | noMessage => exact absurd trivial hlate
  | exit hp | test hp | getClk hp | differs hp | equals hp | assign hp | grant hp | refresh hp
  | again hp => exact absurd (fun hrun => absurd (hp.symm.trans hrun) (by simp)) hlate

/-- The times are causal in exactly the runs in which every process is stopped on time. -/
theorem causality_iff_stopsOnTime (algorithm : SchedulingAlgorithm) (quantum clk : ℤ)
    (as : List LoopAct) :
    Always (Restrict MessagesArrived LoopStep) (Loop.initial algorithm quantum clk) as Causality ↔
      Throughout (Restrict MessagesArrived LoopStep) (Loop.initial algorithm quantum clk) as
        StopsOnTime := by
  refine always_iff_throughout (I := OnTime) ?_ (fun _ hl => hl.causality) ?_ ?_
  · have hheld := initial_held algorithm quantum clk
    have hcur : (Scheduler.initial algorithm quantum clk).current = none := current_eq_none.mpr rfl
    have htrace : (Scheduler.initial algorithm quantum clk).trace = [] := rfl
    have htimed : Timed clk (Scheduler.initial algorithm quantum clk) := by
      refine ⟨sound_initial algorithm quantum clk, ?_, ?_, ?_⟩
      · simp [hheld]
      · simp [hcur]
      · simp [htrace]
    refine ⟨htimed, le_refl _, le_refl _, nofun, ?_⟩
    simp [recent, Loop.initial, htrace]
  · rintro l a l' hl hok ⟨harr, hstep⟩
    exact onTime_step hl hok harr hstep
  · rintro l a l' hl hlate ⟨harr, hstep⟩
    exact not_causality_of_late hl hlate harr hstep

/-- A process of run time 1 arrives at time 1, while one with more time left is current. -/
def earlyStartRun : List LoopAct :=
  [.advance {}, .downNb true, .receive (Process.newPcb ⟨1, 0, 5, 0, 64⟩ 101 11 21) {}, .noMessage,
    .advance {}, .advance {}, .advance {}, .advance {}, .advance {}, .advance ⟨[some 5], []⟩,
    .tick, .advance {}, .advance {}, .downNb true,
    .receive (Process.newPcb ⟨2, 1, 1, 0, 64⟩ 102 12 22) ⟨[some 4, some 4, some 4], []⟩]

/-- It starts at time 0, before its arrival. -/
theorem earlyStart_not_causal :
    ¬ Always (Restrict MessagesArrived LoopStep) (Loop.initial .SRTN 0 0) earlyStartRun
      Causality := by
  intro h
  obtain ⟨l, hrun, htest⟩ := exists_trace_of_execute (fun _ _ _ => loopStep_of_next)
    (show (execute MessagesArrived Loop.next (Loop.initial .SRTN 0 0) earlyStartRun).any
      (fun l => l.scheduler.current.any fun p => p.startTime < p.arrivalTime) = true by
        decide +kernel)
  obtain ⟨p, hp, hlt⟩ := (Option.any_eq_true _ _).mp htest
  exact absurd ((h _ l (List.prefix_refl _) hrun).current p hp).started
    (not_le.mpr (of_decide_eq_true hlt))

end KernelSim
