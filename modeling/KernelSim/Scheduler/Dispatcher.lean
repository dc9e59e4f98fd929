import KernelSim.Scheduler.Conservation
import Mathlib.Algebra.Order.Group.Multiset
import Mathlib.Data.Multiset.Filter

/-! One CPU and the processes that wait for it: what the scheduler is, whatever its algorithm. -/
namespace KernelSim
open Runs Relation Scheduler

/-- The process on the CPU, those that wait for it, and what has been done to the world outside. -/
structure Dispatcher where
  running : Option PCB
  waiting : Multiset PCB
  done : List Effect

def Dispatcher.idle : Dispatcher := { running := none, waiting := 0, done := [] }

/-- The processes it has. -/
def Dispatcher.processes (d : Dispatcher) : Multiset PCB :=
  match d.running with
  | none => d.waiting
  | some p => p ::ₘ d.waiting

/-- What a dispatcher can do at any time, with any clock and any choice among those who wait. `ok`
are the processes that may arrive, and `answer` is what `kill` may return. -/
inductive Dispatches (ok : Dispatcher → PCB → Prop) (answer : Bool → Prop) (d : Dispatcher) :
    Dispatcher → Prop
  | arrive {p : PCB} (hok : ok d p) : Dispatches ok answer d
      { d with
        waiting := p.arrived ::ₘ d.waiting
        done := d.done ++ [.received { p with remainingTime := p.executionTime }] }
  | reread {p : PCB} (value : ℤ) (hp : d.running = some p) : Dispatches ok answer d
      { d with running := some { p with remainingTime := value } }
  | dispatch {q : PCB} {rest : Multiset PCB} {clk : ℤ} {sent : Bool} (hidle : d.running = none)
      (hq : d.waiting = q ::ₘ rest) (hsent : answer sent) : Dispatches ok answer d
      { running := some (q.dispatched clk)
        waiting := rest
        done := d.done ++ contEffects (dispatchEvent q) clk sent (q.dispatched clk) }
  | preempt {p : PCB} {clk value : ℤ} {sent : Bool} (hp : d.running = some p)
      (hsent : answer sent) : Dispatches ok answer d
      { running := none
        waiting := p.preempted clk value ::ₘ d.waiting
        done := d.done ++ stopEffects clk sent (p.preempted clk value) }
  | grant {p : PCB} (hp : d.running = some p) : Dispatches ok answer d
      { d with done := d.done ++ [.grant p] }
  | retire {p : PCB} {clk value : ℤ} {finished count : ℕ} (hp : d.running = some p) :
      Dispatches ok answer d
      { running := none
        waiting := d.waiting
        done := d.done ++ retireEffects clk finished count value p }

namespace Dispatcher

variable {d : Dispatcher} {p : PCB}

theorem processes_idle (h : d.running = none) : d.processes = d.waiting := by
  simp only [processes, h]

theorem processes_running (h : d.running = some p) : d.processes = p ::ₘ d.waiting := by
  simp only [processes, h]

theorem processes_arrive {waiting : Multiset PCB} {done : List Effect} :
    processes { d with waiting := p ::ₘ waiting, done } = p ::ₘ processes { d with waiting } := by
  cases d.running with
  | none => rfl
  | some r => exact Multiset.cons_swap r p waiting

end Dispatcher

/-- What the dispatcher does keeps `P`. -/
theorem dispatched_invariant {ok : Dispatcher → PCB → Prop} {answer : Bool → Prop}
    {P : Dispatcher → Prop} {d d' : Dispatcher} (h : ReflTransGen (Dispatches ok answer) d d')
    (hstep : ∀ d d', P d → Dispatches ok answer d d' → P d') (hd : P d) : P d' := by
  induction h with
  | refl => exact hd
  | tail _ hs ih => exact hstep _ _ ih hs

namespace Scheduler

/-- The scheduler as a dispatcher: the order of those who wait does not show. -/
def view (s : Scheduler) : Dispatcher :=
  { running := s.current, waiting := s.ready, done := s.trace }

/-- A scheduler whose heap has room for the process on the CPU. -/
structure Dispatching (answer : Bool → Prop) (s : Scheduler) : Prop extends Sound s where
  room : s.algorithm = .RR ∨ s.held.length ≤ 1024
  kills : ∀ b ∈ s.kills, answer b

end Scheduler

/-- Messages with a valid semaphore that `ok` admits, while the heap has room; `answer` is what
`kill` returns. -/
def Admits (ok : Dispatcher → PCB → Prop) (answer : Bool → Prop) (l : Loop) : LoopAct → Prop
  | .receive p i => 0 < p.syncSemid ∧ (l.scheduler.algorithm = .RR ∨ l.scheduler.held.length < 1024) ∧
      ok l.scheduler.view p ∧ ∀ b ∈ i.kills, answer b
  | .sigusr2 i => ∀ b ∈ i.kills, answer b
  | .advance i => ∀ b ∈ i.kills, answer b
  | _ => True

instance (ok : Dispatcher → PCB → Prop) [∀ d p, Decidable (ok d p)] (answer : Bool → Prop)
    [DecidablePred answer] : ∀ l a, Decidable (Admits ok answer l a)
  | l, .receive p i => inferInstanceAs (Decidable (0 < p.syncSemid ∧
      (l.scheduler.algorithm = .RR ∨ l.scheduler.held.length < 1024) ∧ ok l.scheduler.view p ∧
      ∀ b ∈ i.kills, answer b))
  | _, .sigusr2 i => inferInstanceAs (Decidable (∀ b ∈ i.kills, answer b))
  | _, .advance i => inferInstanceAs (Decidable (∀ b ∈ i.kills, answer b))
  | _, .tick => isTrue trivial
  | _, .sigusr1 => isTrue trivial
  | _, .downNb _ => isTrue trivial
  | _, .noMessage => isTrue trivial

variable {ok : Dispatcher → PCB → Prop} {answer : Bool → Prop} {s s' : Scheduler} {p : PCB}
  {process : ℕ} {l l' : Loop} {a : LoopAct}

namespace Scheduler

theorem view_eq {running : Option PCB} {waiting : Multiset PCB} {done : List Effect}
    (hc : s.current = running) (hr : (s.ready : Multiset PCB) = waiting) (ht : s.trace = done) :
    s.view = { running, waiting, done } := by
  rw [view, hc, hr, ht]

theorem view_processes (s : Scheduler) : s.view.processes = s.held := by
  cases hc : s.current with
  | none => simp [Dispatcher.processes, view, held, hc]
  | some p => simp [Dispatcher.processes, view, held, hc]

theorem answer_head {kills : List Bool} (htrue : answer true) (h : ∀ b ∈ kills, answer b) :
    answer (kills.headD true) := by
  cases kills with
  | nil => exact htrue
  | cons b rest => exact h b List.mem_cons_self

theorem Dispatching.feed (hs : Dispatching answer s) {i : Inputs} (hi : ∀ b ∈ i.kills, answer b) :
    Dispatching answer (s.feed i) :=
  ⟨hs.toSound.feed i, hs.room, hi⟩

theorem Dispatching.withClock (hs : Dispatching answer s) (clk : ℤ) :
    Dispatching answer { s with clockValue := clk } :=
  ⟨hs.toSound.withClock clk, hs.room, hs.kills⟩

/-- The heap has room for the process that is stopped. -/
theorem Dispatching.hasRoom (hs : Dispatching answer s) (hc : s.current = some p) : HasRoom s := by
  rcases hs.room with ha | hlen
  · exact Or.inl ha
  · rw [held_some hc, List.length_cons] at hlen
    exact Or.inr (by omega)

/-- One reading or one context switch. -/
theorem dispatches_moved (ok : Dispatcher → PCB → Prop) (hs : Dispatching answer s)
    (htrue : answer true) (h : Moved s s') :
    Dispatching answer s' ∧ ReflTransGen (Dispatches ok answer) s.view s'.view := by
  have hmove : Move s s' := ⟨h.sound, h.books, h.outcome.imp And.left Turn.switched⟩
  have hroom : s'.algorithm = .RR ∨ s'.held.length ≤ 1024 := by
    have hlen := (move_held hs.room hmove).length_eq
    simp only [heldIds, List.length_map] at hlen
    rw [h.books.algorithm, hlen]
    exact hs.room
  have hhead := answer_head htrue hs.kills
  have htail : ∀ b ∈ s.kills.tail, answer b := fun b hb => hs.kills b (List.mem_of_mem_tail hb)
  rcases h.outcome with ⟨hread, -, hk⟩ | hturn
  · refine ⟨⟨h.sound, hroom, hk ▸ hs.kills⟩, ?_⟩
    rcases hread.current with hc | ⟨p, value, hc, hc'⟩
    · rw [view_eq hc (congrArg _ hread.ready) hread.trace]
      exact .refl
    · rw [view_eq hc' (congrArg _ hread.ready) hread.trace]
      exact .single (.reread value hc)
  · cases hturn with
    | kept p hc hc' hr ht hk _ =>
      refine ⟨⟨h.sound, hroom, hk ▸ hs.kills⟩, ?_⟩
      rw [view_eq hc' (congrArg _ hr) ht]
      exact .single (.reread 0 hc)
    | idle hc hr hc' hr' ht hk _ =>
      refine ⟨⟨h.sound, hroom, hk ▸ hs.kills⟩, ?_⟩
      rw [view_eq (hc'.trans hc.symm) (congrArg _ (hr'.trans hr.symm)) ht]
      exact .refl
    | dispatched q hc hq hc' ht hk _ =>
      refine ⟨⟨h.sound, hroom, hk ▸ htail⟩, ?_⟩
      have hwait : s.view.waiting = q ::ₘ (s'.ready : Multiset PCB) :=
        Multiset.coe_eq_coe.mpr hq.perm
      rw [view_eq hc' rfl ht]
      exact .single (.dispatch hc hwait hhead)
    | replaced p q value queued hc hp hq hc' ht hk _ =>
      refine ⟨⟨h.sound, hroom, fun b hb => htail b (List.mem_of_mem_tail (hk ▸ hb))⟩, ?_⟩
      have hstop : Dispatches ok answer s.view
          { running := none
            waiting := p.preempted s.clockValue value ::ₘ s.view.waiting
            done := s.trace ++ stopEffects s.clockValue (s.kills.headD true)
              (p.preempted s.clockValue value) } := .preempt hc hhead
      have hwait : p.preempted s.clockValue value ::ₘ s.view.waiting =
          q ::ₘ (s'.ready : Multiset PCB) :=
        Multiset.coe_eq_coe.mpr ((hp.perm (hs.hasRoom hc)).symm.trans hq.perm)
      rw [view_eq hc' rfl ht]
      exact (ReflTransGen.single hstop).tail
        (.dispatch rfl hwait (answer_head htrue htail))

theorem dispatches_moveds (ok : Dispatcher → PCB → Prop) (hs : Dispatching answer s)
    (htrue : answer true) (h : ReflTransGen Moved s s') :
    Dispatching answer s' ∧ ReflTransGen (Dispatches ok answer) s.view s'.view := by
  induction h with
  | refl => exact ⟨hs, .refl⟩
  | tail _ hm ih =>
    obtain ⟨hs', hpath⟩ := dispatches_moved ok ih.1 htrue hm
    exact ⟨hs', ih.2.trans hpath⟩

theorem dispatches_arrival (hs : Dispatching answer s) (hsem : 0 < p.syncSemid)
    (hroom : s.algorithm = .RR ∨ s.held.length < 1024) (hok : ok s.view p) :
    Dispatching answer (s.handleProcessArrival p) ∧
      Dispatches ok answer s.view (s.handleProcessArrival p).view := by
  obtain ⟨hsound, hb, hc, -, hperm, ht⟩ := handleProcessArrival_spec hs.toSound hsem
  obtain ⟨-, hk⟩ := handleProcessArrival_times s p
  have hlen : s.ready.length ≤ s.held.length := by simp [held]
  have hready := hperm (hroom.imp_right fun hlt => by omega)
  constructor
  · refine ⟨hsound, ?_, hk ▸ hs.kills⟩
    rw [hb.algorithm]
    refine hroom.imp_right fun hlt => ?_
    have hlen' := hready.length_eq
    simp only [held, hc, List.length_append, List.length_cons] at hlt hlen' ⊢
    omega
  · have hwait : ((s.handleProcessArrival p).ready : Multiset PCB) = p.arrived ::ₘ s.ready :=
      Multiset.coe_eq_coe.mpr hready
    rw [view_eq hc hwait ht]
    exact .arrive hok

theorem dispatches_retire (ok : Dispatcher → PCB → Prop) (hs : Dispatching answer s)
    (hc : s.currentProcess = some process) :
    Dispatching answer (s.retire process) ∧
      Dispatches ok answer s.view (s.retire process).view := by
  obtain ⟨value, hsound, hb, hnone, hr, ht⟩ := retire_spec hs.toSound hc
  obtain ⟨-, hk⟩ := retire_times s process
  have hcur := current_some hc
  have hnone := current_eq_none.mpr hnone
  constructor
  · refine ⟨hsound, ?_, hk ▸ hs.kills⟩
    rw [hb.algorithm]
    refine hs.room.imp_right fun hlen => ?_
    rw [held_some hcur] at hlen
    rw [held_none hnone, hr]
    exact Nat.le_of_succ_le hlen
  · rw [view_eq hnone (congrArg _ hr) ht]
    exact .retire hcur

theorem dispatches_grant (hs : Dispatching answer s) :
    Dispatching answer s.grantTick ∧
      ReflTransGen (Dispatches ok answer) s.view s.grantTick.view := by
  cases hc : s.currentProcess with
  | none =>
    rw [grantTick_none hc]
    exact ⟨hs, .refl⟩
  | some process =>
    have hsound := hs.toSound.grantTick
    rw [grantTick_some hc] at hsound ⊢
    exact ⟨⟨hsound, hs.room, hs.kills⟩, .single (.grant (current_some hc))⟩

theorem dispatches_receive (hs : Dispatching answer s) (htrue : answer true)
    (hsem : 0 < p.syncSemid) (hroom : s.algorithm = .RR ∨ s.held.length < 1024)
    (hok : ok s.view p) :
    Dispatching answer (s.receiveMessage p) ∧
      ReflTransGen (Dispatches ok answer) s.view (s.receiveMessage p).view := by
  obtain ⟨harr, hstep⟩ := dispatches_arrival hs hsem hroom hok
  obtain ⟨hmoved, -⟩ := preemptOnArrival_moved harr.toSound
  obtain ⟨hnow, hpath⟩ := dispatches_moveds ok harr htrue hmoved
  obtain ⟨clk, heq⟩ := receiveMessage_eq s p
  rw [heq]
  exact ⟨hnow.withClock clk, hpath.head hstep⟩

theorem dispatches_complete (hs : Dispatching answer s) (htrue : answer true) :
    Dispatching answer s.completeCurrent ∧
      ReflTransGen (Dispatches ok answer) s.view s.completeCurrent.view := by
  rcases completeCurrent_moved hs.toSound with ⟨-, heq⟩ | ⟨process, hc, hor⟩
  · rw [heq]
    exact ⟨hs, .refl⟩
  · obtain ⟨hret, hstep⟩ := dispatches_retire ok hs hc
    rcases hor with heq | ⟨-, hmoved⟩
    · rw [heq]
      exact ⟨hret, .single hstep⟩
    · obtain ⟨hnow, hpath⟩ := dispatches_moved ok hret htrue hmoved
      exact ⟨hnow, hpath.head hstep⟩

theorem dispatching_initial (answer : Bool → Prop) (algorithm : SchedulingAlgorithm)
    (quantum clk : ℤ) : Dispatching answer (initial algorithm quantum clk) := by
  have hheld := initial_held algorithm quantum clk
  refine ⟨sound_initial algorithm quantum clk, Or.inr ?_, nofun⟩
  rw [hheld]
  exact Nat.zero_le _

theorem view_initial (algorithm : SchedulingAlgorithm) (quantum clk : ℤ) :
    (initial algorithm quantum clk).view = Dispatcher.idle := by
  cases algorithm <;> rfl

end Scheduler

/-- One step of the loop is some steps of the dispatcher. -/
theorem loopStep_dispatches (hs : Dispatching answer l.scheduler) (htrue : answer true)
    (hok : Admits ok answer l a) (h : LoopStep l a l') :
    Dispatching answer l'.scheduler ∧
      ReflTransGen (Dispatches ok answer) l.scheduler.view l'.scheduler.view := by
  cases h with
  | sigusr1 hp => exact ⟨⟨sound_preserved.generator _ hs.toSound, hs.room, hs.kills⟩, .refl⟩
  | @sigusr2 i hp => exact dispatches_complete ((hs.feed hok).withClock l.clock) htrue
  | @receive p i hp =>
    obtain ⟨hsem, hroom, harrives, hi⟩ := hok
    exact dispatches_receive (hs.feed hi) htrue hsem hroom harrives
  | assign hp => exact ⟨hs.withClock _, .refl⟩
  | @runAlgorithm i hp =>
    have hfeed := hs.feed (i := i) hok
    obtain ⟨hnow, hpath⟩ := dispatches_moveds ok hfeed htrue
      (runAlgorithm_moved hfeed.toSound)
    exact ⟨hnow, hpath⟩
  | grant hp => exact dispatches_grant hs
  | @refresh i hp =>
    have hfeed := hs.feed (i := i) hok
    obtain ⟨hnow, hpath⟩ := dispatches_moveds ok hfeed htrue
      (updateCurrent_moved hfeed.toSound)
    exact ⟨hnow, hpath⟩
  | _ => exact ⟨hs, .refl⟩

/-- The loop is left when nothing is left to do, and stays left. -/
theorem exited_done (h : LoopStep l a l')
    (hold : l.point = .exited → l.scheduler.isDone = true) (hp : l'.point = .exited) :
    l'.scheduler.isDone = true := by
  cases h with
  | tick => exact hold hp
  | sigusr1 hp' => exact absurd hp hp'
  | sigusr2 hp' => exact absurd hp hp'
  | exit _ hd => exact hd
  | receive hp' => simp [hp'] at hp
  | _ => cases hp

/-- So is a whole run. -/
theorem run_dispatches (algorithm : SchedulingAlgorithm) (quantum clk : ℤ) {as : List LoopAct}
    (htrue : answer true)
    (h : Trace (Restrict (Admits ok answer) LoopStep) (Loop.initial algorithm quantum clk) as l) :
    ReflTransGen (Dispatches ok answer) Dispatcher.idle l.scheduler.view := by
  have hinv := h.invariant (P := fun l => Dispatching answer l.scheduler ∧
    ReflTransGen (Dispatches ok answer) Dispatcher.idle l.scheduler.view) ?_ ?_
  · exact hinv.2
  · rintro l a l' ⟨hs, hpath⟩ ⟨hok, hstep⟩
    obtain ⟨hs', hmore⟩ := loopStep_dispatches hs htrue hok hstep
    exact ⟨hs', hpath.trans hmore⟩
  · exact ⟨dispatching_initial answer algorithm quantum clk,
      (view_initial algorithm quantum clk).symm ▸ .refl⟩

/-- What the dispatcher leaves of a PCB as it came. -/
def PCB.lasting (p : PCB) : PCB :=
  { p with
    startTime := 0
    remainingTime := 0
    waitingTime := 0
    lastPremptTime := 0
    state := .waiting }

/-- The message behind an effect. -/
def Effect.message : Effect → Option PCB
  | .received p => some p
  | _ => none

section Balance

variable {β : Type} {key : PCB → Option β} {out : Effect → Option β} {d d' : Dispatcher}
  {es : List Effect}

@[simp] theorem lasting_arrived (p : PCB) : p.arrived.lasting = p.lasting := rfl

@[simp] theorem lasting_dispatched (clk : ℤ) (p : PCB) : (p.dispatched clk).lasting = p.lasting := by
  unfold PCB.dispatched
  split <;> rfl

@[simp] theorem lasting_preempted (clk value : ℤ) (p : PCB) :
    (p.preempted clk value).lasting = p.lasting := rfl

/-- A key that a process keeps and `out` reports when the process is retired, and only then. -/
structure KeptUntilRetired (key : PCB → Option β) (out : Effect → Option β) : Prop where
  lasting : ∀ p q : PCB, p.lasting = q.lasting → key p = key q
  received : ∀ p, out (.received p) = none
  switch : ∀ e : Effect, e.OfSwitch → out e = none
  grant : ∀ p, out (.grant p) = none
  retired : ∀ clk finished count value p,
    (retireEffects clk finished count value p).filterMap out = (key p).toList

/-- The keys of the processes received are those of the processes there and those reported. -/
def Dispatcher.Balanced (key : PCB → Option β) (out : Effect → Option β) (d : Dispatcher) : Prop :=
  d.processes.filterMap key + (d.done.filterMap out : Multiset β) =
    ((d.done.filterMap Effect.message).filterMap key : Multiset β)

theorem filterMap_cons_toList (p : PCB) (m : Multiset PCB) :
    (p ::ₘ m).filterMap key = ((key p).toList : Multiset β) + m.filterMap key := by
  rw [Multiset.filterMap_cons]
  cases key p <;> rfl

theorem message_ofSwitch {e : Effect} (h : e.OfSwitch) : e.message = none := by
  cases e <;> first | rfl | cases h

theorem retireEffects_message (clk value : ℤ) (finished count : ℕ) (p : PCB) :
    (retireEffects clk finished count value p).filterMap Effect.message = [] := by
  unfold retireEffects
  split <;> rfl

/-- What the effects `es` report has come to be so. -/
theorem balanced_append (h : d.Balanced key out) (hd : d'.done = d.done ++ es)
    (hp : d'.processes.filterMap key + (es.filterMap out : Multiset β) =
      d.processes.filterMap key + ((es.filterMap Effect.message).filterMap key : Multiset β)) :
    d'.Balanced key out := by
  unfold Dispatcher.Balanced at h ⊢
  rw [hd, List.filterMap_append, List.filterMap_append, List.filterMap_append, ← Multiset.coe_add,
    ← Multiset.coe_add, ← h, add_left_comm, hp, add_left_comm, add_assoc]

/-- A switch among the processes it has. -/
theorem balanced_switch (hkey : KeptUntilRetired key out) (h : d.Balanced key out)
    (hes : ∀ e ∈ es, e.OfSwitch) (hd : d'.done = d.done ++ es)
    (hp : d'.processes.filterMap key = d.processes.filterMap key) : d'.Balanced key out := by
  apply balanced_append h hd
  rw [filterMap_ofSwitch hkey.switch hes, filterMap_ofSwitch (fun _ => message_ofSwitch) hes, hp]
  rfl

/-- One step of the dispatcher keeps the balance. -/
theorem balanced_step (hkey : KeptUntilRetired key out) (h : d.Balanced key out)
    (hstep : Dispatches ok answer d d') : d'.Balanced key out := by
  cases hstep with
  | @arrive p hok =>
    apply balanced_append h rfl
    rw [Dispatcher.processes_arrive, filterMap_cons_toList, hkey.lasting p.arrived p rfl,
      List.filterMap_cons_none (hkey.received _)]
    show ((key p).toList : Multiset β) + d.processes.filterMap key + 0 = d.processes.filterMap key +
      ((([{ p with remainingTime := p.executionTime }] : List PCB).filterMap key : List β))
    have hsame : key { p with remainingTime := p.executionTime } = key p := hkey.lasting _ _ rfl
    rw [add_zero, add_comm]
    congr 1
    cases hk : key p <;> simp [hsame, hk]
  | @reread p value hp =>
    have hnone : ∀ e ∈ ([] : List Effect), e.OfSwitch := by simp
    refine balanced_switch hkey h hnone (List.append_nil _).symm ?_
    rw [Dispatcher.processes_running hp, Dispatcher.processes_running rfl, filterMap_cons_toList,
      filterMap_cons_toList, hkey.lasting { p with remainingTime := value } p rfl]
  | @dispatch q rest clk sent hidle hq hsent =>
    refine balanced_switch hkey h (fun _ => ofSwitch_cont) rfl ?_
    rw [Dispatcher.processes_idle hidle, Dispatcher.processes_running rfl, hq, filterMap_cons_toList,
      filterMap_cons_toList, hkey.lasting (q.dispatched clk) q (by simp)]
  | @preempt p clk value sent hp hsent =>
    refine balanced_switch hkey h (fun _ => ofSwitch_stop) rfl ?_
    rw [Dispatcher.processes_running hp, Dispatcher.processes_idle rfl, filterMap_cons_toList,
      filterMap_cons_toList, hkey.lasting (p.preempted clk value) p (by simp)]
  | @grant p hp =>
    apply balanced_append h rfl
    rw [List.filterMap_cons_none (hkey.grant p)]
    rfl
  | @retire p clk value finished count hp =>
    apply balanced_append h rfl
    rw [hkey.retired, retireEffects_message, Dispatcher.processes_running hp,
      Dispatcher.processes_idle rfl, filterMap_cons_toList]
    show d.waiting.filterMap key + ((key p).toList : Multiset β) =
      ((key p).toList : Multiset β) + d.waiting.filterMap key + 0
    rw [add_zero, add_comm]

/-- What has come in and is no longer there has gone out. -/
theorem dispatched_balanced (hkey : KeptUntilRetired key out)
    (h : ReflTransGen (Dispatches ok answer) d d') (hd : d.Balanced key out) : d'.Balanced key out :=
  dispatched_invariant h (fun _ _ => balanced_step hkey) hd

end Balance

/-- Whatever the algorithm, the clock, the readings and the signals, a run of the scheduler is a run
of the dispatcher: it is on an idle CPU that a waiting process is dispatched, and it is the process
on the CPU that is granted ticks, stopped and retired. -/
theorem loop_refines_dispatcher (algorithm : SchedulingAlgorithm) (quantum clk : ℤ)
    (as : List LoopAct) :
    Always (Restrict (Admits (fun _ _ => True) fun _ => True) LoopStep)
      (Loop.initial algorithm quantum clk) as fun l =>
        ReflTransGen (Dispatches (fun _ _ => True) fun _ => True) Dispatcher.idle
          l.scheduler.view := by
  intro pre l _ ht
  exact run_dispatches algorithm quantum clk trivial ht

/-- The first of two processes is stopped for the second and ends after it, and the loop is left. -/
def drainedRun : List LoopAct :=
  [.advance {}, .downNb true,
    .receive { emptyFront with executionTime := 2, syncSemid := 5, shmId := 7 } {},
    .receive { emptyFront with executionTime := 1, syncSemid := 6, shmId := 8 } {}, .noMessage] ++
  List.replicate 6 (.advance {}) ++
  [.tick, .advance {}, .advance {}, .downNb true, .noMessage] ++ List.replicate 3 (.advance {}) ++
  [.advance ⟨[some 1], []⟩, .advance {}, .advance {}, .tick, .sigusr2 {}, .advance {},
    .advance {}, .downNb true, .noMessage, .tick] ++ List.replicate 6 (.advance {}) ++
  [.tick, .sigusr1, .sigusr2 {}, .advance {}, .advance {}]

theorem loop_refines_dispatcher_drained :
    ∃ l, (l.point = .exited ∧ l.scheduler.finishedProcesses = 2) ∧
      Trace (Restrict (Admits (fun _ _ => True) fun _ => True) LoopStep) (Loop.initial .RR 1 0)
        drainedRun l ∧
      ReflTransGen (Dispatches (fun _ _ => True) fun _ => True) Dispatcher.idle
        l.scheduler.view := by
  obtain ⟨l, hrun, htest⟩ := exists_trace_of_execute (fun _ _ _ => loopStep_of_next)
    (show (execute (Admits (fun _ _ => True) fun _ => True) Loop.next (Loop.initial .RR 1 0)
      drainedRun).any (fun l => l.point = .exited ∧ l.scheduler.finishedProcesses = 2) = true by
        decide +kernel)
  exact ⟨l, of_decide_eq_true htest, hrun,
    loop_refines_dispatcher .RR 1 0 _ _ l (List.prefix_refl _) hrun⟩

end KernelSim
