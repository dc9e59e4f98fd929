import KernelSim.Scheduler.MainLoop

/-! No process is lost and none is duplicated on its way through the scheduler. -/
namespace KernelSim
open Runs

/-- The id of the process an effect reports as received. -/
def Effect.receivedId : Effect → Option ℤ
  | .received p => some p.idFromFile
  | _ => none

/-- The id of the process an effect reports as finished. -/
def Effect.finishedId : Effect → Option ℤ
  | .logged event _ p _ => if event = .finished then some p.idFromFile else none
  | _ => none

namespace Scheduler

def receivedIds (s : Scheduler) : List ℤ := s.trace.filterMap Effect.receivedId

def finishedIds (s : Scheduler) : List ℤ := s.trace.filterMap Effect.finishedId

/-- The processes received and not finished. -/
def held (s : Scheduler) : List PCB := s.current.toList ++ s.ready

def heldIds (s : Scheduler) : List ℤ := s.held.map PCB.idFromFile

/-- Every process received is held or finished, and the counters agree. -/
structure Conserved (s : Scheduler) : Prop extends Sound s where
  all : (s.heldIds ++ s.finishedIds).Perm s.receivedIds
  room : s.algorithm = .RR ∨ s.held.length ≤ 1024
  received : s.processCount = s.receivedIds.length
  finished : s.finishedProcesses = s.finishedIds.length

variable {s s' : Scheduler} {p : PCB} {process : ℕ}

theorem receivedId_ofSwitch {e : Effect} (h : e.OfSwitch) : e.receivedId = none := by
  cases e <;> first | rfl | cases h

theorem finishedId_ofSwitch {e : Effect} (h : e.OfSwitch) : e.finishedId = none := by
  cases e with
  | logged event => exact if_neg h
  | _ => rfl

/-- Moves neither receive nor finish a process. -/
theorem move_ids (h : Move s s') :
    s'.receivedIds = s.receivedIds ∧ s'.finishedIds = s.finishedIds := by
  obtain ⟨es, ht, hes⟩ := h.trace
  have hrec := filterMap_ofSwitch (fun _ => receivedId_ofSwitch) hes
  have hfin := filterMap_ofSwitch (fun _ => finishedId_ofSwitch) hes
  simp [receivedIds, finishedIds, ht, hrec, hfin]

theorem held_none (h : s.current = none) : s.held = s.ready := by simp [held, h]

theorem held_some (h : s.current = some p) : s.held = p :: s.ready := by simp [held, h]

/-- Moves keep the processes held. -/
theorem move_held (hroom : s.algorithm = .RR ∨ s.held.length ≤ 1024) (h : Move s s') :
    s'.heldIds.Perm s.heldIds := by
  unfold heldIds
  rcases h.outcome with hr | hw
  · rcases hr.current with hc | ⟨p, v, hc, hc'⟩
    · rw [held, hc, hr.ready, held]
    · rw [held_some hc, held_some hc', hr.ready]
      exact .refl _
  · cases hw with
    | kept p hc hc' hr ht =>
      rw [held_some hc, held_some hc', hr]
      exact .refl _
    | idle hc hr hc' hr' ht => rw [held_none hc, held_none hc', hr, hr']
    | dispatched q sent hc hr hc' ht =>
      rw [held_none hc, held_some hc', List.map_cons, PCB.dispatched_idFromFile]
      exact (hr.symm.map PCB.idFromFile)
    | replaced p q value stopped sent hc hr hperm hc' ht =>
      rw [held_some hc] at hroom
      have hperm := hperm hroom
      rw [held_some hc, held_some hc', List.map_cons, PCB.dispatched_idFromFile]
      exact hperm.map PCB.idFromFile

theorem conserved_move (hs : Conserved s) (h : Move s s') : Conserved s' := by
  obtain ⟨hrec, hfin⟩ := move_ids h
  have hheld := move_held hs.room h
  refine ⟨h.sound, ?_, ?_, ?_, ?_⟩
  · rw [hrec, hfin]
    exact (hheld.append_right _).trans hs.all
  · have hlen := hheld.length_eq
    simp only [heldIds, List.length_map] at hlen
    rw [h.books.algorithm, hlen]
    exact hs.room
  · rw [hrec, h.books.processCount, hs.received]
  · rw [hfin, h.books.finishedProcesses, hs.finished]

theorem arrival_ids (hs : Sound s) (hsem : 0 < p.syncSemid) :
    (s.handleProcessArrival p).receivedIds = s.receivedIds ++ [p.idFromFile] ∧
      (s.handleProcessArrival p).finishedIds = s.finishedIds := by
  obtain ⟨-, -, -, -, -, ht⟩ := handleProcessArrival_spec hs hsem
  constructor
  · simp [receivedIds, ht, Effect.receivedId]
  · simp [finishedIds, ht, Effect.finishedId]

theorem retire_ids (hs : Sound s) (hcp : s.currentProcess = some process) :
    (s.retire process).receivedIds = s.receivedIds ∧
      (s.retire process).finishedIds = s.finishedIds ++ [(s.pcbs process).idFromFile] := by
  obtain ⟨value, -, -, -, -, ht⟩ := retire_spec hs hcp
  constructor
  · simp only [receivedIds, ht, retireEffects]
    split <;> simp [Effect.receivedId]
  · simp only [finishedIds, ht, retireEffects]
    split <;> simp [List.filterMap_cons, Effect.finishedId, PCB.retired]

theorem grant_ids (s : Scheduler) :
    s.grantTick.receivedIds = s.receivedIds ∧ s.grantTick.finishedIds = s.finishedIds := by
  unfold grantTick
  split
  · exact ⟨rfl, rfl⟩
  · simp [receivedIds, finishedIds, emit, Effect.receivedId, Effect.finishedId]

@[simp] theorem grant_held (s : Scheduler) : s.grantTick.held = s.held := by
  rw [held, grantTick_current, grantTick_ready, held]

theorem conserved_arrival (hs : Conserved s) (hsem : 0 < p.syncSemid)
    (hroom : s.algorithm = .RR ∨ s.held.length < 1024) : Conserved (s.handleProcessArrival p) := by
  obtain ⟨hsound, hb, hc, -, hperm, -⟩ := handleProcessArrival_spec hs.toSound hsem
  have hlen : s.ready.length ≤ s.held.length := by simp [held]
  have hperm := hperm (hroom.imp_right fun hlt => by omega)
  have hheld : (s.handleProcessArrival p).held.Perm (p.arrived :: s.held) := by
    rw [held, hc, held]
    exact (hperm.append_left _).trans List.perm_middle
  obtain ⟨hrec, hfin⟩ := arrival_ids hs.toSound hsem
  refine ⟨hsound, ?_, ?_, ?_, ?_⟩
  · rw [hrec, hfin]
    have hids : (s.handleProcessArrival p).heldIds.Perm (p.idFromFile :: s.heldIds) :=
      hheld.map PCB.idFromFile
    refine (hids.append_right _).trans ?_
    exact (hs.all.cons _).trans (List.perm_append_singleton _ _).symm
  · rw [hb.algorithm, hheld.length_eq, List.length_cons]
    exact hroom
  · rw [hrec, hb.processCount, List.length_append, ← hs.received]
    rfl
  · rw [hfin, hb.finishedProcesses]
    exact hs.finished

theorem conserved_retire (hs : Conserved s) (hcp : s.currentProcess = some process) :
    Conserved (s.retire process) := by
  obtain ⟨value, hsound, hb, hnone, hr, -⟩ := retire_spec hs.toSound hcp
  have hc := current_some hcp
  have hheld := held_some hc
  have hheld' : (s.retire process).held = s.ready := by
    rw [held_none (current_eq_none.mpr hnone), hr]
  obtain ⟨hrec, hfin⟩ := retire_ids hs.toSound hcp
  have hids : s.heldIds = (s.pcbs process).idFromFile :: (s.retire process).heldIds := by
    rw [heldIds, heldIds, hheld, hheld']
    rfl
  refine ⟨hsound, ?_, ?_, ?_, ?_⟩
  · rw [hrec, hfin]
    refine .trans ?_ hs.all
    rw [hids, ← List.append_assoc]
    exact List.perm_append_singleton _ _
  · have hroom := hs.room
    rw [hheld, List.length_cons] at hroom
    rw [hb.algorithm, hheld']
    exact hroom.imp_right fun hle => by omega
  · rw [hrec, hb.processCount]
    exact hs.received
  · rw [hfin, hb.finishedProcesses, List.length_append, ← hs.finished]
    rfl

/-- Conservation is an invariant while the heap has room for the arrivals. -/
theorem conserved_preserved :
    Preserved Conserved fun s p =>
      0 < p.syncSemid ∧ (s.algorithm = .RR ∨ s.held.length < 1024) where
  sound := fun _ hs => hs.toSound
  semid := fun _ _ hp => hp.1
  clock := fun _ clk hs => ⟨hs.toSound.withClock clk, hs.all, hs.room, hs.received, hs.finished⟩
  feed := fun _ i hs => ⟨hs.toSound.feed i, hs.all, hs.room, hs.received, hs.finished⟩
  generator := fun _ hs =>
    ⟨sound_preserved.generator _ hs.toSound, hs.all, hs.room, hs.received, hs.finished⟩
  grant := fun s hs => by
    obtain ⟨hrec, hfin⟩ := grant_ids s
    have hheld := grant_held s
    have hb := grantTick_books s
    refine ⟨hs.toSound.grantTick, ?_, ?_, ?_, ?_⟩
    · rw [hrec, hfin, heldIds, hheld]
      exact hs.all
    · rw [hheld, hb.algorithm]
      exact hs.room
    · rw [hrec, hb.processCount]
      exact hs.received
    · rw [hfin, hb.finishedProcesses]
      exact hs.finished
  move := fun _ _ hs hm => conserved_move hs hm
  arrival := fun _ _ hs hp => conserved_arrival hs hp.1 hp.2
  retire := fun _ _ hs hc => conserved_retire hs hc

/-- So is that no id is received twice, while the ids delivered are new. -/
theorem once_preserved : Preserved (fun s => Conserved s ∧ s.receivedIds.Nodup) fun s p =>
    (0 < p.syncSemid ∧ (s.algorithm = .RR ∨ s.held.length < 1024)) ∧
      p.idFromFile ∉ s.receivedIds where
  sound := fun _ hs => hs.1.toSound
  semid := fun _ _ hp => hp.1.1
  clock := fun _ clk hs => ⟨conserved_preserved.clock _ clk hs.1, hs.2⟩
  feed := fun _ i hs => ⟨conserved_preserved.feed _ i hs.1, hs.2⟩
  generator := fun _ hs => ⟨conserved_preserved.generator _ hs.1, hs.2⟩
  grant := fun s hs => ⟨conserved_preserved.grant _ hs.1, (grant_ids s).1 ▸ hs.2⟩
  move := fun _ _ hs hm => ⟨conserved_move hs.1 hm, (move_ids hm).1 ▸ hs.2⟩
  arrival := fun s p hs hp => by
    refine ⟨conserved_arrival hs.1 hp.1.1 hp.1.2, ?_⟩
    rw [(arrival_ids hs.1.toSound hp.1.1).1, List.nodup_append_comm]
    exact List.nodup_cons.mpr ⟨hp.2, hs.2⟩
  retire := fun _ _ hs hc =>
    ⟨conserved_retire hs.1 hc, (retire_ids hs.1.toSound hc).1 ▸ hs.2⟩

theorem initial_held (algorithm : SchedulingAlgorithm) (quantum clk : ℤ) :
    (initial algorithm quantum clk).held = [] := by
  have hready : (initial algorithm quantum clk).ready = [] := by
    cases algorithm <;> rfl
  rw [held_none (current_eq_none.mpr rfl), hready]

theorem conserved_initial (algorithm : SchedulingAlgorithm) (quantum clk : ℤ) :
    Conserved (initial algorithm quantum clk) := by
  have hheld := initial_held algorithm quantum clk
  refine ⟨sound_initial algorithm quantum clk, ?_, ?_, rfl, rfl⟩
  · rw [heldIds, hheld]
    exact .refl _
  · simp [hheld]

/-- Each process received is ready, current or finished: in one of these, and there once. -/
structure Conserves (s : Scheduler) : Prop where
  exactly_one : ∀ id ∈ s.receivedIds, (s.heldIds ++ s.finishedIds).count id = 1
  only_received : ∀ id ∈ s.heldIds ++ s.finishedIds, id ∈ s.receivedIds
  ready_state : ∀ p ∈ s.ready, p.state = .ready
  current_state : ∀ p, s.current = some p → p.state = .running
  processCount : s.processCount = s.receivedIds.length
  finishedProcesses : s.finishedProcesses = s.finishedIds.length

theorem conserves_of_conserved (hs : Conserved s) (hn : s.receivedIds.Nodup) : Conserves s where
  exactly_one := by
    intro id hid
    rw [hs.all.count_eq]
    exact List.count_eq_one_of_mem hn hid
  only_received := fun id hid => hs.all.subset hid
  ready_state := hs.ready_state
  current_state := hs.current_state
  processCount := hs.received
  finishedProcesses := hs.finished

end Scheduler

open Scheduler

/-- Messages with a valid semaphore and a new id, while fewer than 1024 processes are unfinished. -/
def Deliverable (l : Loop) : LoopAct → Prop
  | .receive p _ => 0 < p.syncSemid ∧ p.idFromFile ∉ l.scheduler.receivedIds ∧
      l.scheduler.held.length < 1024
  | _ => True

/-- Conservation, for every algorithm and every run. -/
theorem conserves_always (algorithm : SchedulingAlgorithm) (quantum clk : ℤ) (as : List LoopAct) :
    Always (Restrict Deliverable LoopStep) (Loop.initial algorithm quantum clk) as
      fun l => Conserves l.scheduler := by
  intro pre l _ ht
  have hinv := ht.invariant (P := fun l => Conserved l.scheduler ∧ l.scheduler.receivedIds.Nodup)
    ?_ ⟨conserved_initial algorithm quantum clk, List.nodup_nil⟩
  · exact conserves_of_conserved hinv.1 hinv.2
  · rintro l a l' hl ⟨hok, hstep⟩
    refine once_preserved.step hl ?_ hstep
    rintro p i rfl
    obtain ⟨hsem, hnew, hroom⟩ := hok
    exact ⟨⟨hsem, Or.inr hroom⟩, hnew⟩

end KernelSim
