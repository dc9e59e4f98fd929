import KernelSim.Library.Formats
import KernelSim.Scheduler.Dispatcher
import KernelSim.Scheduler.LogGrammar
import Mathlib.Data.Multiset.Filter

/-! What can be read back from the text of `scheduler.log`: where every process stands. -/
namespace KernelSim
open Decimal Formats Runs Relation Scheduler Dispatcher

/-- The string that `log_process_event` is given. -/
def ProcessEvent.name : ProcessEvent → List Char
  | .started => "started".toList
  | .resumed => "resumed".toList
  | .stopped => "stopped".toList
  | .finished => "finished".toList

/-- The line that `log_process_event` appends at time `clk`. `wta ta total` is what `%.2f` makes of
the weighted turnaround time. -/
def logProcessEventText (wta : ℤ → ℤ → List Char) (state : ProcessEvent) (clk : ℤ) (process : PCB)
    (finishTime : ℤ) : List Char :=
  "At time ".toList ++ decimal clk ++ " process ".toList ++ decimal process.idFromFile ++
    " ".toList ++ state.name ++ " arr ".toList ++ decimal process.arrivalTime ++
    " total ".toList ++ decimal process.executionTime ++ " remain ".toList ++
    decimal process.remainingTime ++ " wait ".toList ++ decimal process.waitingTime ++
    (if state = .finished then
      let ta := finishTime - process.arrivalTime
      " TA ".toList ++ decimal ta ++ " WTA ".toList ++ wta ta process.executionTime
    else []) ++ "\n".toList

/-- The text of `scheduler.log`. -/
def schedulerText (wta : ℤ → ℤ → List Char) (trace : List Effect) : List Char :=
  trace.flatMap fun
    | .logged event clk process finishTime => logProcessEventText wta event clk process finishTime
    | _ => []

/-- Its lines as a format. -/
def schedulerFormat : Format :=
  .text "At time ".toList (.int (.text " process ".toList (.int (.oneOf
    [" started ".toList, " resumed ".toList, " stopped ".toList, " finished ".toList] fun i =>
      .text "arr ".toList (.int (.text " total ".toList (.int (.text " remain ".toList (.int
        (.text " wait ".toList (.int (if i = 3 then
          .text " TA ".toList (.int (.text " WTA ".toList (.upTo '\n' .stop)))
        else .text "\n".toList .stop))))))))))))

/-- What a line tells of its process. -/
structure Standing where
  idFromFile : ℤ
  arrivalTime : ℤ
  executionTime : ℤ
  remainingTime : ℤ
  waitingTime : ℤ
  deriving DecidableEq, Repr

def PCB.standing (p : PCB) : Standing :=
  { idFromFile := p.idFromFile
    arrivalTime := p.arrivalTime
    executionTime := p.executionTime
    remainingTime := p.remainingTime
    waitingTime := p.waitingTime }

/-- What it tells but for the remaining time, which goes on changing while the process runs. -/
def Standing.lasting (st : Standing) : Standing := { st with remainingTime := 0 }

structure LogLine where
  event : ProcessEvent
  time : ℤ
  standing : Standing
  turnaround : ℤ
  deriving DecidableEq, Repr

/-- The line behind an effect; a turnaround time is told by those of finished processes only. -/
def Effect.line : Effect → Option LogLine
  | .logged event time p finishTime => some
      { event, time
        standing := p.standing
        turnaround := if event = .finished then finishTime - p.arrivalTime else 0 }
  | _ => none

def ProcessEvent.word : ProcessEvent → ℕ
  | .started => 0
  | .resumed => 1
  | .stopped => 2
  | .finished => 3

namespace LogLine

def fields (wta : ℤ → ℤ → List Char) (r : LogLine) : List Field :=
  [.int r.time, .int r.standing.idFromFile, .word r.event.word, .int r.standing.arrivalTime,
    .int r.standing.executionTime, .int r.standing.remainingTime, .int r.standing.waitingTime] ++
    if r.event = .finished then
      [.int r.turnaround, .str (wta r.turnaround r.standing.executionTime)]
    else []

def ofFields : List Field → Option LogLine
  | .int time :: .int idFromFile :: .word i :: .int arrivalTime :: .int executionTime ::
      .int remainingTime :: .int waitingTime :: rest =>
    let standing := { idFromFile, arrivalTime, executionTime, remainingTime, waitingTime }
    match i, rest with
    | 0, [] => some { event := .started, time, standing, turnaround := 0 }
    | 1, [] => some { event := .resumed, time, standing, turnaround := 0 }
    | 2, [] => some { event := .stopped, time, standing, turnaround := 0 }
    | 3, [.int turnaround, .str _] => some { event := .finished, time, standing, turnaround }
    | _, _ => none
  | _ => none

end LogLine

/-- Who is on the CPU, who has been stopped, and who has finished with which turnaround time. -/
structure Board where
  onCpu : Option Standing
  stopped : Multiset Standing
  finished : List (ℤ × ℤ)
  deriving DecidableEq

namespace Board

def blank : Board := { onCpu := none, stopped := 0, finished := [] }

/-- One line played back on what stood before it. -/
def play (b : Board) (r : LogLine) : Board :=
  match r.event with
  | .started | .resumed =>
    { b with
      onCpu := some r.standing
      stopped := b.stopped.filter (·.idFromFile ≠ r.standing.idFromFile) }
  | .stopped => { b with onCpu := none, stopped := r.standing ::ₘ b.stopped }
  | .finished =>
    { b with
      onCpu := none
      finished := b.finished ++ [(r.standing.idFromFile, r.turnaround)] }

def playBack (lines : List LogLine) : Board := lines.foldl play blank

/-- What a text of lines plays back to. -/
def ofText (text : List Char) : Board :=
  playBack ((readAll schedulerFormat text).filterMap LogLine.ofFields)

end Board

open Board

variable {wta : ℤ → ℤ → List Char} {es es' : List Effect} {r : LogLine} {d d' : Dispatcher}
  {p q : PCB} {b : Board} {clk value : ℤ} {m : Multiset PCB}

theorem unambiguous_schedulerFormat : Unambiguous schedulerFormat := by decide

/-- The turnaround time of a line that tells none is not set. -/
def LogLine.Told (r : LogLine) : Prop := r.event ≠ .finished → r.turnaround = 0

theorem conforms_fields (hwta : ∀ ta total, '\n' ∉ wta ta total) (r : LogLine) :
    Conforms schedulerFormat (r.fields wta) := by
  have hlt : r.event.word < 4 := by cases r.event <;> decide
  simp only [schedulerFormat, LogLine.fields, List.cons_append, List.nil_append, Conforms]
  refine ⟨hlt, ?_⟩
  by_cases h : r.event = .finished
  · simp only [h, ProcessEvent.word, if_true, Conforms]
    exact ⟨hwta _ _, trivial⟩
  · have hword : r.event.word ≠ 3 := by
      cases he : r.event <;> first | exact absurd he h | decide
    simp only [h, hword, if_false, Conforms]

theorem ofFields_lineFields (h : r.Told) : LogLine.ofFields (r.fields wta) = some r := by
  obtain ⟨event, time, standing, turnaround⟩ := r
  have hzero : event ≠ .finished → turnaround = 0 := h
  cases event with
  | finished => rfl
  | started | resumed | stopped =>
    rw [hzero (by decide)]
    rfl

theorem line_told {e : Effect} (h : e.line = some r) : r.Told := by
  cases e with
  | logged event time p finishTime =>
    cases h
    exact fun hne => if_neg hne
  | _ => cases h

theorem name_append (state : ProcessEvent) (t : List Char) :
    " ".toList ++ (state.name ++ (" arr ".toList ++ t)) =
      [" started ".toList, " resumed ".toList, " stopped ".toList, " finished ".toList].getD
        state.word [] ++ ("arr ".toList ++ t) := by
  cases state <;> rfl

/-- What an effect adds to the file is its line printed. -/
theorem logProcessEventText_eq (e : Effect) : schedulerText wta [e] =
    (e.line.toList.map (LogLine.fields wta)).flatMap (print schedulerFormat) := by
  cases e with
  | logged event time p finishTime =>
    simp only [schedulerText, List.flatMap_cons, List.flatMap_nil, List.append_nil, Effect.line,
      Option.toList_some, List.map_cons, List.map_nil]
    unfold logProcessEventText
    simp only [LogLine.fields, schedulerFormat, List.cons_append, List.nil_append, print,
      PCB.standing, List.append_assoc, name_append]
    have hend : "\n".toList = ['\n'] := rfl
    by_cases h : event = .finished
    · subst h
      simp only [ProcessEvent.word, if_true, print, List.append_assoc, hend]
    · have hword : event.word ≠ 3 := by
        cases event <;> first | exact absurd rfl h | decide
      simp only [h, hword, if_false, print, List.nil_append, List.append_nil]
  | _ => rfl

theorem schedulerText_eq (es : List Effect) : schedulerText wta es =
    ((es.filterMap Effect.line).map (LogLine.fields wta)).flatMap (print schedulerFormat) := by
  induction es with
  | nil => rfl
  | cons e es ih =>
    have hsplit : schedulerText wta (e :: es) = schedulerText wta [e] ++ schedulerText wta es := by
      simp [schedulerText]
    have hlines : (e :: es).filterMap Effect.line = e.line.toList ++ es.filterMap Effect.line := by
      cases h : e.line <;> simp [h]
    rw [hsplit, ih, logProcessEventText_eq, hlines, List.map_append, List.flatMap_append]

/-- The text tells every line. -/
theorem lines_schedulerText (hwta : ∀ ta total, '\n' ∉ wta ta total) (es : List Effect) :
    (readAll schedulerFormat (schedulerText wta es)).filterMap LogLine.ofFields =
      es.filterMap Effect.line := by
  have hpos : ∀ fields ∈ (es.filterMap Effect.line).map (LogLine.fields wta),
      print schedulerFormat fields ≠ [] := by
    intro fields _
    simp only [schedulerFormat, print]
    exact List.append_ne_nil_of_left_ne_nil (by decide) _
  have hconforms : ∀ fields ∈ (es.filterMap Effect.line).map (LogLine.fields wta),
      Conforms schedulerFormat fields := by
    intro fields hf
    obtain ⟨r, -, rfl⟩ := List.mem_map.mp hf
    exact conforms_fields hwta r
  have hback : ∀ r ∈ es.filterMap Effect.line, LogLine.ofFields (r.fields wta) = some r := by
    intro r hr
    obtain ⟨e, -, he⟩ := List.mem_filterMap.mp hr
    exact ofFields_lineFields (line_told he)
  rw [schedulerText_eq, readAll_print unambiguous_schedulerFormat hconforms hpos rfl,
    List.filterMap_map]
  exact (List.filterMap_congr hback).trans List.filterMap_some

theorem ofText_schedulerText (hwta : ∀ ta total, '\n' ∉ wta ta total) (es : List Effect) :
    ofText (schedulerText wta es) = playBack (es.filterMap Effect.line) :=
  congrArg playBack (lines_schedulerText hwta es)

/-- An id that no process received has had. -/
def NewId (d : Dispatcher) (p : PCB) : Prop := p.idFromFile ∉ d.done.filterMap Effect.receivedId

/-- The board shows who is where. -/
structure Shows (b : Board) (d : Dispatcher) : Prop where
  onCpu : b.onCpu.map Standing.lasting = d.running.map fun p => p.standing.lasting
  stopped : b.stopped = (d.waiting.filter (·.startTime ≠ -1)).map PCB.standing
  finished : b.finished.map Prod.fst = d.done.filterMap Effect.finishedId
  started : ∀ p, d.running = some p → p.startTime ≠ -1
  nodup : (d.processes.map PCB.idFromFile).Nodup
  known : ∀ p ∈ d.processes, p.idFromFile ∈ d.done.filterMap Effect.receivedId

theorem play_dispatch (h : r.event = .started ∨ r.event = .resumed) : b.play r =
    { b with
      onCpu := some r.standing
      stopped := b.stopped.filter (·.idFromFile ≠ r.standing.idFromFile) } := by
  rcases h with h | h <;> simp only [play, h]

namespace Shows

/-- A process that has not started waits. -/
theorem arrive (h : Shows b d) (hnew : NewId d p) :
    Shows b { d with
      waiting := p.arrived ::ₘ d.waiting
      done := d.done ++ [.received { p with remainingTime := p.executionTime }] } := by
  have hreceived : (d.done ++ [Effect.received
      { p with remainingTime := p.executionTime }]).filterMap Effect.receivedId =
        d.done.filterMap Effect.receivedId ++ [p.idFromFile] := List.filterMap_append
  refine ⟨h.onCpu, ?_, ?_, h.started, ?_, ?_⟩
  · rw [h.stopped, Multiset.filter_cons_of_neg _ (by simp [PCB.arrived])]
  · rw [h.finished]
    simp [Effect.finishedId]
  · rw [processes_arrive, Multiset.map_cons, Multiset.nodup_cons]
    refine ⟨fun hin => ?_, h.nodup⟩
    obtain ⟨q, hq, heq⟩ := Multiset.mem_map.mp hin
    have hknown := h.known q hq
    rw [heq] at hknown
    exact hnew hknown
  · intro q hq
    rw [processes_arrive, Multiset.mem_cons] at hq
    rw [hreceived, List.mem_append]
    rcases hq with rfl | hq
    · exact Or.inr (List.mem_singleton.mpr rfl)
    · exact Or.inl (h.known q hq)

theorem reread (h : Shows b d) (hp : d.running = some p) (value : ℤ) :
    Shows b { d with running := some { p with remainingTime := value } } := by
  have hids : (Dispatcher.processes { d with running := some { p with remainingTime := value } }).map
      PCB.idFromFile = d.processes.map PCB.idFromFile := by
    rw [processes_running hp, Multiset.map_cons]
    exact Multiset.map_cons PCB.idFromFile { p with remainingTime := value } d.waiting
  refine ⟨?_, h.stopped, h.finished, ?_, hids.symm ▸ h.nodup, ?_⟩
  · rw [h.onCpu, hp]
    rfl
  · rintro q ⟨⟩
    exact h.started p hp
  · intro q hq
    obtain ⟨r, hr, heq⟩ := Multiset.mem_map.mp (hids ▸ Multiset.mem_map_of_mem PCB.idFromFile hq)
    exact heq ▸ h.known r hr

/-- Those who have been stopped are no longer among them once they run. -/
theorem filter_stopped (hnodup : ((q ::ₘ m).map PCB.idFromFile).Nodup) :
    (((q ::ₘ m).filter (·.startTime ≠ -1)).map PCB.standing).filter
        (·.idFromFile ≠ q.idFromFile) = (m.filter (·.startTime ≠ -1)).map PCB.standing := by
  rw [Multiset.map_cons, Multiset.nodup_cons] at hnodup
  have hothers : ∀ p ∈ m, p.idFromFile ≠ q.idFromFile := by
    intro p hp heq
    exact hnodup.1 (heq ▸ Multiset.mem_map_of_mem PCB.idFromFile hp)
  rw [Multiset.filter_map, Multiset.filter_filter]
  congr 1
  rw [Multiset.filter_cons_of_neg _ (by simp [PCB.standing])]
  refine Multiset.filter_congr fun p hp => ?_
  simp [PCB.standing, hothers p hp]

theorem dispatch (h : Shows b d) (hidle : d.running = none) (hq : d.waiting = q ::ₘ m)
    (hstart : (q.dispatched clk).startTime ≠ -1) (hr : r.standing = (q.dispatched clk).standing)
    (hevent : r.event = .started ∨ r.event = .resumed) :
    Shows (b.play r)
      { running := some (q.dispatched clk)
        waiting := m
        done := d.done ++ contEffects (dispatchEvent q) clk true (q.dispatched clk) } := by
  have hnodup := h.nodup
  have hids : Multiset.map PCB.idFromFile (q.dispatched clk ::ₘ m) =
      (q ::ₘ m).map PCB.idFromFile := by simp
  rw [processes_idle hidle, hq] at hnodup
  obtain ⟨hrec, hfin⟩ : (contEffects (dispatchEvent q) clk true (q.dispatched clk)).filterMap
        Effect.receivedId = [] ∧
      (contEffects (dispatchEvent q) clk true (q.dispatched clk)).filterMap
        Effect.finishedId = [] := by
    rcases dispatchEvent_cases q with he | he <;>
      simp [contEffects, Effect.receivedId, Effect.finishedId, he]
  rw [play_dispatch hevent]
  refine ⟨congrArg (some ∘ Standing.lasting) hr, ?_, ?_, ?_, ?_, ?_⟩
  · have hid : r.standing.idFromFile = q.idFromFile := by
      rw [hr]
      exact q.dispatched_idFromFile clk
    dsimp only
    rw [h.stopped, hq, hid]
    exact filter_stopped hnodup
  · rw [h.finished, List.filterMap_append, hfin, List.append_nil]
  · rintro p ⟨⟩
    exact hstart
  · exact hids.symm ▸ hnodup
  · intro p hp
    rw [List.filterMap_append, hrec, List.append_nil]
    obtain ⟨w, hw, heq⟩ := Multiset.mem_map.mp (hids ▸ Multiset.mem_map_of_mem PCB.idFromFile hp)
    rw [← heq]
    exact h.known w (by rw [processes_idle hidle, hq]; exact hw)

theorem preempt (h : Shows b d) (hp : d.running = some p)
    (hr : r.standing = (p.preempted clk value).standing) (hevent : r.event = .stopped) :
    Shows (b.play r)
      { running := none
        waiting := p.preempted clk value ::ₘ d.waiting
        done := d.done ++ stopEffects clk true (p.preempted clk value) } := by
  have hids : Multiset.map PCB.idFromFile (p.preempted clk value ::ₘ d.waiting) =
      d.processes.map PCB.idFromFile := by
    rw [processes_running hp, Multiset.map_cons, Multiset.map_cons]
    rfl
  have hplay : b.play r = { b with onCpu := none, stopped := r.standing ::ₘ b.stopped } := by
    simp only [play, hevent]
  rw [hplay]
  refine ⟨rfl, ?_, ?_, (fun q hq => by cases hq), ?_, ?_⟩
  · have hstart : (p.preempted clk value).startTime ≠ -1 := h.started p hp
    dsimp only
    have hkept := Multiset.filter_cons_of_pos (p := fun q : PCB => q.startTime ≠ -1) d.waiting
      hstart
    rw [h.stopped, hr, hkept, Multiset.map_cons]
  · rw [h.finished]
    simp [stopEffects, Effect.finishedId]
  · exact hids.symm ▸ h.nodup
  · intro q hq
    obtain ⟨w, hw, heq⟩ := Multiset.mem_map.mp (hids ▸ Multiset.mem_map_of_mem PCB.idFromFile hq)
    have hknown := h.known w hw
    rw [heq] at hknown
    simp [stopEffects, Effect.receivedId, hknown]

theorem retire (h : Shows b d) (hp : d.running = some p) {finished count : ℕ}
    (hr : r.standing.idFromFile = p.idFromFile) (hevent : r.event = .finished) :
    Shows (b.play r)
      { running := none
        waiting := d.waiting
        done := d.done ++ retireEffects clk finished count value p } := by
  have hprocesses := processes_running hp
  have hplay : b.play r = { b with
      onCpu := none
      finished := b.finished ++ [(r.standing.idFromFile, r.turnaround)] } := by
    simp only [play, hevent]
  obtain ⟨hrec, hfin⟩ : (retireEffects clk finished count value p).filterMap
        Effect.receivedId = [] ∧
      (retireEffects clk finished count value p).filterMap Effect.finishedId =
        [p.idFromFile] := by
    unfold retireEffects
    split <;> simp [List.filterMap_cons, Effect.receivedId, Effect.finishedId, PCB.retired]
  have hnodup := h.nodup
  rw [hprocesses, Multiset.map_cons, Multiset.nodup_cons] at hnodup
  rw [hplay]
  refine ⟨rfl, h.stopped, ?_, (fun q hq => by cases hq), hnodup.2, ?_⟩
  · dsimp only
    rw [List.map_append, h.finished, List.filterMap_append, hfin, ← hr]
    rfl
  · intro q hq
    rw [List.filterMap_append, hrec, List.append_nil]
    exact h.known q (by rw [hprocesses]; exact Multiset.mem_cons_of_mem hq)

end Shows

theorem board_append (es es' : List Effect) :
    playBack ((es ++ es').filterMap Effect.line) =
      (es'.filterMap Effect.line).foldl play (playBack (es.filterMap Effect.line)) := by
  rw [List.filterMap_append]
  exact List.foldl_append

/-- Effects of which one is a line. -/
theorem board_snoc (hes : es'.filterMap Effect.line = [r]) :
    playBack ((es ++ es').filterMap Effect.line) = (playBack (es.filterMap Effect.line)).play r := by
  rw [board_append, hes]
  rfl

theorem lines_retire {finished count : ℕ} :
    (retireEffects clk finished count value p).filterMap Effect.line =
      [{ event := .finished
         time := clk
         standing := (p.retired value).standing
         turnaround := clk - p.arrivalTime }] := by
  unfold retireEffects
  split <;> rfl

/-- One step of a dispatcher whose signals are delivered, played back. -/
theorem shows_step (h : Shows (playBack (d.done.filterMap Effect.line)) d)
    (hstarts : ∀ p, .signal .cont p ∈ d'.done → p.startTime ≠ -1)
    (hstep : Dispatches NewId (· = true) d d') :
    Shows (playBack (d'.done.filterMap Effect.line)) d' := by
  cases hstep with
  | @arrive p hok =>
    rw [board_append]
    exact h.arrive hok
  | reread value hp => exact h.reread hp value
  | @dispatch q rest clk sent hidle hq hsent =>
    subst hsent
    have hstart : (q.dispatched clk).startTime ≠ -1 := by
      apply hstarts
      simp [contEffects]
    rw [board_snoc rfl]
    exact h.dispatch hidle hq hstart rfl (dispatchEvent_cases q)
  | @preempt p clk value sent hp hsent =>
    subst hsent
    rw [board_snoc rfl]
    exact h.preempt hp rfl rfl
  | @grant p hp =>
    rw [board_append]
    refine ⟨h.onCpu, h.stopped, ?_, h.started, h.nodup, ?_⟩
    · rw [List.filterMap_append]
      exact h.finished.trans (List.append_nil _).symm
    · intro q hq
      rw [List.filterMap_append]
      exact List.mem_append_left _ (h.known q hq)
  | @retire p clk value finished count hp =>
    rw [board_snoc lines_retire]
    exact h.retire hp rfl rfl

theorem dispatches_done {ok : Dispatcher → PCB → Prop} {answer : Bool → Prop}
    (h : Dispatches ok answer d d') : d.done <+: d'.done := by
  cases h with
  | reread value hp => exact List.prefix_refl _
  | _ => exact List.prefix_append _ _

/-- The board shows whoever a run leads to, if every process started at a time. -/
theorem shows_reached (h : ReflTransGen (Dispatches NewId (· = true)) Dispatcher.idle d)
    (hstarts : ∀ p, .signal .cont p ∈ d.done → p.startTime ≠ -1) :
    Shows (playBack (d.done.filterMap Effect.line)) d := by
  induction h with
  | refl =>
    have hnobody : Dispatcher.idle.processes = 0 := rfl
    refine ⟨rfl, rfl, rfl, (fun p hp => by cases hp), Multiset.nodup_zero, ?_⟩
    simp [hnobody]
  | tail _ hstep ih =>
    have hbefore := ih fun p hp => hstarts p ((dispatches_done hstep).subset hp)
    exact shows_step hbefore hstarts hstep

/-- Messages with a valid semaphore and a new id, while fewer than 1024 are unfinished; and `kill`
succeeds. -/
def Tellable (l : Loop) : LoopAct → Prop
  | .receive p i => 0 < p.syncSemid ∧ p.idFromFile ∉ l.scheduler.receivedIds ∧
      l.scheduler.held.length < 1024 ∧ ∀ b ∈ i.kills, b = true
  | .sigusr2 i => ∀ b ∈ i.kills, b = true
  | .advance i => ∀ b ∈ i.kills, b = true
  | _ => True

instance : ∀ l a, Decidable (Tellable l a)
  | l, .receive p i => inferInstanceAs (Decidable (0 < p.syncSemid ∧
      p.idFromFile ∉ l.scheduler.receivedIds ∧ l.scheduler.held.length < 1024 ∧
      ∀ b ∈ i.kills, b = true))
  | _, .sigusr2 i => inferInstanceAs (Decidable (∀ b ∈ i.kills, b = true))
  | _, .advance i => inferInstanceAs (Decidable (∀ b ∈ i.kills, b = true))
  | _, .tick => isTrue trivial
  | _, .sigusr1 => isTrue trivial
  | _, .downNb _ => isTrue trivial
  | _, .noMessage => isTrue trivial

variable {l : Loop} {a : LoopAct}

theorem Tellable.admits (h : Tellable l a) : Admits NewId (· = true) l a := by
  cases a with
  | receive p i => exact ⟨h.1, Or.inr h.2.2.1, h.2.1, h.2.2.2⟩
  | _ => exact h

theorem Tellable.loggable (h : Tellable l a) : Loggable l a := by
  cases a with
  | receive p i =>
    obtain ⟨hsem, hnew, hlen, hi⟩ := h
    refine ⟨hsem, fun hin => hnew ?_, hlen, hi⟩
    obtain ⟨e, he, hkey⟩ := List.mem_filterMap.mp hin
    cases e with
    | received q =>
      have hid : q.idFromFile = p.idFromFile := congrArg Prod.snd (Option.some.inj hkey)
      exact List.mem_filterMap.mpr ⟨_, he, congrArg some hid⟩
    | _ => cases hkey
  | _ => exact h

/-- In every run of every algorithm, whoever reads `scheduler.log` back and plays it finds the
process on the CPU, every process that has been stopped with its remaining and its waiting time, and
those that have finished in their order. -/
theorem schedulerLog_tells (wta : ℤ → ℤ → List Char) (hwta : ∀ ta total, '\n' ∉ wta ta total)
    (algorithm : SchedulingAlgorithm) (quantum : ℤ) (clk : ℕ) (as : List LoopAct) :
    Always (Restrict Tellable LoopStep) (Loop.initial algorithm quantum clk) as fun l =>
      let board := Board.ofText (schedulerText wta l.scheduler.trace)
      board.onCpu.map Standing.lasting = l.scheduler.current.map (fun p => p.standing.lasting) ∧
        board.stopped = (l.scheduler.ready.filter (·.startTime ≠ -1)).map PCB.standing ∧
        board.finished.map Prod.fst = l.scheduler.finishedIds := by
  intro pre l _ ht
  have hlogging := ht.invariant (P := fun l => Clocked l ∧ Logging l.scheduler) ?_ ?_
  · have hadmits : Trace (Restrict (Admits NewId (· = true)) LoopStep)
        (Loop.initial algorithm quantum clk) pre l := ht.mono fun _ _ _ h => ⟨h.1.admits, h.2⟩
    have hshows := shows_reached (run_dispatches algorithm quantum clk rfl hadmits)
      hlogging.2.starts
    rw [ofText_schedulerText hwta]
    exact ⟨hshows.onCpu, hshows.stopped, hshows.finished⟩
  · rintro l a l' ⟨hl, hlog⟩ ⟨hok, hstep⟩
    exact ⟨clocked_step hl hok.loggable.semids hstep, logging_step hl hlog hok.loggable hstep⟩
  · exact ⟨clocked_initial algorithm quantum (Int.natCast_nonneg clk),
      logging_initial algorithm quantum clk⟩

/-- The first of three processes has ended, the second has been stopped, and the third runs. -/
def threeStandingRun : List LoopAct :=
  [.advance {}, .downNb true,
    .receive { emptyFront with idFromFile := 1, executionTime := 1, syncSemid := 5 } {},
    .receive { emptyFront with idFromFile := 2, executionTime := 3, syncSemid := 6 } {},
    .receive { emptyFront with idFromFile := 3, executionTime := 2, syncSemid := 7 } {},
    .noMessage] ++
  List.replicate 6 (.advance {}) ++
  [.tick, .sigusr2 {}, .advance {}, .advance {}, .downNb true, .noMessage, .tick] ++
  List.replicate 6 (.advance {}) ++
  [.tick, .advance {}, .advance {}, .downNb true, .noMessage] ++ List.replicate 3 (.advance {}) ++
  [.advance ⟨[some 2], []⟩]

theorem schedulerLog_tells_three :
    ∃ l, (l.scheduler.finishedIds = [1] ∧ l.scheduler.ready.map PCB.standing = [⟨2, 0, 3, 2, 2⟩] ∧
        l.scheduler.current.map PCB.idFromFile = some 3) ∧
      Trace (Restrict Tellable LoopStep) (Loop.initial .RR 1 (0 : ℕ)) threeStandingRun l ∧
      let board := Board.ofText (schedulerText (fun _ _ => "1.50".toList) l.scheduler.trace)
      board.onCpu.map Standing.lasting = l.scheduler.current.map (fun p => p.standing.lasting) ∧
        board.stopped = (l.scheduler.ready.filter (·.startTime ≠ -1)).map PCB.standing ∧
        board.finished.map Prod.fst = l.scheduler.finishedIds := by
  obtain ⟨l, hrun, htest⟩ := exists_trace_of_execute (fun _ _ _ => loopStep_of_next)
    (show (execute Tellable Loop.next (Loop.initial .RR 1 (0 : ℕ)) threeStandingRun).any (fun l =>
      l.scheduler.finishedIds = [1] ∧ l.scheduler.ready.map PCB.standing = [⟨2, 0, 3, 2, 2⟩] ∧
        l.scheduler.current.map PCB.idFromFile = some 3) = true by decide +kernel)
  exact ⟨l, of_decide_eq_true htest, hrun,
    schedulerLog_tells (fun _ _ => "1.50".toList) (fun _ _ => by decide) .RR 1 0 _ _ l
      (List.prefix_refl _) hrun⟩

end KernelSim
