import KernelSim.Library.Runs
import KernelSim.Scheduler.Books

/-! The loop of the scheduler's `main`, statement by statement, with signals handled in between. -/
namespace KernelSim
open Runs Relation

/-- What the reads of shared memory and the calls of `kill` made in one step return. -/
structure Inputs where
  readings : List (Option ℤ) := []
  kills : List Bool := []
  deriving DecidableEq

/-- The statement of the loop that comes next. -/
inductive LoopPoint
  /-- `if (generator_finished && …) break;` -/
  | test
  /-- `down_nb(semid)` -/
  | downNb
  /-- `msgrcv` in `receive_new_process` -/
  | receive
  /-- `current_time = get_clk();` -/
  | getClk
  /-- `if (current_time != clockValue)` -/
  | compare
  /-- `clockValue = current_time;` -/
  | assign
  | runAlgorithm
  /-- `semctl(current_process->sync_semid, 0, SETVAL, 1)` -/
  | grant
  /-- `update_process_remaining_time(current_process)` -/
  | refresh
  /-- `while (get_clk() == current_time)` -/
  | wait
  | exited
  deriving DecidableEq

/-- The scheduler in its loop, and the clock. `begun` and `owed` are kept for the proofs only: how
long the trace was when the iteration took its semaphore, and whether a process was there once its
messages were received and none has completed since. -/
structure Loop where
  scheduler : Scheduler
  point : LoopPoint
  currentTime : ℤ
  clock : ℤ
  begun : ℕ
  owed : Bool

inductive LoopAct
  | tick
  | sigusr1
  | sigusr2 (inputs : Inputs)
  | downNb (taken : Bool)
  | receive (process : PCB) (inputs : Inputs)
  | noMessage
  /-- any other statement of the loop -/
  | advance (inputs : Inputs)
  deriving DecidableEq

namespace Scheduler

def feed (s : Scheduler) (inputs : Inputs) : Scheduler :=
  { s with readings := inputs.readings, kills := inputs.kills }

/-- Some process is ready or current. -/
def hasWork (s : Scheduler) : Bool := !s.ready.isEmpty || s.current.isSome

/-- `handle_process_completion` would write past the 100 entries of `turnaround_times`, `wta_list`
and `wait_times`. -/
def Overruns (s : Scheduler) : Prop := s.currentProcess ≠ none ∧ 100 ≤ s.finishedProcesses

instance (s : Scheduler) : Decidable s.Overruns :=
  inferInstanceAs (Decidable (s.currentProcess ≠ none ∧ 100 ≤ s.finishedProcesses))

end Scheduler

namespace Loop

def initial (algorithm : SchedulingAlgorithm) (quantum clk : ℤ) : Loop :=
  { scheduler := Scheduler.initial algorithm quantum clk
    point := .test
    currentTime := clk
    clock := clk
    begun := 0
    owed := false }

/-- The signal handler `handle_process_completion`, at this moment. -/
def complete (l : Loop) (inputs : Inputs) : Loop :=
  { l with
    scheduler := (l.scheduler.feed inputs).handleProcessCompletion l.clock
    owed := l.owed && l.scheduler.currentProcess.isNone }

/-- The statement at `point`, where it is not `down_nb` or `msgrcv`; `none` while the loop waits
for the clock, and after it. -/
def advance (l : Loop) (inputs : Inputs) : Option Loop :=
  match l.point with
  | .test => some { l with point := if l.scheduler.isDone then .exited else .downNb }
  | .getClk => some { l with currentTime := l.clock, point := .compare }
  | .compare => some
      { l with point := if l.currentTime ≠ l.scheduler.clockValue then .assign else .wait }
  | .assign => some
      { l with scheduler := { l.scheduler with clockValue := l.currentTime }, point := .runAlgorithm }
  | .runAlgorithm => some
      { l with scheduler := (l.scheduler.feed inputs).runAlgorithm, point := .grant }
  | .grant => some { l with scheduler := l.scheduler.grantTick, point := .refresh }
  | .refresh => some
      { l with scheduler := (l.scheduler.feed inputs).updateCurrent, point := .wait }
  | .wait => if l.clock ≠ l.currentTime then some { l with point := .test } else none
  | .downNb | .receive | .exited => none

/-- A statement or a handler, `none` where the action is not possible. -/
def attempt (l : Loop) : LoopAct → Option Loop
  | .tick => some { l with clock := l.clock + 1 }
  | .sigusr1 =>
    if l.point = .exited then none
    else some { l with scheduler := l.scheduler.handleGeneratorCompletion }
  | .sigusr2 inputs => if l.point = .exited then none else some (l.complete inputs)
  | .downNb taken =>
    if l.point = .downNb then
      if taken then
        some { l with point := .receive, begun := l.scheduler.trace.length, owed := false }
      else some { l with point := .test }
    else none
  | .receive process inputs =>
    if l.point = .receive then
      some { l with scheduler := (l.scheduler.feed inputs).receiveMessage process }
    else none
  | .noMessage =>
    if l.point = .receive then some { l with point := .getClk, owed := l.scheduler.hasWork }
    else none
  | .advance inputs => l.advance inputs

/-- One step. A run ends before a handler that writes past the arrays of statistics: what lies
behind them, `semid`, `clockValue` and `ready_Heap` among it, would then hold anything. -/
def next (l : Loop) : LoopAct → Option Loop
  | .sigusr2 inputs => if l.scheduler.Overruns then none else l.attempt (.sigusr2 inputs)
  | a => l.attempt a

end Loop

namespace Loop

variable {l l' : Loop} {es : List Effect}

/-- What the scheduler has done since the iteration began. -/
def recent (l : Loop) : List Effect := l.scheduler.trace.drop l.begun

theorem recent_append (hb : l.begun ≤ l.scheduler.trace.length) (h' : l'.begun = l.begun)
    (ht : l'.scheduler.trace = l.scheduler.trace ++ es) :
    l'.recent = l.recent ++ es ∧ l'.begun ≤ l'.scheduler.trace.length := by
  constructor
  · rw [recent, recent, ht, h', List.drop_append_of_le_length hb]
  · rw [ht, h', List.length_append]
    omega

end Loop

/-- What one step can do. -/
inductive LoopStep (l : Loop) : LoopAct → Loop → Prop
  | tick : LoopStep l .tick { l with clock := l.clock + 1 }
  | sigusr1 (hp : l.point ≠ .exited) :
      LoopStep l .sigusr1 { l with scheduler := l.scheduler.handleGeneratorCompletion }
  | sigusr2 {i : Inputs} (hp : l.point ≠ .exited) (hplace : ¬ l.scheduler.Overruns) :
      LoopStep l (.sigusr2 i) (l.complete i)
  | exit {i : Inputs} (hp : l.point = .test) (hd : l.scheduler.isDone = true) :
      LoopStep l (.advance i) { l with point := .exited }
  | test {i : Inputs} (hp : l.point = .test) (hd : l.scheduler.isDone = false) :
      LoopStep l (.advance i) { l with point := .downNb }
  | refused (hp : l.point = .downNb) : LoopStep l (.downNb false) { l with point := .test }
  | taken (hp : l.point = .downNb) : LoopStep l (.downNb true)
      { l with point := .receive, begun := l.scheduler.trace.length, owed := false }
  | receive {p : PCB} {i : Inputs} (hp : l.point = .receive) :
      LoopStep l (.receive p i) { l with scheduler := (l.scheduler.feed i).receiveMessage p }
  | noMessage (hp : l.point = .receive) :
      LoopStep l .noMessage { l with point := .getClk, owed := l.scheduler.hasWork }
  | getClk {i : Inputs} (hp : l.point = .getClk) :
      LoopStep l (.advance i) { l with currentTime := l.clock, point := .compare }
  | differs {i : Inputs} (hp : l.point = .compare) (hne : l.currentTime ≠ l.scheduler.clockValue) :
      LoopStep l (.advance i) { l with point := .assign }
  | equals {i : Inputs} (hp : l.point = .compare) (heq : l.currentTime = l.scheduler.clockValue) :
      LoopStep l (.advance i) { l with point := .wait }
  | assign {i : Inputs} (hp : l.point = .assign) : LoopStep l (.advance i)
      { l with scheduler := { l.scheduler with clockValue := l.currentTime }, point := .runAlgorithm }
  | runAlgorithm {i : Inputs} (hp : l.point = .runAlgorithm) : LoopStep l (.advance i)
      { l with scheduler := (l.scheduler.feed i).runAlgorithm, point := .grant }
  | grant {i : Inputs} (hp : l.point = .grant) :
      LoopStep l (.advance i) { l with scheduler := l.scheduler.grantTick, point := .refresh }
  | refresh {i : Inputs} (hp : l.point = .refresh) : LoopStep l (.advance i)
      { l with scheduler := (l.scheduler.feed i).updateCurrent, point := .wait }
  | again {i : Inputs} (hp : l.point = .wait) (hne : l.clock ≠ l.currentTime) :
      LoopStep l (.advance i) { l with point := .test }

variable {l l' : Loop} {a : LoopAct}

/-- The executable step takes only such steps. -/
theorem loopStep_of_next (h : l.next a = some l') : LoopStep l a l' := by
  cases a with
  | tick =>
    cases h
    exact .tick
  | sigusr1 =>
    simp only [Loop.next, Loop.attempt, Option.ite_none_left_eq_some, Option.some.injEq] at h
    obtain ⟨hp, rfl⟩ := h
    exact .sigusr1 hp
  | sigusr2 i =>
    simp only [Loop.next, Loop.attempt, Option.ite_none_left_eq_some, Option.some.injEq] at h
    obtain ⟨hplace, hp, rfl⟩ := h
    exact .sigusr2 hp hplace
  | downNb taken =>
    simp only [Loop.next, Loop.attempt, Option.ite_none_right_eq_some] at h
    obtain ⟨hp, h⟩ := h
    cases taken <;> cases h
    · exact .refused hp
    · exact .taken hp
  | receive p i =>
    simp only [Loop.next, Loop.attempt, Option.ite_none_right_eq_some, Option.some.injEq] at h
    obtain ⟨hp, rfl⟩ := h
    exact .receive hp
  | noMessage =>
    simp only [Loop.next, Loop.attempt, Option.ite_none_right_eq_some, Option.some.injEq] at h
    obtain ⟨hp, rfl⟩ := h
    exact .noMessage hp
  | advance i =>
    simp only [Loop.next, Loop.attempt, Loop.advance] at h
    cases hp : l.point <;> simp only [hp] at h
    case test =>
      cases hd : l.scheduler.isDone <;> simp only [hd] at h <;> cases h
      · exact .test hp hd
      · exact .exit hp hd
    case getClk => cases h; exact .getClk hp
    case compare =>
      by_cases hne : l.currentTime ≠ l.scheduler.clockValue
      · rw [if_pos hne] at h
        cases h
        exact .differs hp hne
      · rw [if_neg hne] at h
        cases h
        exact .equals hp (not_not.mp hne)
    case assign => cases h; exact .assign hp
    case runAlgorithm => cases h; exact .runAlgorithm hp
    case grant => cases h; exact .grant hp
    case refresh => cases h; exact .refresh hp
    case wait =>
      simp only [Option.ite_none_right_eq_some, Option.some.injEq] at h
      obtain ⟨hne, rfl⟩ := h
      exact .again hp hne
    all_goals cases h

/-- Messages with a valid semaphore id, the only ones the generator sends. -/
def SemidsValid (_ : Loop) : LoopAct → Prop
  | .receive p _ => 0 < p.syncSemid
  | _ => True

instance : ∀ l a, Decidable (SemidsValid l a)
  | _, .receive p _ => inferInstanceAs (Decidable (0 < p.syncSemid))
  | _, .tick => isTrue trivial
  | _, .sigusr1 => isTrue trivial
  | _, .sigusr2 _ => isTrue trivial
  | _, .downNb _ => isTrue trivial
  | _, .noMessage => isTrue trivial
  | _, .advance _ => isTrue trivial

/-! An invariant of the scheduler is preserved by the loop when the operations the loop is made of
preserve it. -/

namespace Scheduler

variable {s s' : Scheduler} {p : PCB} {P : Scheduler → Prop} {ok : Scheduler → PCB → Prop}

theorem Sound.withClock (hs : Sound s) (clk : ℤ) : Sound { s with clockValue := clk } :=
  ⟨⟨⟨hs.queue, hs.capacity, hs.nodup, hs.heap_lt⟩, hs.current_lt, hs.current_notMem⟩,
    hs.ready_state, hs.current_state, hs.ready_semid, hs.current_semid⟩

theorem Sound.feed (hs : Sound s) (i : Inputs) : Sound (s.feed i) :=
  ⟨⟨⟨hs.queue, hs.capacity, hs.nodup, hs.heap_lt⟩, hs.current_lt, hs.current_notMem⟩,
    hs.ready_state, hs.current_state, hs.ready_semid, hs.current_semid⟩

/-- The operations on the scheduler that the loop and the handlers consist of keep `P`, arrivals
where `ok` admits them. -/
structure Preserved (P : Scheduler → Prop) (ok : Scheduler → PCB → Prop) : Prop where
  sound : ∀ s, P s → Sound s
  semid : ∀ s p, ok s p → 0 < p.syncSemid
  clock : ∀ s clk, P s → P { s with clockValue := clk }
  feed : ∀ s i, P s → P (s.feed i)
  generator : ∀ s, P s → P s.handleGeneratorCompletion
  grant : ∀ s, P s → P s.grantTick
  move : ∀ s s', P s → Move s s' → P s'
  arrival : ∀ s p, P s → ok s p → P (s.handleProcessArrival p)
  retire : ∀ s process, P s → s.currentProcess = some process → P (s.retire process)

theorem Preserved.moves (hP : Preserved P ok) (hs : P s) (h : ReflTransGen Move s s') : P s' := by
  induction h with
  | refl => exact hs
  | tail _ hm ih => exact hP.move _ _ ih hm

theorem Preserved.receiveMessage (hP : Preserved P ok) (hs : P s) (hok : ok s p) :
    P (s.receiveMessage p) := by
  have harr := hP.arrival s p hs hok
  have hrun : P (s.handleProcessArrival p).preemptOnArrival :=
    hP.moves harr (moved_moves (preemptOnArrival_moved (hP.sound _ harr)).1)
  obtain ⟨_, heq⟩ := receiveMessage_eq s p
  rw [heq]
  exact hP.clock _ _ hrun

theorem Preserved.completion (hP : Preserved P ok) (hs : P s) (clk : ℤ) :
    P (s.handleProcessCompletion clk) := by
  have hclk := hP.clock s clk hs
  obtain ⟨-, heq⟩ | ⟨process, hc, heq⟩ := completion_cases s clk
  · rw [heq]
    exact hclk
  · have hret := hP.retire _ process hclk hc
    rcases heq with heq | heq
    · rw [heq]
      exact hret
    · rw [heq]
      exact hP.move _ _ hret (contextSwitching_move (hP.sound _ hret))

end Scheduler

theorem Loop.complete_clockValue (l : Loop) (i : Inputs) :
    (l.complete i).scheduler.clockValue = l.clock :=
  (Scheduler.completion_books (l.scheduler.feed i) l.clock).1

/-- The invariant rule for the loop. -/
theorem Scheduler.Preserved.step {P : Scheduler → Prop} {ok : Scheduler → PCB → Prop}
    (hP : Preserved P ok) (hl : P l.scheduler)
    (hok : ∀ p i, a = .receive p i → ok (l.scheduler.feed i) p) (h : LoopStep l a l') :
    P l'.scheduler := by
  cases h with
  | sigusr1 hp => exact hP.generator _ hl
  | sigusr2 hp => exact hP.completion (hP.feed _ _ hl) _
  | receive hp => exact hP.receiveMessage (hP.feed _ _ hl) (hok _ _ rfl)
  | assign hp => exact hP.clock _ _ hl
  | @runAlgorithm i hp =>
    have hfeed := hP.feed _ i hl
    exact hP.moves hfeed (runAlgorithm_moves (hP.sound _ hfeed))
  | grant hp => exact hP.grant _ hl
  | @refresh i hp =>
    have hfeed := hP.feed _ i hl
    exact hP.moves hfeed (updateCurrent_moves (hP.sound _ hfeed))
  | _ => exact hl

namespace Scheduler

variable {s : Scheduler}

theorem Sound.grantTick (hs : Sound s) : Sound s.grantTick := by
  rw [grantTick_eq]
  exact ⟨⟨⟨hs.queue, hs.capacity, hs.nodup, hs.heap_lt⟩, hs.current_lt, hs.current_notMem⟩,
    hs.ready_state, hs.current_state, hs.ready_semid, hs.current_semid⟩

/-- `Sound` is an invariant when every semaphore id delivered is valid. -/
theorem sound_preserved : Preserved Sound fun _ p => 0 < p.syncSemid where
  sound := fun _ hs => hs
  semid := fun _ _ hp => hp
  clock := fun _ clk hs => hs.withClock clk
  feed := fun _ i hs => hs.feed i
  generator := fun _ hs =>
    ⟨⟨⟨hs.queue, hs.capacity, hs.nodup, hs.heap_lt⟩, hs.current_lt, hs.current_notMem⟩,
      hs.ready_state, hs.current_state, hs.ready_semid, hs.current_semid⟩
  grant := fun _ hs => hs.grantTick
  move := fun _ _ _ hm => hm.sound
  arrival := fun _ _ hs hp => (handleProcessArrival_spec hs hp).1
  retire := fun _ _ hs hc => by
    obtain ⟨_, hsound, -⟩ := retire_spec hs hc
    exact hsound

/-- The parameters of the scheduler stay as they are. -/
structure Configured (algorithm : SchedulingAlgorithm) (quantum : ℤ) (s : Scheduler) : Prop
    extends Sound s where
  algorithm_eq : s.algorithm = algorithm
  quantum_eq : s.quantum = quantum

theorem configured_preserved (algorithm : SchedulingAlgorithm) (quantum : ℤ) :
    Preserved (Configured algorithm quantum) fun _ p => 0 < p.syncSemid where
  sound := fun _ hs => hs.toSound
  semid := fun _ _ hp => hp
  clock := fun _ clk hs => ⟨hs.withClock clk, hs.algorithm_eq, hs.quantum_eq⟩
  feed := fun _ i hs => ⟨hs.toSound.feed i, hs.algorithm_eq, hs.quantum_eq⟩
  generator := fun _ hs =>
    ⟨sound_preserved.generator _ hs.toSound, hs.algorithm_eq, hs.quantum_eq⟩
  grant := fun s hs =>
    have hb := grantTick_books s
    ⟨hs.toSound.grantTick, hb.algorithm.trans hs.algorithm_eq, hb.quantum.trans hs.quantum_eq⟩
  move := fun _ _ hs hm =>
    ⟨hm.sound, hm.books.algorithm.trans hs.algorithm_eq, hm.books.quantum.trans hs.quantum_eq⟩
  arrival := fun _ _ hs hp => by
    obtain ⟨hsound, hb, -⟩ := handleProcessArrival_spec hs.toSound hp
    exact ⟨hsound, hb.algorithm.trans hs.algorithm_eq, hb.quantum.trans hs.quantum_eq⟩
  retire := fun _ _ hs hc => by
    obtain ⟨_, hsound, hb, -⟩ := retire_spec hs.toSound hc
    exact ⟨hsound, hb.algorithm.trans hs.algorithm_eq, hb.quantum.trans hs.quantum_eq⟩

theorem sound_initial (algorithm : SchedulingAlgorithm) (quantum clk : ℤ) :
    Sound (initial algorithm quantum clk) := by
  have hready : (initial algorithm quantum clk).ready = [] := by
    cases algorithm <;> rfl
  have hqueue : (initial algorithm quantum clk).rrQueue.Valid :=
    queueInit_valid emptyFront (show 0 < 100 by decide)
  have hheap : (initial algorithm quantum clk).readyHeap.toList = [] := rfl
  have hcp : (initial algorithm quantum clk).currentProcess = none := rfl
  have hcur := current_eq_none.mpr hcp
  have hcapacity : (initial algorithm quantum clk).readyHeap.capacity = 1024 := rfl
  refine ⟨⟨⟨hqueue, hcapacity, ?_, ?_⟩, ?_, ?_⟩, ?_, ?_, ?_, ?_⟩
  · rw [hheap]
    exact List.nodup_nil
  · simp [hheap]
  · simp [hcp]
  · simp [hcp]
  · simp [hready]
  · simp [hcur]
  · simp [hready]
  · simp [hcur]

end Scheduler

end KernelSim
