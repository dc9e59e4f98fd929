import KernelSim.Scheduler.Charging
import KernelSim.Scheduler.Clock
import KernelSim.Scheduler.Preemption
import Mathlib.Data.List.Infix

/-! In round robin nobody starves: how many calls of the algorithm a process in the queue waits for. -/
namespace KernelSim
open Runs Relation Scheduler

/-- The slice of the current process is over, and it has finished: its signal is awaited. -/
def Scheduler.overdue (s : Scheduler) : Bool :=
  decide (s.quantum ≤ s.clockValue - s.timeSliceStart) && s.current.any (·.remainingTime == 0)

/-- What one call of `run_RR_Algorithm` comes to. -/
inductive RRCall (s s' : Scheduler) : Prop
  | idle (hc : s.current = none) (hr : s.ready = []) (hc' : s'.current = none) (hr' : s'.ready = [])
  | dispatched (q : PCB) (hc : s.current = none) (hr : s.ready = q :: s'.ready)
      (hc' : s'.current ≠ none) (hstart : s'.timeSliceStart = s.clockValue)
      (ht : .signal .cont (q.dispatched s.clockValue) ∈ s'.trace.drop s.trace.length)
  | kept (hc : s.current ≠ none) (hc' : s'.current ≠ none) (hr : s'.ready = s.ready)
      (hstart : s'.timeSliceStart = s.timeSliceStart)
      (hslice : s.ready = [] ∨ s.clockValue - s.timeSliceStart < s.quantum ∨ s'.overdue = true)
  | rotated (p q : PCB) (hc : s.current ≠ none) (hr : s.ready ++ [p] = q :: s'.ready)
      (hc' : s'.current ≠ none) (hstart : s'.timeSliceStart = s.clockValue)
      (ht : .signal .cont (q.dispatched s.clockValue) ∈ s'.trace.drop s.trace.length)

namespace Scheduler

variable {s s' : Scheduler} {p q : PCB} {es es' : List Effect}

theorem mem_drop_trace {e : Effect} (ht : s'.trace = s.trace ++ es) (he : e ∈ es) :
    e ∈ s'.trace.drop s.trace.length := by
  rw [ht, List.drop_left]
  exact he

theorem signal_mem_contEffects (event : ProcessEvent) (clk : ℤ) (sent : Bool) :
    Effect.signal .cont p ∈ contEffects event clk sent p := List.mem_cons_self

theorem reread_current (h : Reread s s') : s'.current = none ↔ s.current = none := by
  rcases h.current with heq | ⟨p, value, hc, hc'⟩
  · rw [heq]
  · simp [hc, hc']

/-- A call that finds the CPU idle dispatches the front of the queue. -/
theorem rrCall_idle (hs : Sound s) (ha : s.algorithm = .RR) (hq : 1 ≤ s.quantum)
    (hc : s.current = none) : RRCall s s.runRRAlgorithm := by
  have hcp := current_eq_none.mp hc
  rw [runRRAlgorithm_eq]
  by_cases hsize : 0 < s.rrQueue.size
  · have hfill : s.fillCpu = s.contextSwitching := if_pos ⟨hcp, hsize⟩
    have hne := (rrQueue_size_pos ha).mp hsize
    obtain ⟨hb, hall, hturn⟩ := contextSwitching_turn hs
    have hsound := hturn.switched.sound hs hall
    rw [hfill]
    cases hturn with
    | kept p hc' => simp [hc] at hc'
    | idle _ hr => exact absurd hr hne
    | replaced p _ _ _ hc' => simp [hc] at hc'
    | dispatched q _ hr hc' ht _ hcharges =>
      have hcur : s.contextSwitching.currentProcess ≠ none :=
        current_eq_none.not.mp (by simp [hc'])
      have hread := updateCurrent_reread hsound
      have htimes := updateCurrent_times s.contextSwitching
      have hbooks := moves_books (updateCurrent_moves hsound)
      have hslice : ¬ (s.contextSwitching.updateCurrent.clockValue -
            s.contextSwitching.updateCurrent.timeSliceStart ≥
          s.contextSwitching.updateCurrent.quantum ∧
          0 < s.contextSwitching.updateCurrent.rrQueue.size) := by
        rw [hbooks.clockValue, htimes.timeSliceStart, hbooks.quantum, hcharges.timeSliceStart,
          hb.clockValue, hb.quantum]
        omega
      rw [if_neg hcur, if_neg hslice]
      refine .dispatched q hc ?_ ?_ (htimes.timeSliceStart.trans hcharges.timeSliceStart) ?_
      · rw [hread.ready]
        exact hr.front ha
      · rw [ne_eq, reread_current hread]
        exact current_eq_none.not.mpr hcur
      · rw [hread.trace]
        exact mem_drop_trace ht (signal_mem_contEffects _ _ _)
  · have hfill : s.fillCpu = s := if_neg fun h => hsize h.2
    have hnil : s.ready = [] := by
      by_contra hne
      exact hsize ((rrQueue_size_pos ha).mpr hne)
    rw [hfill, if_pos hcp]
    exact .idle hc hnil hc hnil

/-- A call that finds a process on the CPU leaves it there, or puts it back and dispatches the
front of the queue. -/
theorem rrCall_busy (hs : Sound s) (ha : s.algorithm = .RR) (hc : s.current ≠ none) :
    RRCall s s.runRRAlgorithm := by
  have hcp := current_eq_none.not.mp hc
  have hfill : s.fillCpu = s := if_neg fun h => hcp h.1
  have hread := updateCurrent_reread hs
  have htimes := updateCurrent_times s
  have hmoves := updateCurrent_moves hs
  have hbooks := moves_books hmoves
  have hsound := moves_sound hs hmoves
  have halg := hbooks.algorithm.trans ha
  have hcur : s.updateCurrent.current ≠ none := (reread_current hread).not.mpr hc
  rw [runRRAlgorithm_eq, hfill, if_neg hcp]
  split
  · rename_i hslice
    have hover : s.quantum ≤ s.clockValue - s.timeSliceStart := by
      rw [← hbooks.quantum, ← hbooks.clockValue, ← htimes.timeSliceStart]
      exact hslice.1
    obtain ⟨hb, hall, hturn⟩ := contextSwitching_turn hsound
    cases hturn with
    | kept p hc1 hc' hr ht _ htimes' =>
      refine .kept hc (by simp [hc']) (hr.trans hread.ready)
        (htimes'.timeSliceStart.trans htimes.timeSliceStart) (Or.inr (Or.inr ?_))
      simp [overdue, hc', hb.quantum, hb.clockValue, htimes'.timeSliceStart, hbooks.quantum,
        hbooks.clockValue, htimes.timeSliceStart, hover]
    | idle hidle => exact absurd hidle hcur
    | dispatched _ hidle => exact absurd hidle hcur
    | replaced p q value queued hc1 hp hr hc' ht _ hcharges =>
      refine .rotated (p.preempted s.updateCurrent.clockValue value) q hc ?_ (by simp [hc']) ?_ ?_
      · rw [← hread.ready, ← hp.back halg]
        exact hr.front halg
      · rw [hcharges.timeSliceStart, hbooks.clockValue]
      · rw [hbooks.clockValue, hread.trace, List.append_assoc] at ht
        exact mem_drop_trace ht (List.mem_append_right _ (signal_mem_contEffects _ _ _))
  · rename_i hslice
    refine .kept hc hcur hread.ready htimes.timeSliceStart ?_
    rw [hbooks.clockValue, htimes.timeSliceStart, hbooks.quantum, rrQueue_size_pos halg,
      hread.ready] at hslice
    by_cases hr : s.ready = []
    · exact Or.inl hr
    · exact Or.inr (Or.inl (not_le.mp fun hle => hslice ⟨hle, hr⟩))

theorem runRR_call (hs : Sound s) (ha : s.algorithm = .RR) (hq : 1 ≤ s.quantum) :
    RRCall s s.runRRAlgorithm := by
  by_cases hc : s.current = none
  · exact rrCall_idle hs ha hq hc
  · exact rrCall_busy hs ha hc

end Scheduler

/-- How far the slice of the current process had gone at the last call. -/
def Loop.elapsed (l : Loop) : ℤ :=
  (if l.point = .runAlgorithm then l.scheduler.clockValue - 1 else l.scheduler.clockValue) -
    l.scheduler.timeSliceStart

/-- The calls until the front of the queue is dispatched, if the process on the CPU stays there. -/
def sliceLeft (quantum : ℤ) (busy : Bool) (elapsed : ℤ) : ℤ :=
  if busy then max 1 (min quantum (quantum - elapsed)) else 1

/-- The calls that a process waits for at most, with `ahead` others before it in the queue. -/
def Loop.patience (quantum : ℤ) (l : Loop) (ahead : ℕ) : ℤ :=
  ahead * quantum + sliceLeft quantum l.scheduler.current.isSome l.elapsed

/-- A step of the loop that is a call of the algorithm, and does not find the current process
overdue. -/
def Loop.serves (l l' : Loop) : Bool :=
  l.point == .runAlgorithm && l'.point == .grant && !l'.scheduler.overdue

/-- Time has passed since the last call when the algorithm is called again. -/
def Loop.TimePasses (l : Loop) : Prop :=
  match l.point with
  | .compare => l.scheduler.clockValue ≤ l.currentTime
  | .assign => l.scheduler.clockValue < l.currentTime
  | .runAlgorithm => l.scheduler.timeSliceStart < l.scheduler.clockValue
  | _ => True

/-- While a process is current, its slice has begun and its time passes. -/
structure SliceClock (l : Loop) : Prop extends Clocked l where
  begun : l.scheduler.current ≠ none → l.scheduler.timeSliceStart ≤ l.scheduler.clockValue
  passes : l.scheduler.current ≠ none → l.TimePasses

variable {l l' : Loop} {a : LoopAct} {quantum e e' : ℤ} {b b' : Bool} {p : PCB}

theorem sliceLeft_pos (quantum : ℤ) (b : Bool) (e : ℤ) : 1 ≤ sliceLeft quantum b e := by
  unfold sliceLeft
  split <;> omega

theorem sliceLeft_le (hq : 1 ≤ quantum) (b : Bool) (e : ℤ) : sliceLeft quantum b e ≤ quantum := by
  unfold sliceLeft
  split <;> omega

theorem sliceLeft_mono (hb : b' = true → b = true) (he : b' = true → e ≤ e') :
    sliceLeft quantum b' e' ≤ sliceLeft quantum b e := by
  cases b' with
  | false => exact sliceLeft_pos quantum b e
  | true =>
    rw [hb rfl]
    have hle := he rfl
    simp only [sliceLeft, if_true]
    omega

theorem isSome_iff_ne_none {o : Option PCB} : o.isSome = true ↔ o ≠ none := by
  cases o <;> simp

/-- RR ends a completion with the CPU idle and the queue as it was. -/
theorem complete_RR (hs : Sound l.scheduler) (ha : l.scheduler.algorithm = .RR) (i : Inputs) :
    (l.complete i).scheduler.current = none ∧ (l.complete i).scheduler.ready = l.scheduler.ready := by
  have hsound := (hs.feed i).withClock l.clock
  have hnever : l.scheduler.algorithm ≠ .SRTN := by simp [ha]
  show (completeCurrent { l.scheduler.feed i with clockValue := l.clock }).current = none ∧
    (completeCurrent { l.scheduler.feed i with clockValue := l.clock }).ready = l.scheduler.ready
  rcases Option.eq_none_or_eq_some l.scheduler.currentProcess with hc | ⟨process, hc⟩
  · have heq : completeCurrent { l.scheduler.feed i with clockValue := l.clock } = _ :=
      completeCurrent_none hc
    rw [heq]
    exact ⟨current_eq_none.mpr hc, rfl⟩
  · have heq : completeCurrent { l.scheduler.feed i with clockValue := l.clock } = _ :=
      completeCurrent_of_ne_SRTN hnever hc
    obtain ⟨_, -, -, hnone, hr, -⟩ := retire_spec hsound hc
    rw [heq]
    exact ⟨current_eq_none.mpr hnone, hr⟩

/-- RR takes a message in at the back of the queue, and keeps the time while a process runs. -/
theorem receive_RR (hs : Sound l.scheduler) (ha : l.scheduler.algorithm = .RR)
    (hsem : 0 < p.syncSemid) (i : Inputs) :
    ((l.scheduler.feed i).receiveMessage p).current = l.scheduler.current ∧
      ((l.scheduler.feed i).receiveMessage p).ready = l.scheduler.ready ++ [p.arrived] ∧
      ((l.scheduler.feed i).receiveMessage p).timeSliceStart = l.scheduler.timeSliceStart ∧
      (l.scheduler.current ≠ none →
        ((l.scheduler.feed i).receiveMessage p).clockValue = l.scheduler.clockValue) := by
  have hfeed := hs.feed i
  have hnever : (l.scheduler.feed i).algorithm ≠ .SRTN := by simp [Scheduler.feed, ha]
  obtain ⟨-, hb, hc, -⟩ := handleProcessArrival_spec hfeed hsem
  have hback := handleProcessArrival_back hfeed hsem ha
  obtain ⟨htimes, -⟩ := handleProcessArrival_times (l.scheduler.feed i) p
  rw [receiveMessage_of_ne_SRTN hnever]
  by_cases hnone : l.scheduler.current = none
  · rw [forgetTick_none (hc.trans hnone)]
    exact ⟨hc, hback, htimes.timeSliceStart, fun h => absurd hnone h⟩
  · rw [forgetTick_some (by rw [hc]; exact hnone)]
    exact ⟨hc, hback, htimes.timeSliceStart, fun _ => hb.clockValue⟩

/-- Refreshing the remaining time changes nothing else that counts here. -/
theorem refresh_same (hs : Sound l.scheduler) (i : Inputs) :
    ((l.scheduler.feed i).updateCurrent.current = none ↔ l.scheduler.current = none) ∧
      (l.scheduler.feed i).updateCurrent.ready = l.scheduler.ready ∧
      (l.scheduler.feed i).updateCurrent.timeSliceStart = l.scheduler.timeSliceStart ∧
      (l.scheduler.feed i).updateCurrent.clockValue = l.scheduler.clockValue := by
  have hfeed := hs.feed i
  have hread := updateCurrent_reread hfeed
  have hcur := reread_current hread
  exact ⟨hcur, hread.ready, (updateCurrent_times _).timeSliceStart, (moves_books (updateCurrent_moves hfeed)).clockValue⟩

theorem runAlgorithm_RR (ha : l.scheduler.algorithm = .RR) (i : Inputs) :
    (l.scheduler.feed i).runAlgorithm = (l.scheduler.feed i).runRRAlgorithm := by
  simp only [Scheduler.runAlgorithm, Scheduler.feed, ha]

theorem sliceClock_step (hl : SliceClock l) (hc : Configured .RR quantum l.scheduler)
    (hq : 1 ≤ quantum) (hok : SemidsValid l a) (h : LoopStep l a l') : SliceClock l' := by
  have hclocked := clocked_step hl.toClocked hok h
  have hs := hl.sound
  have ha := hc.algorithm_eq
  cases h with
  | tick => exact ⟨hclocked, hl.begun, hl.passes⟩
  | sigusr1 hp => exact ⟨hclocked, hl.begun, hl.passes⟩
  | @sigusr2 i hp =>
    obtain ⟨hnone, -⟩ := complete_RR hs ha i
    exact ⟨hclocked, fun hne => absurd hnone hne, fun hne => absurd hnone hne⟩
  | @receive p i hp =>
    obtain ⟨hcur, -, hstart, hclk⟩ := receive_RR hs ha hok i
    refine ⟨hclocked, ?_, fun _ => by simp only [Loop.TimePasses, hp]⟩
    dsimp only
    rw [hcur, hstart]
    intro hne
    rw [hclk hne]
    exact hl.begun hne
  | getClk hp => exact ⟨hclocked, hl.begun, fun _ => hl.clockValue_le⟩
  | differs hp hne =>
    refine ⟨hclocked, hl.begun, fun hcur => lt_of_le_of_ne ?_ (Ne.symm hne)⟩
    have hpasses := hl.passes hcur
    simpa only [Loop.TimePasses, hp] using hpasses
  | assign hp =>
    have hlater : l.scheduler.current ≠ none → l.scheduler.timeSliceStart < l.currentTime := by
      intro hcur
      have hpasses := hl.passes hcur
      simp only [Loop.TimePasses, hp] at hpasses
      exact (hl.begun hcur).trans_lt hpasses
    exact ⟨hclocked, fun hcur => (hlater hcur).le, hlater⟩
  | @runAlgorithm i hp =>
    refine ⟨hclocked, ?_, fun _ => trivial⟩
    have hquantum : 1 ≤ (l.scheduler.feed i).quantum := hc.quantum_eq.symm ▸ hq
    have hclk := moved_clockValue (runAlgorithm_moved (hs.feed i))
    dsimp only
    rw [hclk, runAlgorithm_RR ha]
    intro _
    cases runRR_call (hs.feed i) ha hquantum with
    | idle _ _ hc' => contradiction
    | dispatched _ _ _ _ hstart => exact hstart.le
    | kept hcur _ _ hstart =>
      rw [hstart]
      exact hl.begun hcur
    | rotated _ _ _ _ _ hstart => exact hstart.le
  | grant hp =>
    refine ⟨hclocked, ?_, fun _ => trivial⟩
    dsimp only
    rw [grantTick_eq]
    exact hl.begun
  | @refresh i hp =>
    obtain ⟨hcur, -, hstart, hclk⟩ := refresh_same hs i
    refine ⟨hclocked, ?_, fun _ => trivial⟩
    dsimp only
    rw [hstart, hclk, ne_eq, hcur]
    exact hl.begun
  | _ => exact ⟨hclocked, hl.begun, fun _ => trivial⟩

/-- The process `p` is dispatched between `s` and `s'`. -/
def Dispatched (p : PCB) (s s' : Scheduler) : Prop :=
  ∃ clk, .signal .cont (p.dispatched clk) ∈ s'.trace.drop s.trace.length

/-- Behind a part of those that were ahead `p` still waits, with `served` calls less to wait for. -/
def StillWaits (quantum : ℤ) (p : PCB) (ahead : List PCB) (l l' : Loop) (served : ℤ) : Prop :=
  ∃ ahead' behind', ahead' <:+ ahead ∧ l'.scheduler.ready = ahead' ++ p :: behind' ∧
    l'.patience quantum ahead'.length + served ≤ l.patience quantum ahead.length

variable {ahead behind : List PCB}

theorem serves_same (h : l'.point = l.point) : l.serves l' = false := by
  unfold Loop.serves
  rw [h]
  cases l.point <;> rfl

theorem serves_other (h : l.point ≠ .runAlgorithm) : l.serves l' = false := by
  simp [Loop.serves, h]

/-- A step after which the queue is as before, but for processes that join at its end. -/
theorem waits_of_earlier (hwaits : l.scheduler.ready = ahead ++ p :: behind)
    (hready : l.scheduler.ready <+: l'.scheduler.ready)
    (hcur : l'.scheduler.current ≠ none → l.scheduler.current ≠ none)
    (he : l'.scheduler.current ≠ none → l.elapsed ≤ l'.elapsed) (hserves : l.serves l' = false) :
    StillWaits quantum p ahead l l' (if l.serves l' then 1 else 0) := by
  obtain ⟨more, hmore⟩ := hready
  refine ⟨ahead, behind ++ more, List.suffix_refl _, by simp [← hmore, hwaits], ?_⟩
  have hleft : sliceLeft quantum l'.scheduler.current.isSome l'.elapsed ≤
      sliceLeft quantum l.scheduler.current.isSome l.elapsed := by
    apply sliceLeft_mono
    · rw [isSome_iff_ne_none, isSome_iff_ne_none]
      exact hcur
    · rw [isSome_iff_ne_none]
      exact he
  rw [hserves]
  simp only [Loop.patience, Bool.false_eq_true, if_false]
  omega

/-- The front of the queue is dispatched: it is `p`, or one of those ahead. -/
theorem stillWaits_of_front {q : PCB} {rest behind' : List PCB} (hq : 1 ≤ quantum)
    (hqueue : q :: rest = ahead ++ p :: behind') (hready : l'.scheduler.ready = rest)
    (ht : .signal .cont (q.dispatched l.scheduler.clockValue) ∈
      l'.scheduler.trace.drop l.scheduler.trace.length) :
    Dispatched p l.scheduler l'.scheduler ∨ StillWaits quantum p ahead l l' 1 := by
  cases ahead with
  | nil =>
    obtain ⟨rfl, -⟩ : q = p ∧ rest = behind' := by simpa using hqueue
    exact Or.inl ⟨_, ht⟩
  | cons first ahead =>
    obtain ⟨rfl, rfl⟩ : q = first ∧ rest = ahead ++ p :: behind' := by simpa using hqueue
    refine Or.inr ⟨ahead, behind', List.suffix_cons _ _, hready, ?_⟩
    have hnow := sliceLeft_pos quantum l.scheduler.current.isSome l.elapsed
    have hthen := sliceLeft_le hq l'.scheduler.current.isSome l'.elapsed
    simp only [Loop.patience, List.length_cons]
    rw [Nat.cast_add, Nat.cast_one, add_mul, one_mul]
    omega

/-- A call of the algorithm. -/
theorem waits_call (hl : SliceClock l) (hc : Configured .RR quantum l.scheduler)
    (hq : 1 ≤ quantum) (hp : l.point = .runAlgorithm) (i : Inputs)
    (hl' : l' = { l with scheduler := (l.scheduler.feed i).runAlgorithm, point := .grant })
    (hwaits : l.scheduler.ready = ahead ++ p :: behind) :
    Dispatched p l.scheduler l'.scheduler ∨
      StillWaits quantum p ahead l l' (if l.serves l' then 1 else 0) := by
  have hquantum : 1 ≤ (l.scheduler.feed i).quantum := hc.quantum_eq.symm ▸ hq
  have hclk := moved_clockValue (runAlgorithm_moved (hl.sound.feed i))
  have hcall := runRR_call (hl.sound.feed i) hc.algorithm_eq hquantum
  rw [← runAlgorithm_RR hc.algorithm_eq i] at hcall
  have hscheduler : l'.scheduler = (l.scheduler.feed i).runAlgorithm := by rw [hl']
  have hpoint : l'.point = .grant := by rw [hl']
  rw [← hscheduler] at hcall hclk
  have hserved : (if l.serves l' then 1 else 0 : ℤ) ≤ 1 := by split <;> decide
  cases hcall with
  | idle _ hr =>
    have hnil : l.scheduler.ready = [] := hr
    simp [hwaits] at hnil
  | dispatched q _ hr _ _ ht =>
    refine (stillWaits_of_front hq (hr.symm.trans hwaits) rfl ht).imp_right ?_
    rintro ⟨ahead', behind', hsuffix, hready, hle⟩
    exact ⟨ahead', behind', hsuffix, hready, by omega⟩
  | rotated p' q _ hr _ _ ht =>
    have hqueue : q :: l'.scheduler.ready = ahead ++ p :: (behind ++ [p']) := by
      rw [← hr]
      show l.scheduler.ready ++ [p'] = _
      simp [hwaits]
    refine (stillWaits_of_front hq hqueue rfl ht).imp_right ?_
    rintro ⟨ahead', behind', hsuffix, hready, hle⟩
    exact ⟨ahead', behind', hsuffix, hready, by omega⟩
  | kept hcur hcur' hr hstart hslice =>
    have hbusy : l.scheduler.current.isSome = true := isSome_iff_ne_none.mpr hcur
    have hbusy' : l'.scheduler.current.isSome = true := isSome_iff_ne_none.mpr hcur'
    have hpassed : l.scheduler.timeSliceStart < l.scheduler.clockValue := by
      have hpasses := hl.passes hcur
      simpa only [Loop.TimePasses, hp] using hpasses
    have helapsed : l'.elapsed = l.elapsed + 1 := by
      have hclk' : l'.scheduler.clockValue = l.scheduler.clockValue := hclk
      have hstart' : l'.scheduler.timeSliceStart = l.scheduler.timeSliceStart := hstart
      simp only [Loop.elapsed, hp, hpoint, hclk', hstart']
      simp
      omega
    have hnow : l.elapsed = l.scheduler.clockValue - 1 - l.scheduler.timeSliceStart := by
      simp [Loop.elapsed, hp]
    refine Or.inr ⟨ahead, behind, List.suffix_refl _, hr.trans hwaits, ?_⟩
    unfold Loop.patience
    rw [hbusy, hbusy', helapsed]
    rcases hslice with hnil | hslice | hover
    · have hnil : l.scheduler.ready = [] := hnil
      simp [hwaits] at hnil
    · have hslice : l.scheduler.clockValue - l.scheduler.timeSliceStart < quantum := by
        rw [← hc.quantum_eq]
        exact hslice
      simp only [sliceLeft, if_true]
      omega
    · have hnone : l.serves l' = false := by simp [Loop.serves, hover]
      rw [hnone]
      simp only [sliceLeft, if_true, Bool.false_eq_true, if_false]
      omega

/-- Between two calls the loop goes on with the scheduler as it is. -/
theorem stillWaits_goto (hwaits : l.scheduler.ready = ahead ++ p :: behind)
    (hp : l.point ≠ .runAlgorithm) (hp' : l'.point ≠ .runAlgorithm)
    (hs : l'.scheduler = l.scheduler) :
    StillWaits quantum p ahead l l' (if l.serves l' then 1 else 0) := by
  apply waits_of_earlier hwaits
  · rw [hs]
  · rw [hs]
    exact id
  · intro _
    simp [Loop.elapsed, hp, hp', hs]
  · exact serves_other hp

/-- A step of the loop dispatches a process that waits, or leaves it fewer calls to wait for. -/
theorem waits_step (hl : SliceClock l) (hc : Configured .RR quantum l.scheduler)
    (hq : 1 ≤ quantum) (hok : SemidsValid l a) (h : LoopStep l a l')
    (hwaits : l.scheduler.ready = ahead ++ p :: behind) :
    Dispatched p l.scheduler l'.scheduler ∨
      StillWaits quantum p ahead l l' (if l.serves l' then 1 else 0) := by
  have hs := hl.sound
  have ha := hc.algorithm_eq
  cases h with
  | @runAlgorithm i hp => exact waits_call hl hc hq hp i rfl hwaits
  | tick =>
    exact Or.inr (waits_of_earlier hwaits (List.prefix_refl _) id (fun _ => le_refl _)
      (serves_same rfl))
  | sigusr1 hp =>
    exact Or.inr (waits_of_earlier hwaits (List.prefix_refl _) id (fun _ => le_refl _)
      (serves_same rfl))
  | @sigusr2 i hp =>
    obtain ⟨hnone, hready⟩ := complete_RR hs ha i
    refine Or.inr (waits_of_earlier hwaits ?_ ?_ ?_ (serves_same rfl))
    · rw [hready]
    · exact fun hne => absurd hnone hne
    · exact fun hne => absurd hnone hne
  | @receive p i hp =>
    obtain ⟨hcur, hready, hstart, hclk⟩ := receive_RR hs ha hok i
    refine Or.inr (waits_of_earlier hwaits ?_ ?_ ?_ (serves_same rfl))
    · rw [hready]
      exact List.prefix_append _ _
    · dsimp only
      rw [hcur]
      exact id
    · intro hne
      dsimp only at hne
      rw [hcur] at hne
      simp [Loop.elapsed, hp, hstart, hclk hne]
  | assign hp =>
    refine Or.inr (waits_of_earlier hwaits (List.prefix_refl _) id (fun hne => ?_)
      (serves_other (by simp [hp])))
    have hpasses := hl.passes hne
    simp only [Loop.TimePasses, hp] at hpasses
    simp only [Loop.elapsed, hp, reduceCtorEq, if_true, if_false]
    omega
  | grant hp =>
    refine Or.inr (waits_of_earlier hwaits ?_ ?_ ?_ (serves_other (by simp [hp])))
    · simp
    · simp
    · intro _
      simp [Loop.elapsed, hp, grantTick_eq]
  | @refresh i hp =>
    obtain ⟨hcur, hready, hstart, hclk⟩ := refresh_same hs i
    refine Or.inr (waits_of_earlier hwaits ?_ ?_ ?_ (serves_other (by simp [hp])))
    · dsimp only
      rw [hready]
    · exact hcur.not.mp
    · intro _
      simp [Loop.elapsed, hp, hstart, hclk]
  | _ hp => exact Or.inr (stillWaits_goto hwaits (by simp [hp]) (by simp) rfl)

/-- The trace only grows. -/
theorem traceGrows_preserved (es : List Effect) :
    Preserved (fun s => Sound s ∧ es <+: s.trace) fun _ p => 0 < p.syncSemid where
  sound := fun _ hs => hs.1
  semid := fun _ _ hp => hp
  clock := fun _ clk hs => ⟨hs.1.withClock clk, hs.2⟩
  feed := fun _ i hs => ⟨hs.1.feed i, hs.2⟩
  generator := fun _ hs => ⟨sound_preserved.generator _ hs.1, hs.2⟩
  grant := fun s hs => by
    refine ⟨hs.1.grantTick, hs.2.trans ?_⟩
    rw [grantTick_eq]
    exact List.prefix_append _ _
  move := fun s s' hs hm => by
    obtain ⟨_, ht, -⟩ := hm.trace
    exact ⟨hm.sound, hs.2.trans (ht ▸ List.prefix_append _ _)⟩
  arrival := fun s p hs hp => by
    obtain ⟨hsound, -, -, -, -, ht⟩ := handleProcessArrival_spec hs.1 hp
    exact ⟨hsound, hs.2.trans (ht ▸ List.prefix_append _ _)⟩
  retire := fun s process hs hc => by
    obtain ⟨_, hsound, -, -, -, ht⟩ := retire_spec hs.1 hc
    exact ⟨hsound, hs.2.trans (ht ▸ List.prefix_append _ _)⟩

theorem loopStep_trace (hs : Sound l.scheduler) (hok : SemidsValid l a) (h : LoopStep l a l') :
    l.scheduler.trace <+: l'.scheduler.trace := by
  refine ((traceGrows_preserved l.scheduler.trace).step ⟨hs, List.prefix_refl _⟩ ?_ h).2
  rintro p i rfl
  exact hok

/-- The loop, with the calls of the algorithm that found no overdue process. -/
structure Watch where
  loop : Loop
  calls : ℕ

structure WatchStep (w : Watch) (a : LoopAct) (w' : Watch) : Prop where
  step : LoopStep w.loop a w'.loop
  calls : w'.calls = w.calls + if w.loop.serves w'.loop then 1 else 0

/-- The steps of a run whose messages bring valid semaphores. -/
abbrev Watched : Watch → LoopAct → Watch → Prop := Restrict (fun w => SemidsValid w.loop) WatchStep

variable {w w' u : Watch} {as bs : List LoopAct}

/-- The invariant of a watch. -/
structure OnWatch (quantum : ℤ) (w : Watch) : Prop where
  clock : SliceClock w.loop
  configured : Configured .RR quantum w.loop.scheduler

theorem onWatch_step (hq : 1 ≤ quantum) (hw : OnWatch quantum w) (h : Watched w a w') :
    OnWatch quantum w' := by
  obtain ⟨hok, hstep, -⟩ := h
  refine ⟨sliceClock_step hw.clock hw.configured hq hok hstep,
    (configured_preserved .RR quantum).step hw.configured ?_ hstep⟩
  rintro p i rfl
  exact hok

theorem onWatch_initial (quantum : ℤ) (clk : ℕ) :
    OnWatch quantum { loop := .initial .RR quantum clk, calls := 0 } where
  clock := ⟨clocked_initial .RR quantum (Int.natCast_nonneg clk), fun h => absurd rfl h,
    fun h => absurd rfl h⟩
  configured := ⟨sound_initial .RR quantum clk, rfl, rfl⟩

/-- Since `w`, where `ahead` were before it in the queue, `p` has been dispatched or has waited. -/
structure Attends (quantum : ℤ) (p : PCB) (ahead : List PCB) (w u : Watch) : Prop
    extends OnWatch quantum u where
  grows : w.loop.scheduler.trace <+: u.loop.scheduler.trace
  attends : Dispatched p w.loop.scheduler u.loop.scheduler ∨
    StillWaits quantum p ahead w.loop u.loop (u.calls - w.calls)

theorem attends_step (hq : 1 ≤ quantum) (hu : Attends quantum p ahead w u) (h : Watched u a w') :
    Attends quantum p ahead w w' := by
  have hnext := onWatch_step hq hu.toOnWatch h
  obtain ⟨hok, hstep, hcalls⟩ := h
  have hgrows := loopStep_trace hu.clock.sound hok hstep
  have hlen := hu.grows.length_le
  refine ⟨hnext, hu.grows.trans hgrows, ?_⟩
  rcases hu.attends with ⟨clk, hmem⟩ | ⟨ahead', behind', hsuffix, hready, hle⟩
  · left
    obtain ⟨more, hmore⟩ := hgrows
    refine ⟨clk, ?_⟩
    rw [← hmore, List.drop_append_of_le_length hlen]
    exact List.mem_append_left _ hmem
  · rcases waits_step hu.clock hu.configured hq hok hstep hready with
      ⟨clk, hmem⟩ | ⟨ahead'', behind'', hsuffix', hready', hle'⟩
    · exact Or.inl ⟨clk, List.drop_subset_drop_left _ hlen hmem⟩
    · refine Or.inr ⟨ahead'', behind'', hsuffix'.trans hsuffix, hready', ?_⟩
      have hcast : (w'.calls : ℤ) = u.calls + if u.loop.serves w'.loop then 1 else 0 := by
        rw [hcalls]
        split <;> simp
      omega

/-- Bounded waiting: whatever arrives, reads, ends and fails meanwhile, a process with `k` others
before it in `rr_queue` is dispatched before `run_RR_Algorithm` has been called `(k + 1) * quantum`
times, calls that wait for the signal of a finished process not counted; until then it waits behind
some of those that were before it, and nobody has got in between. -/
theorem rr_boundedWaiting (quantum : ℤ) (hq : 1 ≤ quantum) (clk : ℕ) (as bs : List LoopAct)
    (w u : Watch) (hw : Trace Watched { loop := .initial .RR quantum clk, calls := 0 } as w)
    (hu : Trace Watched w bs u) (p : PCB) (ahead behind : List PCB)
    (hqueue : w.loop.scheduler.rrQueue.toList = ahead ++ p :: behind) :
    Dispatched p w.loop.scheduler u.loop.scheduler ∨
      (u.calls : ℤ) - w.calls < (ahead.length + 1) * quantum ∧
        ∃ ahead' behind', ahead' <:+ ahead ∧
          u.loop.scheduler.rrQueue.toList = ahead' ++ p :: behind' := by
  have hon : OnWatch quantum w :=
    hw.invariant (fun _ _ _ hw h => onWatch_step hq hw h) (onWatch_initial quantum clk)
  have hready : w.loop.scheduler.ready = ahead ++ p :: behind :=
    (ready_RR hon.configured.algorithm_eq).trans hqueue
  have hstart : StillWaits quantum p ahead w.loop w.loop (w.calls - w.calls) :=
    ⟨ahead, behind, List.suffix_refl _, hready, by omega⟩
  have hend : Attends quantum p ahead w u :=
    hu.invariant (fun _ _ _ hu h => attends_step hq hu h)
      ⟨hon, List.prefix_refl _, Or.inr hstart⟩
  refine hend.attends.imp_right ?_
  rintro ⟨ahead', behind', hsuffix, hready', hle⟩
  refine ⟨?_, ahead', behind', hsuffix, ?_⟩
  · have hnow := sliceLeft_le hq w.loop.scheduler.current.isSome w.loop.elapsed
    have hthen := sliceLeft_pos quantum u.loop.scheduler.current.isSome u.loop.elapsed
    have hrest : 0 ≤ (ahead'.length : ℤ) * quantum :=
      mul_nonneg (Int.natCast_nonneg _) (by omega)
    simp only [Loop.patience] at hle
    rw [add_mul, one_mul]
    omega
  · rw [← ready_RR hend.configured.algorithm_eq]
    exact hready'

/-- One step of a watch, as a function. -/
def Watch.next (w : Watch) (a : LoopAct) : Option Watch :=
  (w.loop.next a).map fun l =>
    { loop := l, calls := w.calls + if w.loop.serves l then 1 else 0 }

theorem watchStep_of_next (h : w.next a = some w') : WatchStep w a w' := by
  obtain ⟨l, hl, rfl⟩ := Option.map_eq_some_iff.mp h
  exact ⟨loopStep_of_next hl, rfl⟩

/-- Two processes in the queue. -/
def queuedPair : List LoopAct :=
  [.advance {}, .downNb true,
    .receive { emptyFront with pid := 1, syncSemid := 1, executionTime := 3 } {},
    .receive { emptyFront with pid := 2, syncSemid := 2, executionTime := 3 } {}]

/-- One call of the algorithm. -/
def firstCall : List LoopAct := .noMessage :: List.replicate 6 (.advance {})

/-- The second of them after one call. -/
theorem rr_boundedWaiting_second : ∃ (w u : Watch) (p : PCB), u.calls = w.calls + 1 ∧
    (Dispatched p w.loop.scheduler u.loop.scheduler ∨
      (u.calls : ℤ) - w.calls < (1 + 1) * 2 ∧
        ∃ ahead' behind', ahead' <:+ w.loop.scheduler.rrQueue.toList.take 1 ∧
          u.loop.scheduler.rrQueue.toList = ahead' ++ p :: behind') := by
  obtain ⟨w, hw, htest⟩ := exists_trace_of_execute (fun _ _ _ => watchStep_of_next)
    (show (execute (fun w => SemidsValid w.loop) Watch.next
      { loop := .initial .RR 2 (0 : ℕ), calls := 0 } queuedPair).any (fun w =>
        (w.loop.scheduler.rrQueue.toList.length == 2) &&
          (execute (fun w => SemidsValid w.loop) Watch.next w firstCall).any fun u =>
            u.calls == w.calls + 1) = true by decide +kernel)
  obtain ⟨hlen, hmore⟩ := Bool.and_eq_true_iff.mp htest
  obtain ⟨u, hu, hcalls⟩ := exists_trace_of_execute (fun _ _ _ => watchStep_of_next) hmore
  obtain ⟨q, p, hqueue⟩ := List.length_eq_two.mp (beq_iff_eq.mp hlen)
  refine ⟨w, u, p, beq_iff_eq.mp hcalls, ?_⟩
  rw [hqueue]
  exact rr_boundedWaiting 2 (by decide) 0 queuedPair firstCall w u hw hu p [q] [] hqueue

end KernelSim
