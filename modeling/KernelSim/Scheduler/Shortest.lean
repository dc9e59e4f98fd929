import KernelSim.Scheduler.Conservation
import KernelSim.Scheduler.HeapOrder

/-! Under SRTN the current process is always one with the least remaining time. -/
namespace KernelSim
open Runs BinaryHeap

/-- Readings that start from a remaining time `x` and never grow or become negative. -/
def Decreasing : ℤ → List (Option ℤ) → Prop
  | _, [] => True
  | x, none :: readings => Decreasing x readings
  | x, some value :: readings => 0 ≤ value ∧ value ≤ x ∧ Decreasing value readings

instance decidableDecreasing : ∀ x readings, Decidable (Decreasing x readings)
  | _, [] => isTrue trivial
  | x, none :: readings => decidableDecreasing x readings
  | x, some value :: readings =>
    have := decidableDecreasing value readings
    inferInstanceAs (Decidable (0 ≤ value ∧ value ≤ x ∧ Decreasing value readings))

namespace Scheduler

variable {s s' : Scheduler} {p q : PCB} {process : ℕ} {x y value : ℤ}
  {readings rest : List (Option ℤ)}

theorem decreasing_mono (h : Decreasing x readings) (hxy : x ≤ y) : Decreasing y readings := by
  induction readings with
  | nil => trivial
  | cons r readings ih =>
    cases r with
    | none => exact ih h
    | some v => exact ⟨h.1, h.2.1.trans hxy, h.2.2⟩

theorem decreasing_tail (h : Decreasing x readings) : Decreasing x readings.tail := by
  cases readings with
  | nil => trivial
  | cons r readings =>
    cases r with
    | none => exact h
    | some v => exact decreasing_mono h.2.2 h.2.1

theorem reads_decreasing (h : Decreasing x readings) (hx : 0 ≤ x)
    (hr : Reads x readings value rest) : 0 ≤ value ∧ value ≤ x ∧ Decreasing value rest := by
  rcases hr with ⟨rfl, rfl | rfl⟩ | rfl
  · exact ⟨hx, le_refl _, h⟩
  · exact ⟨hx, le_refl _, decreasing_tail h⟩
  · exact h

/-- The array of `ready_Heap` is ordered by the remaining times its PCBs hold now. -/
def HeapOrdered (s : Scheduler) : Prop :=
  ∀ i, 0 < i → i < s.readyHeap.size →
    (s.pcbs (s.readyHeap.processes (parent i))).remainingTime ≤
      (s.pcbs (s.readyHeap.processes i)).remainingTime

/-- A remaining time as a process can have it. -/
def Timely (p : PCB) : Prop := 0 ≤ p.remainingTime ∧ p.remainingTime < 2 ^ 31

/-- What every SRTN state satisfies, also while an arrival has not been compared yet. -/
structure Keyed (s : Scheduler) : Prop extends Conserved s where
  algorithm : s.algorithm = .SRTN
  timely : ∀ p ∈ s.held, Timely p
  ordered : HeapOrdered s

/-- No process in the ready structure has less time left than the current one. -/
def Least (s : Scheduler) : Prop :=
  ∀ c, s.current = some c → ∀ p ∈ s.ready, c.remainingTime ≤ p.remainingTime

/-- The readings to come are readings of the current process. -/
def GoodReadings (s : Scheduler) : Prop :=
  ∀ c, s.current = some c → Decreasing c.remainingTime s.readings

instance (s : Scheduler) : Decidable (GoodReadings s) :=
  inferInstanceAs (Decidable (∀ c ∈ s.current, Decreasing c.remainingTime s.readings))

theorem keyOrdered_iff (ha : s.algorithm = .SRTN) : KeyOrdered s ↔ HeapOrdered s := by
  simp only [KeyOrdered, HeapOrdered, ha]
  exact Iff.rfl

theorem inRange_of_timely (ha : s.algorithm = .SRTN) (h : Timely p) : s.algorithm.InRange p := by
  rw [ha]
  exact h

theorem keyLeast_iff (ha : s.algorithm = .SRTN) : KeyLeast s ↔ Least s := by
  simp only [KeyLeast, Least, ha]
  exact Iff.rfl

theorem Touches.ordered (h : Touches s s' process p) (hp : process ∉ s.readyHeap.toList)
    (ha : s.algorithm = .SRTN) (ho : HeapOrdered s) : HeapOrdered s' :=
  (keyOrdered_iff (h.algorithm.trans ha)).mp (h.keyOrdered hp ((keyOrdered_iff ha).mpr ho))

theorem requeue_ordered (ha : s.algorithm = .SRTN) (ht : ∀ p ∈ s.ready, Timely p)
    (hp : Timely (s.pcbs process)) (ho : HeapOrdered s)
    (hroom : s.readyHeap.size < s.readyHeap.capacity) : HeapOrdered (s.requeue process) := by
  have halg : (s.requeue process).algorithm = .SRTN := by
    simp only [requeue, ha]
  refine (keyOrdered_iff halg).mp (requeue_keyOrdered (by simp [ha])
    (fun p hp => inRange_of_timely ha (ht p hp)) (inRange_of_timely ha hp)
    ((keyOrdered_iff ha).mpr ho) hroom)

/-- The root has the least remaining time in the heap. -/
theorem shortest_root (ha : s.algorithm = .SRTN) (ht : ∀ p ∈ s.ready, Timely p)
    (ho : HeapOrdered s) (hp : p ∈ s.ready) :
    (s.pcbs (s.readyHeap.processes 0)).remainingTime ≤ p.remainingTime := by
  have hroot := root_least (by simp [ha]) (fun p hp => inRange_of_timely ha (ht p hp))
    ((keyOrdered_iff ha).mpr ho) hp
  rwa [ha] at hroot

/-- Dispatching the root of a heap in order leaves it in order, and the root was least. -/
theorem switchToNext_least (hst : Stored s) (ha : s.algorithm = .SRTN)
    (hsem : ∀ p ∈ s.ready, 0 < p.syncSemid) (ht : ∀ p ∈ s.ready, Timely p)
    (ho : HeapOrdered s) : HeapOrdered s.switchToNext ∧ Least s.switchToNext := by
  obtain ⟨hord, hleast⟩ := switchToNext_keyLeast hst (by simp [ha]) hsem
    (fun p hp => inRange_of_timely ha (ht p hp)) ((keyOrdered_iff ha).mpr ho)
  have halg := (switchToNext_spec hst hsem).1.algorithm.trans ha
  exact ⟨(keyOrdered_iff halg).mp hord, (keyLeast_iff halg).mp hleast⟩

theorem switchToNext_timely (hst : Stored s) (hsem : ∀ p ∈ s.ready, 0 < p.syncSemid)
    (ht : ∀ p ∈ s.ready, Timely p) : ∀ p ∈ s.switchToNext.held, Timely p := by
  obtain ⟨-, -, ⟨-, hr, hc, -⟩ | ⟨q, sent, hr, hc, -⟩⟩ := switchToNext_spec hst hsem
  · simp [held_none hc, hr]
  · have hall : ∀ p ∈ q :: s.switchToNext.ready, Timely p := fun p hp => ht p (hr.mem_iff.mpr hp)
    intro p hp
    rw [held_some hc] at hp
    rcases List.mem_cons.mp hp with rfl | hp
    · have := hall q (.head _)
      unfold PCB.dispatched
      split <;> exact this
    · exact hall p (.tail _ hp)

theorem Keyed.ready_timely (hs : Keyed s) : ∀ p ∈ s.ready, Timely p :=
  fun p hp => hs.timely p (List.mem_append_right _ hp)

theorem Keyed.current_timely (hs : Keyed s) (hc : s.current = some p) : Timely p :=
  hs.timely p (by simp [held, hc])

theorem Keyed.hasRoom (hs : Keyed s) (hc : s.current = some p) :
    s.readyHeap.size < s.readyHeap.capacity := by
  have hroom := hs.room.resolve_left (by simp [hs.algorithm])
  have hlen : s.ready.length = s.readyHeap.size := by
    rw [ready_heap (by simp [hs.algorithm]), List.length_map, MinHeap.length_toList]
  rw [held_some hc, List.length_cons, hlen] at hroom
  rw [hs.capacity]
  omega

/-- A reading of the current process keeps the order and cannot make it longer. -/
theorem keyed_reading (hs : Keyed s) (hgood : GoodReadings s)
    (hcp : s.currentProcess = some process) :
    Keyed (s.updateProcessRemainingTime process) ∧
      GoodReadings (s.updateProcessRemainingTime process) ∧
      (Least s → Least (s.updateProcessRemainingTime process)) := by
  have hc := current_some hcp
  have hmove := reread_move hs.toSound hcp
  obtain ⟨v, htouch, -, hv⟩ := updateProcessRemainingTime_spec s process
  have hfresh := hs.current_notMem _ hcp
  have hr := htouch.ready hfresh
  have hc' := htouch.current hcp
  have htime := hs.current_timely hc
  obtain ⟨hv0, hvx, hrest⟩ := reads_decreasing (hgood _ hc) htime.1 hv
  refine ⟨⟨conserved_move hs.toConserved hmove, htouch.algorithm.trans hs.algorithm, ?_,
    htouch.ordered hfresh hs.algorithm hs.ordered⟩, ?_, ?_⟩
  · intro p hp
    rw [held_some hc', hr] at hp
    rcases List.mem_cons.mp hp with rfl | hp
    · exact ⟨hv0, hvx.trans_lt htime.2⟩
    · exact hs.ready_timely p hp
  · intro c hcur
    rw [hc', Option.some.injEq] at hcur
    rw [← hcur]
    exact hrest
  · intro hl c hcur p hp
    rw [hc', Option.some.injEq] at hcur
    rw [hr] at hp
    rw [← hcur]
    exact hvx.trans (hl _ hc p hp)

/-- Whatever it does, a context switch leaves a shortest process current. -/
theorem keyed_contextSwitching (hs : Keyed s) (hgood : GoodReadings s) :
    Keyed s.contextSwitching ∧ Least s.contextSwitching := by
  have hmove := contextSwitching_move hs.toSound
  have hcons := conserved_move hs.toConserved hmove
  have halg := hmove.books.algorithm.trans hs.algorithm
  cases hcp : s.currentProcess with
  | none =>
    rw [contextSwitching_none hcp] at hcons halg ⊢
    obtain ⟨ho, hl⟩ := switchToNext_least hs.toStored hs.algorithm hs.ready_semid hs.ready_timely
      hs.ordered
    exact ⟨⟨hcons, halg, switchToNext_timely hs.toStored hs.ready_semid hs.ready_timely, ho⟩, hl⟩
  | some process =>
    have hc := current_some hcp
    have htime := hs.current_timely hc
    have hfresh := hs.current_notMem _ hcp
    have hroom := hs.hasRoom hc
    have hkeyed := (keyed_reading hs hgood hcp).1
    rw [contextSwitching_some hs.toSound hcp] at hcons halg ⊢
    obtain ⟨v, v', stopped, hread, -, htouch, -, hv, rest, hv'⟩ := preempt_spec s process
    obtain ⟨hv0, hvx, hrest⟩ := reads_decreasing (hgood _ hc) htime.1 hv
    obtain ⟨hv0', hvv', -⟩ := reads_decreasing hrest hv0 hv'
    generalize s.updateProcessRemainingTime process = t at *
    split at hcons
    · -- nothing is shorter than no time at all
      rename_i hzero
      rw [if_pos hzero]
      refine ⟨hkeyed, ?_⟩
      intro c hcur p hp
      rw [hread.current hcp, Option.some.injEq] at hcur
      rw [hread.pcb] at hzero
      rw [← hcur, hzero]
      exact (hkeyed.ready_timely p hp).1
    · rename_i hne
      rw [if_neg hne] at halg ⊢
      have hready := htouch.ready hfresh
      have halg' := htouch.algorithm.trans hs.algorithm
      obtain ⟨hstored, hlt, hfresh'⟩ := htouch.insertable hs.toAllocated hcp
      have hpcb : Timely ((t.preemptProcess process).pcbs process) := by
        rw [htouch.pcb]
        exact ⟨hv0', (hvv'.trans hvx).trans_lt htime.2⟩
      have htimely : ∀ p ∈ (t.preemptProcess process).ready, Timely p := by
        rw [hready]
        exact hs.ready_timely
      obtain ⟨hqb, hqs, -, -, hqsub, -⟩ := requeue_spec hstored hlt hfresh'
      have hqsem : 0 < ((t.preemptProcess process).pcbs process).syncSemid := by
        rw [htouch.pcb]
        exact hs.current_semid (s.pcbs process) hc
      have hqmem : ∀ p ∈ ((t.preemptProcess process).requeue process).ready,
          0 < p.syncSemid ∧ Timely p := by
        intro p hp
        rcases List.mem_cons.mp (hqsub.subset hp) with rfl | hp
        · exact ⟨hqsem, hpcb⟩
        · exact ⟨hs.ready_semid p (hready ▸ hp), htimely p hp⟩
      have hord := requeue_ordered halg' htimely hpcb (htouch.ordered hfresh hs.algorithm hs.ordered)
        (by rw [htouch.readyHeap]; exact hroom)
      obtain ⟨ho, hl⟩ := switchToNext_least hqs (hqb.algorithm.trans halg')
        (fun p hp => (hqmem p hp).1) (fun p hp => (hqmem p hp).2) hord
      exact ⟨⟨hcons, halg, switchToNext_timely hqs (fun p hp => (hqmem p hp).1)
        (fun p hp => (hqmem p hp).2), ho⟩, hl⟩

theorem keyed_updateCurrent (hs : Keyed s) (hgood : GoodReadings s) :
    Keyed s.updateCurrent ∧ GoodReadings s.updateCurrent ∧ (Least s → Least s.updateCurrent) := by
  unfold updateCurrent
  split
  · exact ⟨hs, hgood, fun h => h⟩
  · rename_i process hcp
    exact keyed_reading hs hgood hcp

/-- The SRTN decision leaves a shortest process current. -/
theorem keyed_runSRTN (hs : Keyed s) (hgood : GoodReadings s) :
    Keyed s.runSRTNAlgorithm ∧ Least s.runSRTNAlgorithm := by
  obtain ⟨hk, hg, -⟩ := keyed_updateCurrent hs hgood
  have hswitch := keyed_contextSwitching hk hg
  unfold runSRTNAlgorithm
  generalize s.updateCurrent = t at *
  dsimp only
  split
  · split
    · exact hswitch
    · rename_i process hcp
      split
      · exact hswitch
      · rename_i hle
        refine ⟨hk, ?_⟩
        intro c hc p hp
        have hroot := shortest_root hk.algorithm hk.ready_timely hk.ordered hp
        have hcur := current_some hcp
        rw [hcur, Option.some.injEq] at hc
        rw [← hc]
        omega
  · rename_i hempty
    refine ⟨hk, ?_⟩
    intro c hc p hp
    have hne := (readyHeap_size_pos (s := t) (by simp [hk.algorithm])).mpr
      (List.ne_nil_of_mem hp)
    exact absurd hne hempty

/-- An arrival joins the heap; whether it is shorter than the current process is not yet known. -/
theorem keyed_arrival (hs : Keyed s) (hsem : 0 < p.syncSemid) (hroom : s.held.length < 1024)
    (h0 : 0 ≤ p.executionTime) (h1 : p.executionTime < 2 ^ 31) :
    Keyed (s.handleProcessArrival p) := by
  have ha : s.algorithm ≠ .RR := by simp [hs.algorithm]
  obtain ⟨hsound, hb, hc, hsub, -, -⟩ := handleProcessArrival_spec hs.toSound hsem
  refine ⟨conserved_arrival hs.toConserved hsem (Or.inr hroom), hb.algorithm.trans hs.algorithm, ?_, ?_⟩
  · intro q hq
    rw [held, hc] at hq
    rcases List.mem_append.mp hq with hq | hq
    · exact hs.timely q (List.mem_append_left _ hq)
    · rcases List.mem_cons.mp (hsub.subset hq) with rfl | hq
      · exact ⟨h0, h1⟩
      · exact hs.ready_timely q hq
  · have hlen : s.readyHeap.size ≤ s.held.length := by
      rw [held, ready_heap ha, List.length_append, List.length_map, MinHeap.length_toList]
      omega
    have hkey : KeyOrdered (s.handleProcessArrival p) := by
      refine arrival_keyOrdered hs.toStored ha
        (fun q hq => inRange_of_timely hs.algorithm (hs.ready_timely q hq))
        (inRange_of_timely hs.algorithm ⟨h0, h1⟩) ((keyOrdered_iff hs.algorithm).mpr hs.ordered) ?_
      rw [hs.capacity]
      omega
    exact (keyOrdered_iff (hb.algorithm.trans hs.algorithm)).mp hkey

theorem keyed_retire (hs : Keyed s) (hcp : s.currentProcess = some process) :
    Keyed (s.retire process) := by
  obtain ⟨halg, -, -⟩ := retire_heap s process
  obtain ⟨_, -, -, hnone, hr, -⟩ := retire_spec hs.toSound hcp
  refine ⟨conserved_retire hs.toConserved hcp, halg.trans hs.algorithm, ?_, ?_⟩
  · rw [held_none (current_eq_none.mpr hnone), hr]
    exact hs.ready_timely
  · exact (keyOrdered_iff (halg.trans hs.algorithm)).mp
      (retire_keyOrdered hs.toSound hcp ((keyOrdered_iff hs.algorithm).mpr hs.ordered))

theorem Keyed.withClock (hs : Keyed s) (clk : ℤ) : Keyed { s with clockValue := clk } :=
  ⟨conserved_preserved.clock _ clk hs.toConserved, hs.algorithm, hs.timely, hs.ordered⟩

theorem Keyed.feed (hs : Keyed s) (i : Inputs) : Keyed (s.feed i) :=
  ⟨conserved_preserved.feed _ i hs.toConserved, hs.algorithm, hs.timely, hs.ordered⟩

theorem Keyed.grantTick (hs : Keyed s) : Keyed s.grantTick := by
  have hcons := conserved_preserved.grant _ hs.toConserved
  rw [grantTick_eq] at hcons ⊢
  exact ⟨hcons, hs.algorithm, hs.timely, hs.ordered⟩

/-- A message: the arrival, and the comparison with the current process. -/
theorem keyed_receiveMessage (hs : Keyed s) (hgood : GoodReadings s) (hsem : 0 < p.syncSemid)
    (hroom : s.held.length < 1024) (h0 : 0 ≤ p.executionTime) (h1 : p.executionTime < 2 ^ 31) :
    Keyed (s.receiveMessage p) ∧ Least (s.receiveMessage p) := by
  have hk := keyed_arrival hs hsem hroom h0 h1
  have hg : GoodReadings (s.handleProcessArrival p) := by
    unfold GoodReadings
    rw [(handleProcessArrival_spec hs.toSound hsem).2.2.1, handleProcessArrival_readings]
    exact hgood
  have hpre : Keyed (s.handleProcessArrival p).preemptOnArrival ∧
      Least (s.handleProcessArrival p).preemptOnArrival := by
    unfold preemptOnArrival
    split
    · exact keyed_runSRTN hk hg
    · rename_i hcond
      refine ⟨hk, ?_⟩
      intro c hc
      have hnone : (s.handleProcessArrival p).currentProcess = none := by
        by_contra hne
        exact hcond ⟨hk.algorithm, hne⟩
      rw [current_eq_none.mpr hnone] at hc
      cases hc
  obtain ⟨_, heq⟩ := receiveMessage_eq s p
  rw [heq]
  exact ⟨hpre.1.withClock _, hpre.2⟩

theorem keyed_completion (hs : Keyed s) (hl : Least s) (clk : ℤ) :
    Keyed (s.handleProcessCompletion clk) ∧ Least (s.handleProcessCompletion clk) := by
  have hk := hs.withClock clk
  obtain ⟨-, heq⟩ | ⟨process, hc, heq⟩ := completion_cases s clk
  · rw [heq]
    exact ⟨hk, hl⟩
  · have hret := keyed_retire hk hc
    have hnone := current_eq_none.mpr (retire_spec hk.toSound hc).choose_spec.2.2.1
    rcases heq with heq | heq
    · rw [heq]
      refine ⟨hret, ?_⟩
      intro c hcur
      rw [hnone] at hcur
      cases hcur
    · rw [heq]
      exact keyed_contextSwitching hret (by intro c hcur; rw [hnone] at hcur; cases hcur)

end Scheduler

open Scheduler

/-- Messages with a valid semaphore, a non-negative `int` run time and room for the process, and
readings that never grow. -/
def Measurable (l : Loop) : LoopAct → Prop
  | .receive p i => 0 < p.syncSemid ∧ 0 ≤ p.executionTime ∧ p.executionTime < 2 ^ 31 ∧
      l.scheduler.held.length < 1024 ∧ GoodReadings (l.scheduler.feed i)
  | .advance i => GoodReadings (l.scheduler.feed i)
  | .sigusr2 i => GoodReadings (l.scheduler.feed i)
  | _ => True

instance : ∀ l a, Decidable (Measurable l a)
  | l, .receive p i => inferInstanceAs (Decidable (0 < p.syncSemid ∧ 0 ≤ p.executionTime ∧
      p.executionTime < 2 ^ 31 ∧ l.scheduler.held.length < 1024 ∧
      GoodReadings (l.scheduler.feed i)))
  | l, .advance i => inferInstanceAs (Decidable (GoodReadings (l.scheduler.feed i)))
  | l, .sigusr2 i => inferInstanceAs (Decidable (GoodReadings (l.scheduler.feed i)))
  | _, .tick => isTrue trivial
  | _, .sigusr1 => isTrue trivial
  | _, .downNb _ => isTrue trivial
  | _, .noMessage => isTrue trivial

/-- The current process has the least remaining time, the heap is in order, and the current
process is not in it. -/
structure ShortestFirst (s : Scheduler) : Prop where
  least : Least s
  ordered : HeapOrdered s
  outside : ∀ p, s.currentProcess = some p → p ∉ s.readyHeap.toList

theorem keyed_step {l l' : Loop} {a : LoopAct} (hk : Keyed l.scheduler) (hl : Least l.scheduler)
    (hok : Measurable l a) (h : LoopStep l a l') : Keyed l'.scheduler ∧ Least l'.scheduler := by
  cases h with
  | sigusr1 hp =>
    exact ⟨⟨conserved_preserved.generator _ hk.toConserved, hk.algorithm, hk.timely, hk.ordered⟩, hl⟩
  | sigusr2 hp => exact keyed_completion (hk.feed _) hl _
  | receive hp =>
    obtain ⟨hsem, h0, h1, hroom, hgood⟩ := hok
    exact keyed_receiveMessage (hk.feed _) hgood hsem hroom h0 h1
  | assign hp => exact ⟨hk.withClock _, hl⟩
  | @runAlgorithm i hp =>
    have halg : (l.scheduler.feed i).algorithm = .SRTN := hk.algorithm
    simp only [Scheduler.runAlgorithm, halg]
    exact keyed_runSRTN (hk.feed _) hok
  | grant hp =>
    refine ⟨hk.grantTick, ?_⟩
    rw [grantTick_eq]
    exact hl
  | refresh hp =>
    obtain ⟨hk', -, hl'⟩ := keyed_updateCurrent (hk.feed _) hok
    exact ⟨hk', hl' hl⟩
  | _ => exact ⟨hk, hl⟩

/-- In every SRTN run a shortest process is current, whatever arrives and whatever is read. -/
theorem shortestFirst_always (quantum clk : ℤ) (as : List LoopAct) :
    Always (Restrict Measurable LoopStep) (Loop.initial .SRTN quantum clk) as
      fun l => ShortestFirst l.scheduler := by
  intro pre l _ ht
  have hcons := conserved_initial .SRTN quantum clk
  have hready : (Scheduler.initial .SRTN quantum clk).ready = [] := rfl
  have hcur : (Scheduler.initial .SRTN quantum clk).current = none := current_eq_none.mpr rfl
  have hinv := ht.invariant (P := fun l => Keyed l.scheduler ∧ Least l.scheduler) ?_ ⟨⟨hcons, rfl,
    ?_, ?_⟩, ?_⟩
  · exact ⟨hinv.2, hinv.1.ordered, hinv.1.current_notMem⟩
  · rintro l a l' ⟨hk, hl⟩ ⟨hok, hstep⟩
    exact keyed_step hk hl hok hstep
  · intro p hp
    have hp : p ∈ (Scheduler.initial .SRTN quantum clk).held := hp
    rw [held_none hcur, hready] at hp
    cases hp
  · intro i hi hin
    exact absurd hin (Nat.not_lt_zero i)
  · intro c hc
    have hc : (Scheduler.initial .SRTN quantum clk).current = some c := hc
    rw [hcur] at hc
    cases hc

end KernelSim
