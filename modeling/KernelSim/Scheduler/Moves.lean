import KernelSim.Scheduler.Switching
import Mathlib.Logic.Relation

/-! The functions called by the loop and by the handler, as moves of processes on and off the CPU. -/
namespace KernelSim
open RingBuffer Relation

/-- The PCB that `handle_process_arrival` stores. -/
def PCB.arrived (p : PCB) : PCB :=
  { p with
    remainingTime := p.executionTime, state := .ready, startTime := -1, lastPremptTime := -1 }

/-- The PCB when `handle_process_completion` logs its end, having read the remaining time `value`. -/
def PCB.retired (value : ℤ) (p : PCB) : PCB :=
  { p with remainingTime := value, shmId := -1, state := .terminated }

@[simp] theorem PCB.dispatched_state (clk : ℤ) (p : PCB) : (p.dispatched clk).state = .running := by
  unfold dispatched
  split <;> rfl

@[simp] theorem PCB.dispatched_syncSemid (clk : ℤ) (p : PCB) :
    (p.dispatched clk).syncSemid = p.syncSemid := by
  unfold dispatched
  split <;> rfl

@[simp] theorem PCB.dispatched_idFromFile (clk : ℤ) (p : PCB) :
    (p.dispatched clk).idFromFile = p.idFromFile := by
  unfold dispatched
  split <;> rfl

@[simp] theorem PCB.dispatched_pid (clk : ℤ) (p : PCB) : (p.dispatched clk).pid = p.pid := by
  unfold dispatched
  split <;> rfl

@[simp] theorem PCB.dispatched_shmId (clk : ℤ) (p : PCB) : (p.dispatched clk).shmId = p.shmId := by
  unfold dispatched
  split <;> rfl

@[simp] theorem PCB.dispatched_arrivalTime (clk : ℤ) (p : PCB) :
    (p.dispatched clk).arrivalTime = p.arrivalTime := by
  unfold dispatched
  split <;> rfl

@[simp] theorem PCB.dispatched_executionTime (clk : ℤ) (p : PCB) :
    (p.dispatched clk).executionTime = p.executionTime := by
  unfold dispatched
  split <;> rfl

/-- What a context switch can show outside. -/
def Effect.OfSwitch : Effect → Prop
  | .signal _ _ => True
  | .logged event _ _ _ => event ≠ .finished
  | .progressBar _ _ => True
  | _ => False

namespace Scheduler

variable {s s' t : Scheduler} {process : ℕ} {p q : PCB} {clk : ℤ} {sent : Bool} {e : Effect}

/-- The current process gets a new remaining time, and nothing else happens. -/
structure Reread (s s' : Scheduler) : Prop where
  current : s'.current = s.current ∨
    ∃ p value, s.current = some p ∧ s'.current = some { p with remainingTime := value }
  ready : s'.ready = s.ready
  trace : s'.trace = s.trace

/-- One reading of the remaining time or one context switch. -/
structure Move (s s' : Scheduler) : Prop where
  sound : Sound s'
  books : SameBooks s s'
  outcome : Reread s s' ∨ Switched s s'

theorem Switched.sound (hs : Sound s) (ha : Allocated s') (h : Switched s s') : Sound s' := by
  have hmoved : ∀ (q : PCB) (ready : List PCB), s'.current = some (q.dispatched s.clockValue) →
      (∀ p ∈ q :: ready, p.state = .ready ∧ 0 < p.syncSemid) → s'.ready = ready → Sound s' := by
    rintro q ready hc' hall rfl
    refine ⟨ha, fun p hp => (hall p (.tail _ hp)).1, ?_, fun p hp => (hall p (.tail _ hp)).2, ?_⟩
    · intro p hp
      rw [hc', Option.some.injEq] at hp
      simp [← hp]
    · intro p hp
      rw [hc', Option.some.injEq] at hp
      simpa [← hp] using (hall q (.head _)).2
  cases h with
  | kept p hc hc' hr ht =>
    refine ⟨ha, hr ▸ hs.ready_state, ?_, hr ▸ hs.ready_semid, ?_⟩
    · intro q hq
      rw [hc', Option.some.injEq] at hq
      rw [← hq]
      exact hs.current_state p hc
    · intro q hq
      rw [hc', Option.some.injEq] at hq
      rw [← hq]
      exact hs.current_semid p hc
  | idle hc hr hc' hr' ht =>
    refine ⟨ha, ?_, ?_, ?_, ?_⟩ <;> simp [hc', hr']
  | dispatched q sent hc hr hc' ht =>
    refine hmoved q _ hc' (fun p hp => ?_) rfl
    have hp := hr.symm.subset hp
    exact ⟨hs.ready_state p hp, hs.ready_semid p hp⟩
  | replaced p q value stopped sent hc hr hroom hc' ht =>
    refine hmoved q _ hc' (fun a hp => ?_) rfl
    rcases List.mem_cons.mp (hr.subset hp) with rfl | hp
    · exact ⟨rfl, hs.current_semid p hc⟩
    · exact ⟨hs.ready_state a hp, hs.ready_semid a hp⟩

theorem ofSwitch_cont (he : e ∈ contEffects (dispatchEvent q) clk sent p) : e.OfSwitch := by
  rcases mem_contEffects he with rfl | rfl
  · trivial
  · rcases dispatchEvent_cases q with heq | heq <;> simp [Effect.OfSwitch, heq]

theorem ofSwitch_stop (he : e ∈ stopEffects clk sent p) : e.OfSwitch := by
  rcases mem_stopEffects he with rfl | rfl | rfl
  · trivial
  · exact ProcessEvent.noConfusion
  · trivial

theorem Move.trace (h : Move s s') :
    ∃ es, s'.trace = s.trace ++ es ∧ ∀ e ∈ es, e.OfSwitch := by
  rcases h.outcome with hr | hw
  · exact ⟨[], by simp [hr.trace]⟩
  · cases hw with
    | kept _ _ _ _ ht => exact ⟨[], by simp [ht]⟩
    | idle _ _ _ _ ht => exact ⟨[], by simp [ht]⟩
    | dispatched _ _ _ _ _ ht => exact ⟨_, ht, fun _ => ofSwitch_cont⟩
    | replaced _ _ _ _ _ _ _ _ _ ht =>
      rw [List.append_assoc] at ht
      refine ⟨_, ht, fun e he => ?_⟩
      rcases List.mem_append.mp he with he | he
      · exact ofSwitch_stop he
      · exact ofSwitch_cont he

theorem contextSwitching_move (hs : Sound s) : Move s s.contextSwitching := by
  obtain ⟨hb, ha, hw⟩ := contextSwitching_spec hs
  exact ⟨hw.sound hs ha, hb, Or.inr hw⟩

/-- A reading of the current process. -/
theorem updateProcessRemainingTime_reread (hs : Sound s) (hc : s.currentProcess = some process) :
    Reread s (s.updateProcessRemainingTime process) := by
  have hcur := current_some hc
  obtain ⟨v, htouch, htr, -⟩ := updateProcessRemainingTime_spec s process
  exact ⟨Or.inr ⟨_, v, hcur, htouch.current hc⟩, htouch.ready (hs.current_notMem _ hc), htr⟩

theorem updateCurrent_reread (hs : Sound s) : Reread s s.updateCurrent := by
  unfold updateCurrent
  split
  · exact ⟨Or.inl rfl, rfl, rfl⟩
  · rename_i process hc
    exact updateProcessRemainingTime_reread hs hc

theorem reread_move (hs : Sound s) (hc : s.currentProcess = some process) :
    Move s (s.updateProcessRemainingTime process) := by
  have hcur := current_some hc
  obtain ⟨v, htouch, -⟩ := updateProcessRemainingTime_spec s process
  have hr := htouch.ready (hs.current_notMem _ hc)
  have hc' := htouch.current hc
  refine ⟨⟨htouch.allocated hs.toAllocated, hr ▸ hs.ready_state, ?_, hr ▸ hs.ready_semid, ?_⟩,
    htouch.toSameBooks, Or.inl (updateProcessRemainingTime_reread hs hc)⟩
  · intro q hq
    rw [hc', Option.some.injEq] at hq
    rw [← hq]
    exact hs.current_state (s.pcbs process) hcur
  · intro q hq
    rw [hc', Option.some.injEq] at hq
    rw [← hq]
    exact hs.current_semid (s.pcbs process) hcur

theorem moves_sound (hs : Sound s) (h : ReflTransGen Move s s') : Sound s' := by
  cases h with
  | refl => exact hs
  | tail _ hm => exact hm.sound

/-- What the algorithms do with the processes: one reading, or one context switch. -/
inductive Primitive (s : Scheduler) : Scheduler → Prop
  | read {process : ℕ} (hc : s.currentProcess = some process) :
      Primitive s (s.updateProcessRemainingTime process)
  | switch : Primitive s s.contextSwitching

theorem runHPF_primitives (s : Scheduler) : ReflTransGen Primitive s s.runHPFAlgorithm := by
  unfold runHPFAlgorithm
  split
  · exact .single .switch
  · exact .refl

theorem updateCurrent_primitives (s : Scheduler) : ReflTransGen Primitive s s.updateCurrent := by
  unfold updateCurrent
  split
  · exact .refl
  · rename_i process hc
    exact .single (.read hc)

theorem runSRTN_primitives (s : Scheduler) : ReflTransGen Primitive s s.runSRTNAlgorithm := by
  have hread := updateCurrent_primitives s
  unfold runSRTNAlgorithm
  dsimp only
  split
  · split
    · exact hread.tail .switch
    · split
      · exact hread.tail .switch
      · exact hread
  · exact hread

theorem runRR_primitives (s : Scheduler) : ReflTransGen Primitive s s.runRRAlgorithm := by
  have hfirst : ReflTransGen Primitive s
      (if s.currentProcess = none ∧ 0 < s.rrQueue.size then s.contextSwitching else s) := by
    split
    · exact .single .switch
    · exact .refl
  unfold runRRAlgorithm
  dsimp only
  generalize (if s.currentProcess = none ∧ 0 < s.rrQueue.size then s.contextSwitching
    else s) = t at *
  split
  · exact hfirst
  · rename_i process hc
    split
    · exact (hfirst.tail (.read hc)).tail .switch
    · exact hfirst.tail (.read hc)

theorem runAlgorithm_primitives (s : Scheduler) : ReflTransGen Primitive s s.runAlgorithm := by
  unfold runAlgorithm
  split
  · exact runHPF_primitives s
  · exact runSRTN_primitives s
  · exact runRR_primitives s

theorem primitive_move (hs : Sound s) (h : Primitive s s') : Move s s' := by
  cases h with
  | read hc => exact reread_move hs hc
  | switch => exact contextSwitching_move hs

/-- A `Move`, with all that a context switch does. -/
structure Moved (s s' : Scheduler) : Prop where
  sound : Sound s'
  books : SameBooks s s'
  outcome : Reread s s' ∧ SameTimes s s' ∧ s'.kills = s.kills ∨ Turn s s'

theorem primitive_moved (hs : Sound s) (h : Primitive s s') : Moved s s' := by
  cases h with
  | read hc =>
    have hmove := reread_move hs hc
    exact ⟨hmove.sound, hmove.books,
      Or.inl ⟨updateProcessRemainingTime_reread hs hc, updateProcessRemainingTime_times s _⟩⟩
  | switch =>
    obtain ⟨hb, ha, hturn⟩ := contextSwitching_turn hs
    exact ⟨hturn.switched.sound hs ha, hb, Or.inr hturn⟩

theorem primitives_moved (hs : Sound s) (h : ReflTransGen Primitive s s') :
    Sound s' ∧ ReflTransGen Moved s s' := by
  induction h with
  | refl => exact ⟨hs, .refl⟩
  | tail _ hp ih =>
    have hmoved := primitive_moved ih.1 hp
    exact ⟨hmoved.sound, ih.2.tail hmoved⟩

theorem primitives_moves (hs : Sound s) (h : ReflTransGen Primitive s s') :
    ReflTransGen Move s s' := by
  induction h with
  | refl => exact .refl
  | tail _ hp ih => exact ih.tail (primitive_move (moves_sound hs ih) hp)

theorem updateCurrent_moves (hs : Sound s) : ReflTransGen Move s s.updateCurrent :=
  primitives_moves hs (updateCurrent_primitives s)

theorem runSRTN_moves (hs : Sound s) : ReflTransGen Move s s.runSRTNAlgorithm :=
  primitives_moves hs (runSRTN_primitives s)

theorem runAlgorithm_moves (hs : Sound s) : ReflTransGen Move s s.runAlgorithm :=
  primitives_moves hs (runAlgorithm_primitives s)

theorem moves_trace (h : ReflTransGen Move s s') :
    ∃ es, s'.trace = s.trace ++ es ∧ ∀ e ∈ es, e.OfSwitch := by
  induction h with
  | refl => exact ⟨[], by simp⟩
  | tail _ hm ih =>
    obtain ⟨es, ht, hes⟩ := ih
    obtain ⟨fs, ht', hfs⟩ := hm.trace
    refine ⟨es ++ fs, by rw [ht', ht, List.append_assoc], fun e he => ?_⟩
    exact (List.mem_append.mp he).elim (hes e) (hfs e)

/-- A projection of the effects that sees nothing of a switch. -/
theorem filterMap_ofSwitch {β : Type} {f : Effect → Option β} {es : List Effect}
    (hf : ∀ e : Effect, e.OfSwitch → f e = none) (hes : ∀ e ∈ es, e.OfSwitch) :
    es.filterMap f = [] :=
  List.filterMap_eq_nil_iff.mpr fun e he => hf e (hes e he)

theorem moves_books (h : ReflTransGen Move s s') : SameBooks s s' := by
  induction h with
  | refl => exact .refl s
  | tail _ hm ih => exact ih.trans hm.books

/-- A process on the CPU is only ever replaced by another. -/
theorem moves_current (h : ReflTransGen Move s s') (hc : s.current ≠ none) : s'.current ≠ none := by
  induction h with
  | refl => exact hc
  | tail _ hm ih =>
    rcases hm.outcome with hr | hw
    · rcases hr.current with heq | ⟨p, v, -, heq⟩
      · rwa [heq]
      · simp [heq]
    · cases hw with
      | kept _ _ hc' => simp [hc']
      | idle hc => exact absurd hc ih
      | dispatched _ _ _ _ hc' => simp [hc']
      | replaced _ _ _ _ _ _ _ _ hc' => simp [hc']

theorem contextSwitching_current (hs : Sound s) (hr : s.ready ≠ []) :
    s.contextSwitching.current ≠ none := by
  obtain ⟨-, -, hw⟩ := contextSwitching_spec hs
  cases hw with
  | kept _ _ hc' => simp [hc']
  | idle _ hnil => exact absurd hnil hr
  | dispatched _ _ _ _ hc' => simp [hc']
  | replaced _ _ _ _ _ _ _ _ hc' => simp [hc']

theorem rrQueue_size_pos (ha : s.algorithm = .RR) : 0 < s.rrQueue.size ↔ s.ready ≠ [] := by
  rw [ready_RR ha, ne_eq, Ring.toList_eq_nil]
  omega

theorem readyHeap_size_pos (ha : s.algorithm ≠ .RR) : 0 < s.readyHeap.size ↔ s.ready ≠ [] := by
  rw [ready_heap ha, ne_eq, List.map_eq_nil_iff, ← List.length_eq_zero_iff, MinHeap.length_toList]
  omega

theorem current_eq_none : s.current = none ↔ s.currentProcess = none := by
  simp [current]

/-- The algorithm never leaves the CPU idle while a process is ready. -/
theorem runAlgorithm_current (hs : Sound s) (hwork : s.ready ≠ [] ∨ s.current ≠ none) :
    s.runAlgorithm.current ≠ none := by
  by_cases hc : s.current = none
  · have hr := hwork.resolve_right (not_not.mpr hc)
    have hcp := current_eq_none.mp hc
    have hswitch := contextSwitching_current hs hr
    unfold runAlgorithm
    split
    · rename_i ha
      have hpos := (readyHeap_size_pos (by simp [ha])).mpr hr
      rw [runHPFAlgorithm, if_pos ⟨hcp, hpos⟩]
      exact hswitch
    · rename_i ha
      have hpos := (readyHeap_size_pos (by simp [ha])).mpr hr
      simp only [runSRTNAlgorithm, updateCurrent, hcp, hpos, if_true]
      exact hswitch
    · rename_i ha
      have hpos := (rrQueue_size_pos ha).mpr hr
      have hmove := contextSwitching_move hs
      simp only [runRRAlgorithm, hcp, hpos, true_and, if_true]
      split
      · rename_i hnone
        exact absurd (current_eq_none.mpr hnone) hswitch
      · rename_i process hsome
        have hread := reread_move hmove.sound hsome
        have hcur := moves_current (.single hread) hswitch
        split
        · exact moves_current (.single (contextSwitching_move hread.sound)) hcur
        · exact hcur
  · exact moves_current (runAlgorithm_moves hs) hc

/-- With valid semaphores nothing is restored. -/
theorem restoreSemid_eq {q : PCBQueue} (h : ∀ p ∈ q.toList, 0 < p.syncSemid) (id backup : ℤ) :
    restoreSemid q id backup = q := by
  unfold restoreSemid
  split
  · rename_i i hi
    have hlt : i < q.size := List.mem_range.mp (List.mem_of_find?_eq_some hi)
    have hpos := h _ (List.mem_map.mpr ⟨i, List.mem_range.mpr hlt, rfl⟩)
    rw [if_neg (by omega)]
  · rfl

/-- The state in which an arrival has been counted and its PCB allocated. -/
def storeArrival (s : Scheduler) (p : PCB) : Scheduler :=
  { s with
    processCount := s.processCount + 1
    trace := s.trace ++ [.received { p with remainingTime := p.executionTime }]
    pcbs := Function.update s.pcbs s.nextPcb p.arrived
    nextPcb := s.nextPcb + 1 }

/-- In the heap algorithms the new PCB is inserted like a preempted one. -/
theorem handleProcessArrival_heap (ha : s.algorithm ≠ .RR) :
    s.handleProcessArrival p = (s.storeArrival p).requeue s.nextPcb := by
  cases h : s.algorithm with
  | RR => contradiction
  | HPF | SRTN =>
    simp only [handleProcessArrival, requeue, storeArrival, emit, mallocPcb, h]
    rfl

theorem storeArrival_pcbs {a : ℕ} (h : a < s.nextPcb) : (s.storeArrival p).pcbs a = s.pcbs a :=
  Function.update_of_ne (by omega) _ _

theorem storeArrival_new : (s.storeArrival p).pcbs s.nextPcb = p.arrived :=
  Function.update_self _ _ _

theorem storeArrival_stored (hs : Stored s) : Stored (s.storeArrival p) :=
  ⟨hs.queue, hs.capacity, hs.nodup, fun a ha => Nat.lt_succ_of_lt (hs.heap_lt a ha)⟩

theorem storeArrival_ready (hs : Stored s) : (s.storeArrival p).ready = s.ready :=
  ready_mono rfl rfl rfl fun a ha => storeArrival_pcbs (hs.heap_lt a ha)

theorem handleProcessArrival_books (s : Scheduler) (p : PCB) :
    SameBooks { s with processCount := s.processCount + 1 } (s.handleProcessArrival p) := by
  unfold handleProcessArrival
  dsimp only
  split <;> exact ⟨rfl, rfl, rfl, rfl, rfl, rfl, rfl, rfl⟩

theorem handleProcessArrival_trace (s : Scheduler) (p : PCB) :
    (s.handleProcessArrival p).trace =
      s.trace ++ [.received { p with remainingTime := p.executionTime }] := by
  unfold handleProcessArrival
  dsimp only
  split <;> rfl

/-- What is ready, an arrival included, is marked ready and has a semaphore. -/
theorem Sound.fields_of_subperm (hs : Sound s) (hsem : 0 < p.syncSemid) {l : List PCB}
    (hl : l.Subperm (p.arrived :: s.ready)) : ∀ a ∈ l, a.state = .ready ∧ 0 < a.syncSemid := by
  intro a ha
  rcases List.mem_cons.mp (hl.subset ha) with rfl | ha
  · exact ⟨rfl, hsem⟩
  · exact ⟨hs.ready_state a ha, hs.ready_semid a ha⟩

/-- In round robin the arrival is queued, and no semaphore id is in need of repair. -/
theorem handleProcessArrival_queue (hs : Sound s) (hsem : 0 < p.syncSemid)
    (ha : s.algorithm = .RR) :
    s.handleProcessArrival p =
      { s with
        processCount := s.processCount + 1
        trace := s.trace ++ [.received { p with remainingTime := p.executionTime }]
        rrQueue := queueEnqueue s.rrQueue p.arrived } := by
  have hperm : (queueEnqueue s.rrQueue p.arrived).toList.Perm (p.arrived :: s.ready) := by
    rw [(queueEnqueue_spec hs.queue p.arrived).2, ready_RR ha]
    exact List.perm_append_singleton _ _
  have hsemids := fun a ha => (hs.fields_of_subperm hsem hperm.subperm a ha).2
  rw [← restoreSemid_eq hsemids p.idFromFile p.syncSemid]
  simp only [handleProcessArrival, emit, ha]
  rfl

/-- In round robin an arrival goes to the end of the queue. -/
theorem handleProcessArrival_back (hs : Sound s) (hsem : 0 < p.syncSemid)
    (ha : s.algorithm = .RR) : (s.handleProcessArrival p).ready = s.ready ++ [p.arrived] := by
  have halg : (s.handleProcessArrival p).algorithm = .RR :=
    (handleProcessArrival_books s p).algorithm.trans ha
  rw [ready_RR halg, handleProcessArrival_queue hs hsem ha, ready_RR ha]
  exact (queueEnqueue_spec hs.queue p.arrived).2

theorem handleProcessArrival_queue_sound (hs : Sound s) (hsem : 0 < p.syncSemid)
    (ha : s.algorithm = .RR) : Sound (s.handleProcessArrival p) := by
  have hready : (s.handleProcessArrival p).ready.Subperm (p.arrived :: s.ready) := by
    rw [handleProcessArrival_back hs hsem ha]
    exact (List.perm_append_singleton _ _).subperm
  have hfields := hs.fields_of_subperm hsem hready
  refine ⟨?_, fun a ha => (hfields a ha).1, ?_, fun a ha => (hfields a ha).2, ?_⟩
  · rw [handleProcessArrival_queue hs hsem ha]
    exact ⟨⟨(queueEnqueue_spec hs.queue p.arrived).1, hs.capacity, hs.nodup, hs.heap_lt⟩,
      hs.current_lt, hs.current_notMem⟩
  · rw [handleProcessArrival_queue hs hsem ha]
    exact hs.current_state
  · rw [handleProcessArrival_queue hs hsem ha]
    exact hs.current_semid

/-- In the heap algorithms it goes into the heap, if there is room. -/
theorem handleProcessArrival_heap_spec (hs : Sound s) (hsem : 0 < p.syncSemid)
    (ha : s.algorithm ≠ .RR) :
    Sound (s.handleProcessArrival p) ∧ (s.handleProcessArrival p).current = s.current ∧
      (s.handleProcessArrival p).ready.Subperm (p.arrived :: s.ready) ∧
      (HasRoom s → (s.handleProcessArrival p).ready.Perm (p.arrived :: s.ready)) := by
  have hfresh : s.nextPcb ∉ s.readyHeap.toList := fun h => Nat.lt_irrefl _ (hs.heap_lt _ h)
  have hready := storeArrival_ready (p := p) hs.toStored
  have hroom : HasRoom s → HasRoom (s.storeArrival p) := HasRoom.congr rfl hready
  obtain ⟨-, hst, -, -, hsub, hperm⟩ := requeue_spec (storeArrival_stored (p := p) hs.toStored)
    (show s.nextPcb < (s.storeArrival p).nextPcb from Nat.lt_succ_self _) hfresh
  obtain ⟨hpcbs, hnext, hcp⟩ := requeue_frame (s.storeArrival p) s.nextPcb
  rw [storeArrival_new, hready] at hsub hperm
  have hfields := hs.fields_of_subperm hsem hsub
  have hcur : ((s.storeArrival p).requeue s.nextPcb).current = s.current := by
    rw [current, hcp, hpcbs, current]
    cases hc : s.currentProcess with
    | none => exact congrArg (Option.map _) hc
    | some a =>
      exact (congrArg (Option.map _) hc).trans
        (congrArg some (storeArrival_pcbs (hs.current_lt a hc)))
  rw [handleProcessArrival_heap ha]
  refine ⟨⟨⟨hst, ?_, ?_⟩, fun a ha => (hfields a ha).1, ?_, fun a ha => (hfields a ha).2, ?_⟩,
    hcur, hsub, fun h => hperm (hroom h)⟩
  · intro a hc
    rw [hnext]
    exact Nat.lt_succ_of_lt (hs.current_lt a (hcp ▸ hc))
  · intro a hc hin
    have hc : s.currentProcess = some a := hcp ▸ hc
    rcases requeue_mem hin with rfl | hin
    · exact Nat.lt_irrefl _ (hs.current_lt _ hc)
    · exact hs.current_notMem a hc hin
  · rw [hcur]
    exact hs.current_state
  · rw [hcur]
    exact hs.current_semid

/-- An arrival is counted and joins the ready structure, unless the heap is full. -/
theorem handleProcessArrival_spec (hs : Sound s) (hsem : 0 < p.syncSemid) :
    Sound (s.handleProcessArrival p) ∧
      SameBooks { s with processCount := s.processCount + 1 } (s.handleProcessArrival p) ∧
      (s.handleProcessArrival p).current = s.current ∧
      (s.handleProcessArrival p).ready.Subperm (p.arrived :: s.ready) ∧
      (HasRoom s → (s.handleProcessArrival p).ready.Perm (p.arrived :: s.ready)) ∧
      (s.handleProcessArrival p).trace =
        s.trace ++ [.received { p with remainingTime := p.executionTime }] := by
  have hbooks := handleProcessArrival_books s p
  have htrace := handleProcessArrival_trace s p
  by_cases ha : s.algorithm = .RR
  · have hperm : (s.handleProcessArrival p).ready.Perm (p.arrived :: s.ready) := by
      rw [handleProcessArrival_back hs hsem ha]
      exact List.perm_append_singleton _ _
    have hcur : (s.handleProcessArrival p).current = s.current := by
      rw [handleProcessArrival_queue hs hsem ha]
      rfl
    exact ⟨handleProcessArrival_queue_sound hs hsem ha, hbooks, hcur, hperm.subperm,
      fun _ => hperm, htrace⟩
  · obtain ⟨hsound, hcur, hsub, hperm⟩ := handleProcessArrival_heap_spec hs hsem ha
    exact ⟨hsound, hbooks, hcur, hsub, hperm, htrace⟩

theorem handleProcessArrival_times (s : Scheduler) (p : PCB) :
    SameTimes s (s.handleProcessArrival p) ∧ (s.handleProcessArrival p).kills = s.kills := by
  unfold handleProcessArrival
  dsimp only
  split <;> exact ⟨⟨rfl, rfl, rfl⟩, rfl⟩

theorem handleProcessArrival_readings (s : Scheduler) (p : PCB) :
    (s.handleProcessArrival p).readings = s.readings := by
  unfold handleProcessArrival
  dsimp only
  split <;> rfl

theorem removeSharedMemory_spec (s : Scheduler) (process : ℕ) :
    Touches s (s.removeSharedMemory process) process { s.pcbs process with shmId := -1 } ∧
      (s.removeSharedMemory process).trace = s.trace ++
        if (s.pcbs process).shmId ≠ -1 then [.removeShm (s.pcbs process)] else [] := by
  unfold removeSharedMemory
  split
  · exact ⟨touches_of rfl rfl, rfl⟩
  · rename_i h
    have hsame : { s.pcbs process with shmId := -1 } = s.pcbs process := by
      rw [← not_not.mp h]
    rw [hsame]
    exact ⟨touches_of (Function.update_eq_self process s.pcbs).symm rfl, (List.append_nil _).symm⟩

/-- What the end of the process `p` at time `clk` shows outside, its remaining time being `value`. -/
def retireEffects (clk : ℤ) (finished count : ℕ) (value : ℤ) (p : PCB) : List Effect :=
  (if p.shmId ≠ -1 then [.removeShm { p with remainingTime := value }] else []) ++
    [.logged .finished clk (p.retired value) clk, .progressBar finished count,
      .removeSem (p.retired value)]

theorem recordCompletion_spec (ha : Allocated s) (hp : process ∉ s.readyHeap.toList) :
    Allocated (s.recordCompletion process) ∧
      SameBooks { s with
        finishedProcesses := s.finishedProcesses + 1
        turnaroundTimes := s.turnaroundTimes.set s.finishedProcesses
          (s.clockValue - (s.pcbs process).arrivalTime)
        waitTimes := s.waitTimes.set s.finishedProcesses
          (s.clockValue - (s.pcbs process).arrivalTime - (s.pcbs process).executionTime) }
        (s.recordCompletion process) ∧
      (s.recordCompletion process).currentProcess = none ∧
      (s.recordCompletion process).ready = s.ready ∧
      (s.recordCompletion process).trace = s.trace ++
        [.logged .finished s.clockValue { s.pcbs process with state := .terminated } s.clockValue,
          .progressBar ↑(s.finishedProcesses + 1) s.processCount,
          .removeSem { s.pcbs process with state := .terminated }] := by
  refine ⟨⟨⟨ha.queue, ha.capacity, ha.nodup, ha.heap_lt⟩, nofun, nofun⟩, ?_, rfl, ?_, ?_⟩
  · constructor <;> simp [recordCompletion, writePcb, emit]
  · refine ready_mono rfl rfl rfl fun a hin => ?_
    refine Function.update_of_ne ?_ _ _
    rintro rfl
    exact hp hin
  · simp [recordCompletion, writePcb, emit, logProcessEvent]

/-- The current process leaves the CPU for good. -/
theorem retire_spec (hs : Sound s) (hcp : s.currentProcess = some process) :
    ∃ value, Sound (s.retire process) ∧
      SameBooks { s with
        finishedProcesses := s.finishedProcesses + 1
        turnaroundTimes := s.turnaroundTimes.set s.finishedProcesses
          (s.clockValue - (s.pcbs process).arrivalTime)
        waitTimes := s.waitTimes.set s.finishedProcesses
          (s.clockValue - (s.pcbs process).arrivalTime - (s.pcbs process).executionTime) }
        (s.retire process) ∧
      (s.retire process).currentProcess = none ∧ (s.retire process).ready = s.ready ∧
      (s.retire process).trace = s.trace ++ retireEffects s.clockValue (s.finishedProcesses + 1)
        s.processCount value (s.pcbs process) := by
  obtain ⟨value, hread, hrt, -⟩ := updateProcessRemainingTime_spec s process
  obtain ⟨hremove, hmt⟩ := removeSharedMemory_spec (s.updateProcessRemainingTime process) process
  have htouch := hread.trans hremove
  have hheap := hs.current_notMem _ hcp
  have hready := htouch.ready hheap
  have hpcb := htouch.pcb
  rw [hread.pcb] at hmt hpcb htouch
  obtain ⟨ha, hb, hnone, hr, ht⟩ := recordCompletion_spec (htouch.allocated hs.toAllocated)
    (by rw [htouch.readyHeap]; exact hheap)
  rw [hpcb, htouch.finishedProcesses, htouch.turnaroundTimes, htouch.waitTimes,
    htouch.clockValue] at hb
  rw [hready] at hr
  rw [hpcb, htouch.clockValue, htouch.finishedProcesses, htouch.processCount, hmt, hrt] at ht
  have hcur : (s.retire process).current = none := current_eq_none.mpr hnone
  refine ⟨value, ⟨ha, ?_, ?_, ?_, ?_⟩, ?_, hnone, hr, ?_⟩
  · exact fun p hp => hs.ready_state p (hr ▸ hp)
  · simp [hcur]
  · exact fun p hp => hs.ready_semid p (hr ▸ hp)
  · simp [hcur]
  · exact ⟨hb.1.trans htouch.algorithm, hb.2.trans htouch.quantum,
      hb.3.trans htouch.processCount, hb.4, hb.5.trans htouch.generatorFinished, hb.6, hb.7,
      hb.8⟩
  · rw [retire, ht, List.append_assoc]
    rfl

theorem retire_times (s : Scheduler) (process : ℕ) :
    SameTimes s (s.retire process) ∧ (s.retire process).kills = s.kills := by
  obtain ⟨htimes, hkills⟩ := updateProcessRemainingTime_times s process
  have hremove : ∀ t : Scheduler, SameTimes t (t.removeSharedMemory process) ∧
      (t.removeSharedMemory process).kills = t.kills := by
    intro t
    unfold removeSharedMemory
    split <;> exact ⟨⟨rfl, rfl, rfl⟩, rfl⟩
  have hrecord : SameTimes ((s.updateProcessRemainingTime process).removeSharedMemory process)
      (s.retire process) := ⟨rfl, rfl, rfl⟩
  obtain ⟨htimes', hkills'⟩ := hremove (s.updateProcessRemainingTime process)
  exact ⟨(htimes.trans htimes').trans hrecord, hkills'.trans hkills⟩

/-- The heap and the PCBs in it are as before. -/
theorem retire_heap (s : Scheduler) (process : ℕ) :
    (s.retire process).algorithm = s.algorithm ∧ (s.retire process).readyHeap = s.readyHeap ∧
      ∀ a, a ≠ process → (s.retire process).pcbs a = s.pcbs a := by
  obtain ⟨value, hread, -, -⟩ := updateProcessRemainingTime_spec s process
  obtain ⟨hremove, -⟩ := removeSharedMemory_spec (s.updateProcessRemainingTime process) process
  have htouch := hread.trans hremove
  refine ⟨htouch.algorithm, htouch.readyHeap, ?_⟩
  intro a ha
  have hrecord : (s.retire process).pcbs a =
      ((s.updateProcessRemainingTime process).removeSharedMemory process).pcbs a :=
    Function.update_of_ne ha _ _
  rw [hrecord, htouch.pcbs, Function.update_of_ne ha]

theorem moved_sound (hs : Sound s) (h : ReflTransGen Moved s s') : Sound s' := by
  cases h with
  | refl => exact hs
  | tail _ hm => exact hm.sound

theorem moved_moves (h : ReflTransGen Moved s s') : ReflTransGen Move s s' := by
  induction h with
  | refl => exact .refl
  | tail _ hm ih => exact ih.tail ⟨hm.sound, hm.books, hm.outcome.imp And.left Turn.switched⟩

theorem runAlgorithm_moved (hs : Sound s) : ReflTransGen Moved s s.runAlgorithm :=
  (primitives_moved hs (runAlgorithm_primitives s)).2

theorem updateCurrent_moved (hs : Sound s) : ReflTransGen Moved s s.updateCurrent :=
  (primitives_moved hs (updateCurrent_primitives s)).2

/-- What reception does between storing a message and forgetting the tick. -/
theorem preemptOnArrival_moved (hs : Sound s) :
    ReflTransGen Moved s s.preemptOnArrival ∧
      (s.preemptOnArrival = s ∨
        s.algorithm = .SRTN ∧ s.current ≠ none ∧ s.preemptOnArrival.current ≠ none) := by
  unfold preemptOnArrival
  split
  · rename_i hsrtn
    have hrun := (primitives_moved hs (runSRTN_primitives s)).2
    have hcur : s.current ≠ none := fun hnone => hsrtn.2 (current_eq_none.mp hnone)
    exact ⟨hrun, Or.inr ⟨hsrtn.1, hcur, moves_current (moved_moves hrun) hcur⟩⟩
  · exact ⟨.refl, Or.inl rfl⟩

theorem forgetTick_none (hc : s.current = none) : s.forgetTick = { s with clockValue := -1 } :=
  if_pos (current_eq_none.mp hc)

theorem forgetTick_some (hc : s.current ≠ none) : s.forgetTick = s :=
  if_neg fun hnone => hc (current_eq_none.mpr hnone)

theorem forgetTick_eq (s : Scheduler) : ∃ clk, s.forgetTick = { s with clockValue := clk } := by
  unfold forgetTick
  split
  · exact ⟨-1, rfl⟩
  · exact ⟨s.clockValue, rfl⟩

/-- Reception ends in a state that differs from the one the comparison left in `clockValue` at
most. -/
theorem receiveMessage_eq (s : Scheduler) (p : PCB) :
    ∃ clk, s.receiveMessage p =
      { (s.handleProcessArrival p).preemptOnArrival with clockValue := clk } :=
  forgetTick_eq _

/-- What the handler does once it has read the clock. -/
theorem completeCurrent_moved (hs : Sound s) :
    s.current = none ∧ s.completeCurrent = s ∨
      ∃ process, s.currentProcess = some process ∧
        (s.completeCurrent = s.retire process ∨
          s.algorithm = .SRTN ∧ Moved (s.retire process) s.completeCurrent) := by
  cases hc : s.currentProcess with
  | none =>
    left
    refine ⟨current_eq_none.mpr hc, ?_⟩
    simp only [completeCurrent, hc]
  | some process =>
    right
    refine ⟨process, rfl, ?_⟩
    obtain ⟨value, hsound, hb, -⟩ := retire_spec hs hc
    simp only [completeCurrent, hc]
    split
    · rename_i hsrtn
      exact Or.inr ⟨hb.algorithm.symm.trans hsrtn.2, primitive_moved hsound .switch⟩
    · exact Or.inl rfl

end Scheduler

end KernelSim
