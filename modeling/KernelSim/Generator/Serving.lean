import KernelSim.Generator.Intake
import KernelSim.Library.Fifo
import KernelSim.Memory.Refusal

/-! One call of `serve_waiting_queue`: who is sent, who waits on, and that none of these fits. -/
namespace KernelSim
open Runs Fifo

/-- What `serve_waiting_queue` reads and writes, and the messages it has sent. -/
structure ServeState where
  segment : Segment
  waitingQueue : PCBQueue
  tempQueue : PCBQueue
  sent : List PCB

/-- What `createProcess` writes into a PCB: the pid and the shared memory of a new child. -/
def PCB.create (p : PCB) (child : ℤ × ℤ) : PCB := { p with pid := child.1, shmId := child.2 }

/-- The body of the first loop; `children` are the pids and shared memories of the children in the
order of their creation. `none` when `allocate_memory` never returns. -/
def serveRound (children : ℕ → ℤ × ℤ) (time : ℤ) (s : ServeState) : Option ServeState := do
  let waitingPcb := queueFront s.waitingQueue
  let waitingQueue := queueDequeue s.waitingQueue
  let (segment, allocated) ←
    allocateMemory s.segment waitingPcb.idFromFile waitingPcb.memorySize time
  if allocated then
    let waitingPcb := waitingPcb.create (children s.sent.length)
    let segment := updateId segment waitingPcb.idFromFile waitingPcb.pid
    return { s with segment, waitingQueue, sent := s.sent ++ [waitingPcb] }
  else
    return { s with segment, waitingQueue, tempQueue := queueEnqueue s.tempQueue waitingPcb }

/-- `while (!queue_empty(&waiting_queue))`, or `none` when the fuel is spent first. -/
def serveLoop (children : ℕ → ℤ × ℤ) (time : ℤ) : ℕ → ServeState → Option ServeState
  | 0, s => if queueEmpty s.waitingQueue then some s else none
  | fuel + 1, s =>
    if queueEmpty s.waitingQueue then some s
    else (serveRound children time s).bind (serveLoop children time fuel)

/-- The body of the second loop. -/
def restoreRound (s : ServeState) : ServeState :=
  { s with
    waitingQueue := queueEnqueue s.waitingQueue (queueFront s.tempQueue)
    tempQueue := queueDequeue s.tempQueue }

/-- `while (!queue_empty(&temp_queue))`, or `none` when the fuel is spent first. -/
def restoreLoop : ℕ → ServeState → Option ServeState
  | 0, s => if queueEmpty s.tempQueue then some s else none
  | fuel + 1, s => if queueEmpty s.tempQueue then some s else restoreLoop fuel (restoreRound s)

/-- A round of either loop takes one process out of the queue it drains, which bounds the rounds. -/
def serveWaitingQueue (children : ℕ → ℤ × ℤ) (time : ℤ) (seg : Segment) (q : PCBQueue) :
    Option ServeState := do
  let s ← serveLoop children time q.size
    { segment := seg, waitingQueue := q, tempQueue := queueInit 100 emptyFront, sent := [] }
  restoreLoop s.tempQueue.size s

/-- The messages for processes admitted one after another. -/
def created (children : ℕ → ℤ × ℤ) (served : List PCB) : List PCB :=
  served.mapIdx fun n p => p.create (children n)

/-- The generator in its loop while `serve_waiting_queue` is called. -/
def Intake.during (g : Intake) (point : IntakePoint) (s : ServeState) : Intake :=
  { g with
    waitingQueue := s.waitingQueue
    tempQueue := s.tempQueue
    sent := g.sent ++ s.sent
    point }

/-- After some rounds of the first loop on the queue `old`. -/
structure PassInv (children : ℕ → ℤ × ℤ) (old served : List PCB) (s : ServeState) : Prop where
  stampable : Stampable s.segment
  waiting : s.waitingQueue.Valid
  temp : s.tempQueue.Valid
  sent : s.sent = created children served
  split : ∃ done, old = done ++ s.waitingQueue.toList ∧ Splits served s.tempQueue.toList done
  refused : ∀ p ∈ s.tempQueue.toList, Refuses s.segment p.memorySize

variable {children : ℕ → ℤ × ℤ} {time : ℤ} {seg seg' : Segment} {q : PCBQueue}
  {s s' : ServeState} {old served : List PCB} {fuel : ℕ}

/-- A round sends the head of the queue, or passes it over. -/
theorem serveRound_cases (hw : WellFormed s.segment) (h : serveRound children time s = some s') :
    (∃ seg₁ a, findBlock s.segment (queueFront s.waitingQueue).memorySize = some (seg₁, some a) ∧
      s' = { s with
        segment := updateId (reserveBlock seg₁ a (queueFront s.waitingQueue).idFromFile
          (queueFront s.waitingQueue).memorySize time) (queueFront s.waitingQueue).idFromFile
          (children s.sent.length).1
        waitingQueue := queueDequeue s.waitingQueue
        sent := s.sent ++ [(queueFront s.waitingQueue).create (children s.sent.length)] }) ∨
    ∃ seg₁, findBlock s.segment (queueFront s.waitingQueue).memorySize = some (seg₁, none) ∧
      s' = { s with
        segment := seg₁
        waitingQueue := queueDequeue s.waitingQueue
        tempQueue := queueEnqueue s.tempQueue (queueFront s.waitingQueue) } := by
  simp only [serveRound, Option.bind_eq_bind, Option.bind_eq_some_iff] at h
  obtain ⟨⟨seg₂, allocated⟩, hal, h⟩ := h
  obtain ⟨seg₁, res, hfind, ⟨rfl, rfl, rfl⟩ | ⟨a, rfl, rfl, rfl⟩⟩ := allocateMemory_search hw hal
  · exact Or.inr ⟨seg₂, hfind, (Option.some.inj h).symm⟩
  · exact Or.inl ⟨seg₁, a, hfind, (Option.some.inj h).symm⟩

theorem serveRound_isSome (children : ℕ → ℤ × ℤ) (time : ℤ) (hw : WellFormed s.segment)
    (hsize : (queueFront s.waitingQueue).memorySize ≤ 2 ^ 30) :
    ∃ s', serveRound children time s = some s' := by
  obtain ⟨seg₁, res, hfind⟩ := findBlock_isSome hw hsize
  cases res with
  | none => simp [serveRound, allocateMemory_refused _ time hw hfind]
  | some a => simp [serveRound, allocateMemory_found _ time hw hfind]

theorem created_snoc (served : List PCB) (p : PCB) :
    created children (served ++ [p]) =
      created children served ++ [p.create (children (created children served).length)] := by
  simp [created, List.mapIdx_append]

/-- What has been refused so far is refused after the round too. -/
theorem passInv_round (hi : PassInv children old served s) (hpid : ∀ n, 0 < (children n).1)
    (hsizes : ∀ p ∈ old, 1 ≤ p.memorySize) (hne : queueEmpty s.waitingQueue = false)
    (h : serveRound children time s = some s') :
    s'.waitingQueue = queueDequeue s.waitingQueue ∧ ∃ served', PassInv children old served' s' := by
  obtain ⟨hvalid, hlist⟩ := queueDequeue_spec hi.waiting (queueSize_pos hne)
  obtain ⟨done, hold, hsplit⟩ := hi.split
  have hnext : old = (done ++ [queueFront s.waitingQueue]) ++ (queueDequeue s.waitingQueue).toList := by
    rw [hold, hlist, List.append_assoc]
    rfl
  have hsize : 1 ≤ (queueFront s.waitingQueue).memorySize := by
    apply hsizes
    rw [hnext]
    simp
  obtain ⟨seg₁, a, hfind, rfl⟩ | ⟨seg₁, hfind, rfl⟩ :=
    serveRound_cases hi.stampable.wellFormed h
  · have hreserved : Stampable (reserveBlock seg₁ a (queueFront s.waitingQueue).idFromFile
        (queueFront s.waitingQueue).memorySize time) :=
      stampable_reserveBlock a time (stampable_findBlock hi.stampable hfind)
        (Or.inl (Int.le_trans (by decide) hsize))
    have hstamped := stampable_updateId (queueFront s.waitingQueue).idFromFile hreserved
      (hpid s.sent.length)
    have hdenser := denser_trans
      (reserveBlock_denser (queueFront s.waitingQueue).idFromFile time hi.stampable.wellFormed hfind)
      (updateId_denser (queueFront s.waitingQueue).idFromFile hreserved (hpid s.sent.length))
    refine ⟨rfl, served ++ [queueFront s.waitingQueue], hstamped, hvalid, hi.temp, ?_,
      ⟨_, hnext, hsplit.snoc_left _⟩, ?_⟩
    · rw [created_snoc, hi.sent]
    · exact fun p hp => refuses_denser hi.stampable.wellFormed hstamped.wellFormed hdenser
        (hi.refused p hp)
  · have hstampable := stampable_findBlock hi.stampable hfind
    have hstays : ∀ size, Refuses s.segment size → Refuses seg₁ size :=
      fun size => refuses_denser hi.stampable.wellFormed hstampable.wellFormed (findBlock_denser hfind)
    obtain ⟨hvalid', hlist'⟩ := queueEnqueue_spec hi.temp (queueFront s.waitingQueue)
    refine ⟨rfl, served, hstampable, hvalid, hvalid', hi.sent, ⟨_, hnext, ?_⟩, ?_⟩
    · rw [hlist']
      exact hsplit.snoc_right _
    · intro p hp
      rw [hlist', List.mem_append, List.mem_singleton] at hp
      rcases hp with hp | rfl
      · exact hstays _ (hi.refused p hp)
      · exact hstays _ ⟨seg₁, hfind⟩

theorem size_dequeue (hq : q.Valid) (hne : queueEmpty q = false) :
    (queueDequeue q).size + 1 = q.size := by
  have := congrArg List.length (queueDequeue_spec hq (queueSize_pos hne)).2
  rw [List.length_cons, RingBuffer.Ring.length_toList, RingBuffer.Ring.length_toList] at this
  exact this.symm

/-- The first loop ends with `waiting_queue` empty. -/
theorem passInv_loop (hi : PassInv children old served s) (hpid : ∀ n, 0 < (children n).1)
    (hsizes : ∀ p ∈ old, 1 ≤ p.memorySize) (h : serveLoop children time fuel s = some s') :
    queueEmpty s'.waitingQueue = true ∧ ∃ served', PassInv children old served' s' := by
  induction fuel generalizing s served with
  | zero =>
    simp only [serveLoop, Option.ite_none_right_eq_some, Option.some.injEq] at h
    obtain ⟨hempty, rfl⟩ := h
    exact ⟨hempty, served, hi⟩
  | succ fuel ih =>
    rw [serveLoop] at h
    cases hempty : queueEmpty s.waitingQueue with
    | true =>
      rw [if_pos hempty, Option.some.injEq] at h
      exact h ▸ ⟨hempty, served, hi⟩
    | false =>
      rw [if_neg (by simp [hempty]), Option.bind_eq_some_iff] at h
      obtain ⟨s₁, hround, hrest⟩ := h
      obtain ⟨-, served', hi'⟩ := passInv_round hi hpid hsizes hempty hround
      exact ih hi' hrest

theorem serveLoop_isSome (time : ℤ) (hi : PassInv children old served s) (hpid : ∀ n, 0 < (children n).1)
    (hsizes : ∀ p ∈ old, 1 ≤ p.memorySize) (hfits : ∀ p ∈ old, p.memorySize ≤ 2 ^ 30)
    (hfuel : s.waitingQueue.size ≤ fuel) : ∃ s', serveLoop children time fuel s = some s' := by
  induction fuel generalizing s served with
  | zero =>
    have hempty : queueEmpty s.waitingQueue = true := by simpa [queueEmpty] using hfuel
    exact ⟨s, if_pos hempty⟩
  | succ fuel ih =>
    rw [serveLoop]
    cases hempty : queueEmpty s.waitingQueue with
    | true => exact ⟨s, if_pos rfl⟩
    | false =>
      obtain ⟨done, hold, -⟩ := hi.split
      have hlist := (queueDequeue_spec hi.waiting (queueSize_pos hempty)).2
      have hfront : queueFront s.waitingQueue ∈ old := by
        rw [hold, hlist]
        simp
      obtain ⟨s₁, hround⟩ :=
        serveRound_isSome children time hi.stampable.wellFormed (hfits _ hfront)
      obtain ⟨hwait, served', hi'⟩ := passInv_round hi hpid hsizes hempty hround
      have hsize := size_dequeue hi.waiting hempty
      rw [← hwait] at hsize
      obtain ⟨s', hs'⟩ := ih hi' (by omega)
      refine ⟨s', ?_⟩
      rw [if_neg (by simp), hround]
      exact hs'

/-- The second loop puts back what was passed over. -/
theorem restoreLoop_spec (hwait : s.waitingQueue.Valid) (htemp : s.tempQueue.Valid)
    (hfuel : s.tempQueue.size ≤ fuel) : ∃ s', restoreLoop fuel s = some s' ∧
      s'.segment = s.segment ∧ s'.sent = s.sent ∧
      s'.waitingQueue.toList = s.waitingQueue.toList ++ s.tempQueue.toList := by
  induction fuel generalizing s with
  | zero =>
    have hempty : queueEmpty s.tempQueue = true := by simpa [queueEmpty] using hfuel
    refine ⟨s, if_pos hempty, rfl, rfl, ?_⟩
    rw [queueEmpty_iff.mp hempty, List.append_nil]
  | succ fuel ih =>
    rw [restoreLoop]
    cases hempty : queueEmpty s.tempQueue with
    | true =>
      refine ⟨s, if_pos rfl, rfl, rfl, ?_⟩
      rw [queueEmpty_iff.mp hempty, List.append_nil]
    | false =>
      obtain ⟨hvalid, hlist⟩ := queueDequeue_spec htemp (queueSize_pos hempty)
      obtain ⟨hvalid', hlist'⟩ := queueEnqueue_spec hwait (queueFront s.tempQueue)
      have hsize := size_dequeue htemp hempty
      obtain ⟨s', hs', hseg, hsent, hall⟩ := ih (s := restoreRound s) hvalid' hvalid
        (show (queueDequeue s.tempQueue).size ≤ fuel by omega)
      refine ⟨s', by rw [if_neg (by simp), hs'], hseg, hsent, ?_⟩
      rw [hall, hlist]
      show (queueEnqueue s.waitingQueue _).toList ++ (queueDequeue s.tempQueue).toList = _
      rw [hlist', List.append_assoc]
      rfl

/-- What is sent and what waits on are the queue of before, dealt out in order, and no request of
a process that waits on would be granted now. -/
theorem serveWaitingQueue_maximal (h : Reachable ForkedStep initialSegment seg) (hq : q.Valid)
    (hsizes : ∀ p ∈ q.toList, 1 ≤ p.memorySize) (hpid : ∀ n, 0 < (children n).1) (time : ℤ) :
    ((∀ p ∈ q.toList, p.memorySize ≤ 2 ^ 30) →
      ∃ s, serveWaitingQueue children time seg q = some s) ∧
    ∀ s, serveWaitingQueue children time seg q = some s →
      ∃ served, s.sent = created children served ∧
        Splits served s.waitingQueue.toList q.toList ∧
        ∀ p ∈ s.waitingQueue.toList, ∀ later, ∃ seg',
          allocateMemory s.segment p.idFromFile p.memorySize later = some (seg', false) := by
  have hstart : PassInv children q.toList []
      { segment := seg, waitingQueue := q, tempQueue := queueInit 100 emptyFront, sent := [] } := by
    have htemp : (queueInit 100 emptyFront).toList = [] := rfl
    refine ⟨h.invariant (fun _ _ _ hi hs => stampable_step hi hs) stampable_initial, hq,
      queueInit_valid emptyFront (by decide), rfl, ⟨[], rfl, ?_⟩, ?_⟩
    · rw [htemp]
      exact .nil
    · intro p hp
      rw [htemp] at hp
      cases hp
  constructor
  · intro hfits
    obtain ⟨s₁, hs₁⟩ := serveLoop_isSome time hstart hpid hsizes hfits (Nat.le_refl q.size)
    obtain ⟨-, served, hi⟩ := passInv_loop hstart hpid hsizes hs₁
    obtain ⟨s, hs, -⟩ := restoreLoop_spec hi.waiting hi.temp (Nat.le_refl _)
    exact ⟨s, by simp [serveWaitingQueue, hs₁, hs]⟩
  · intro s hs
    simp only [serveWaitingQueue, Option.bind_eq_bind, Option.bind_eq_some_iff] at hs
    obtain ⟨s₁, hs₁, hs⟩ := hs
    obtain ⟨hempty, served, hi⟩ := passInv_loop hstart hpid hsizes hs₁
    obtain ⟨s', hs', hseg, hsent, hlist⟩ := restoreLoop_spec hi.waiting hi.temp (Nat.le_refl _)
    obtain rfl : s' = s := Option.some.inj (hs'.symm.trans hs)
    obtain ⟨done, hold, hsplit⟩ := hi.split
    rw [queueEmpty_iff.mp hempty, List.append_nil] at hold
    rw [queueEmpty_iff.mp hempty, List.nil_append] at hlist
    refine ⟨served, hsent.trans hi.sent, ?_, ?_⟩
    · rw [hlist, hold]
      exact hsplit
    · intro p hp later
      rw [hlist] at hp
      obtain ⟨seg', hseg'⟩ := hi.refused p hp
      rw [hseg]
      exact ⟨seg', allocateMemory_refused _ later hi.stampable.wellFormed hseg'⟩

/-- A process too large for what is left is passed over, and the one behind it sent. -/
theorem serveWaitingQueue_maximal_second : ∃ seg,
    execute Forked MemoryOp.apply initialSegment [.admission 1 512 101 0] = some seg ∧
    ∃ q, q = queueEnqueue (queueEnqueue (queueInit 100 emptyFront)
      (Process.newPcb ⟨2, 0, 4, 1, 600⟩ 0 0 22)) (Process.newPcb ⟨3, 0, 5, 1, 300⟩ 0 0 23) ∧
    ∃ s, serveWaitingQueue (fun n => (102 + (n : ℤ), 12)) 1 seg q = some s ∧
    s.sent.map PCB.idFromFile = [3] ∧ s.waitingQueue.toList.map PCB.idFromFile = [2] ∧
    ∀ p ∈ s.waitingQueue.toList, ∀ later, ∃ seg',
      allocateMemory s.segment p.idFromFile p.memorySize later = some (seg', false) := by
  obtain ⟨seg, hseg, s, hs, hids⟩ : ∃ seg,
      execute Forked MemoryOp.apply initialSegment [.admission 1 512 101 0] = some seg ∧
      ∃ s, serveWaitingQueue (fun n => (102 + (n : ℤ), 12)) 1 seg (queueEnqueue (queueEnqueue
        (queueInit 100 emptyFront) (Process.newPcb ⟨2, 0, 4, 1, 600⟩ 0 0 22))
        (Process.newPcb ⟨3, 0, 5, 1, 300⟩ 0 0 23)) = some s ∧
      s.sent.map PCB.idFromFile = [3] ∧ s.waitingQueue.toList.map PCB.idFromFile = [2] :=
    ⟨_, rfl, _, rfl, by decide, by decide⟩
  have hinit : (queueInit 100 emptyFront).Valid := queueInit_valid emptyFront (by decide)
  have hq := (queueEnqueue_spec (queueEnqueue_spec hinit
    (Process.newPcb ⟨2, 0, 4, 1, 600⟩ 0 0 22)).1 (Process.newPcb ⟨3, 0, 5, 1, 300⟩ 0 0 23)).1
  have hpid : ∀ n : ℕ, 0 < ((fun n : ℕ => ((102 + n, 12) : ℤ × ℤ)) n).1 := by
    intro n
    show 0 < 102 + (n : ℤ)
    omega
  obtain ⟨-, hall⟩ := serveWaitingQueue_maximal ⟨_, trace_of_execute hseg⟩ hq (by decide) hpid 1
  obtain ⟨-, -, -, hrefused⟩ := hall s hs
  exact ⟨seg, hseg, _, rfl, s, hs, hids.1, hids.2, hrefused⟩

/-! The call is a run of the generator's loop, the answers of `allocate_memory` worked out. -/

theorem serveRound_intake {g : Intake} (hne : queueEmpty s.waitingQueue = false)
    (h : serveRound children time s = some s') :
    ∃ a, IntakeStep (g.during .serve s) a (g.during .serve s') := by
  simp only [serveRound, Option.bind_eq_bind, Option.bind_eq_some_iff] at h
  obtain ⟨⟨seg₁, allocated⟩, -, h⟩ := h
  cases allocated with
  | true =>
    obtain rfl := Option.some.inj h
    refine ⟨.serve true (children s.sent.length).1 (children s.sent.length).2, ?_⟩
    simp only [Intake.during, ← List.append_assoc]
    exact .serveGranted rfl hne
  | false =>
    obtain rfl := Option.some.inj h
    exact ⟨.serve false 0 0, .serveRefused rfl hne⟩

theorem serveLoop_intake {g : Intake} (h : serveLoop children time fuel s = some s') :
    Reachable IntakeStep (g.during .serve s) (g.during .restore s') := by
  have hend : ∀ t : ServeState, queueEmpty t.waitingQueue = true →
      Reachable IntakeStep (g.during .serve t) (g.during .restore t) :=
    fun t hempty => Reachable.refl.snoc (.served rfl hempty)
  induction fuel generalizing s with
  | zero =>
    simp only [serveLoop, Option.ite_none_right_eq_some, Option.some.injEq] at h
    exact h.2 ▸ hend s h.1
  | succ fuel ih =>
    rw [serveLoop] at h
    cases hempty : queueEmpty s.waitingQueue with
    | true =>
      rw [if_pos hempty, Option.some.injEq] at h
      exact h ▸ hend s hempty
    | false =>
      rw [if_neg (by simp [hempty]), Option.bind_eq_some_iff] at h
      obtain ⟨s₁, hround, hrest⟩ := h
      obtain ⟨a, hstep⟩ := serveRound_intake hempty hround
      exact (Reachable.refl.snoc hstep).trans (ih hrest)

theorem restoreLoop_intake {g : Intake} (h : restoreLoop fuel s = some s') :
    Reachable IntakeStep (g.during .restore s) (g.during .admitArrived s') := by
  have hend : ∀ t : ServeState, queueEmpty t.tempQueue = true →
      Reachable IntakeStep (g.during .restore t) (g.during .admitArrived t) :=
    fun t hempty => Reachable.refl.snoc (.restored rfl hempty)
  induction fuel generalizing s with
  | zero =>
    simp only [restoreLoop, Option.ite_none_right_eq_some, Option.some.injEq] at h
    exact h.2 ▸ hend s h.1
  | succ fuel ih =>
    rw [restoreLoop] at h
    cases hempty : queueEmpty s.tempQueue with
    | true =>
      rw [if_pos hempty, Option.some.injEq] at h
      exact h ▸ hend s hempty
    | false =>
      rw [if_neg (by simp [hempty])] at h
      exact (Reachable.refl.snoc (.restore rfl hempty)).trans (ih h)

theorem serveWaitingQueue_intake {g : Intake} (hp : g.point = .serve)
    (htemp : g.tempQueue = queueInit 100 emptyFront)
    (h : serveWaitingQueue children time seg g.waitingQueue = some s) :
    Reachable IntakeStep g (g.during .admitArrived s) := by
  simp only [serveWaitingQueue, Option.bind_eq_bind, Option.bind_eq_some_iff] at h
  obtain ⟨s₁, hserve, hrestore⟩ := h
  have hrun := (serveLoop_intake (g := g) hserve).trans (restoreLoop_intake hrestore)
  have hstart : g.during .serve ⟨seg, g.waitingQueue, queueInit 100 emptyFront, []⟩ = g := by
    simp only [Intake.during, List.append_nil, ← hp, ← htemp]
  rwa [hstart] at hrun

end KernelSim
