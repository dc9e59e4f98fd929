import KernelSim.Generator.Intake
import KernelSim.Generator.Reaping

/-! The generator's loop on the memory segment: whom a call of `serve_waiting_queue` admits. -/
namespace KernelSim
open KeyedTree Runs

/-- The id and the size that the loop hands to `allocate_memory` next. -/
def Intake.request (g : Intake) : Option (ℤ × ℤ) :=
  match g.point with
  | .serve =>
    if queueEmpty g.waitingQueue then none
    else some ((queueFront g.waitingQueue).idFromFile, (queueFront g.waitingQueue).memorySize)
  | .admitArrived =>
    if pqEmpty g.pq = true ∨ g.lastTick < (pqTop g.pq).arrivalTime then none
    else some ((pqTop g.pq).id, (pqTop g.pq).memorySize)
  | _ => none

/-- What `allocate_memory` returned before a step of the loop. -/
def IntakeAct.answer : IntakeAct → Option Bool
  | .serve granted _ _ => some granted
  | .admitArrived granted _ _ _ => some granted
  | _ => none

/-- The pid that `createProcess` wrote before a step of the loop. -/
def IntakeAct.pid : IntakeAct → Option ℤ
  | .serve _ pid _ => some pid
  | .admitArrived _ pid _ _ => some pid
  | _ => none

/-- A step of an admission between the search and the message, or the handler. -/
def GeneratorAct.Inner : GeneratorAct → Prop
  | .search _ _ _ => False
  | .msgsnd => False
  | _ => True

/-- The generator's loop and its memory. -/
structure Admission where
  intake : Intake
  memory : Generator

inductive AdmissionAct
  /-- the clock, or a step of the loop that allocates nothing -/
  | main (act : IntakeAct)
  | refuse (act : IntakeAct)
  | memory (act : GeneratorAct)
  | send (act : IntakeAct)

/-- The loop waits while it admits a process; the clock and the `SIGCHLD` handler do not. -/
inductive AdmissionStep (s : Admission) : AdmissionAct → Admission → Prop
  | tick {g : Intake} (h : IntakeStep s.intake .tick g) :
      AdmissionStep s (.main .tick) { s with intake := g }
  | main {a : IntakeAct} {g : Intake} (hidle : s.memory.phase = .idle) (ha : a.answer = none)
      (h : IntakeStep s.intake a g) : AdmissionStep s (.main a) { s with intake := g }
  | refuse {a : IntakeAct} {id size : ℤ} {g : Intake} {m : Generator}
      (hr : s.intake.request = some (id, size))
      (hm : GeneratorStep s.memory (.search id size s.intake.lastTick) m) (hfail : m.phase = .idle)
      (ha : a.answer = some false) (h : IntakeStep s.intake a g) :
      AdmissionStep s (.refuse a) { intake := g, memory := m }
  | found {id size : ℤ} {m : Generator} (hr : s.intake.request = some (id, size))
      (hm : GeneratorStep s.memory (.search id size s.intake.lastTick) m)
      (hfound : m.phase ≠ .idle) :
      AdmissionStep s (.memory (.search id size s.intake.lastTick)) { s with memory := m }
  | memory {a : GeneratorAct} {m : Generator} (ha : a.Inner) (hm : GeneratorStep s.memory a m) :
      AdmissionStep s (.memory a) { s with memory := m }
  | send {a : IntakeAct} {id pid : ℤ} {g : Intake} {m : Generator}
      (hp : s.memory.phase = .stamped id pid) (hm : GeneratorStep s.memory .msgsnd m)
      (ha : a.answer = some true) (hpid : a.pid = some pid) (h : IntakeStep s.intake a g) :
      AdmissionStep s (.send a) { intake := g, memory := m }

namespace Admission

def initial (clk schedulerPid clkPid : ℤ) (lines : List Process) : Admission :=
  { intake := Intake.initial clk lines, memory := initialGenerator schedulerPid clkPid }

/-- No tree node is live, and processes wait. -/
structure Stalled (s : Admission) : Prop where
  between : s.intake.BetweenTicks
  noneLive : ∀ b ∈ entries s.memory.segment.root, ¬ b.live
  waiting : s.intake.waitingQueue.toList ≠ []

/-- From `s` the next call of `serve_waiting_queue` ends its first loop in `s'`. -/
def NextServe (s s' : Admission) : Prop :=
  ∃ bs, Trace AdmissionStep s (bs ++ [.main .served]) s' ∧ .main .served ∉ bs

/-- The next call admits a process. -/
def NextServeAdmits (s : Admission) : Prop :=
  (∃ s', s.NextServe s') ∧
    ∀ s', s.NextServe s' → s.intake.sent.length < s'.intake.sent.length

end Admission

section Memory

variable {seg seg' : Segment} {size : ℤ} {a : ℕ} {m m' : Generator} {act : GeneratorAct}

/-- With nothing live in it the segment serves every request that fits into it. -/
theorem found_of_noneLive (hw : WellFormed seg) (hnone : ∀ b ∈ entries seg.root, ¬ b.live)
    (hsize : size ≤ 1024) : findBlock seg size ≠ some (seg', none) := by
  intro h
  obtain ⟨j, hj, -, hs⟩ := findBlock_some h
  obtain ⟨-, i, hi, -, hmin⟩ := highestPowerOf2_some hj
  have hle : j ≤ 10 := by
    by_contra hlt
    obtain rfl : j = i := pow_right_injective₀ (by omega) (by omega) hi
    have := hmin 10 (by omega)
    omega
  have hcharged : Charged seg.root := fun b hb hl => absurd hl (hnone b hb)
  obtain ⟨-, hfails⟩ := searches_first 0 hs hw.nonempty hw.shape (Or.inr hcharged)
  have hidle : ∀ y, ¬ Busy 0 seg.root y := by
    rintro y ⟨q, hq, -⟩
    rw [lives_eq_nil hnone] at hq
    cases hq
  refine hfails rfl 0 ⟨⟨0, by simp, ?_⟩, hidle _, hidle _⟩
  have : (2 : ℤ) ^ j ≤ 2 ^ 10 := pow_le_pow_right₀ (by omega) hle
  omega

theorem noneLive_search {res : Option ℕ} (h : findBlock seg size = some (seg', res))
    (hnone : ∀ b ∈ entries seg.root, ¬ b.live) : ∀ b ∈ entries seg'.root, ¬ b.live := by
  obtain ⟨j, -, -, hs⟩ := findBlock_some h
  intro b hb
  rcases grows_entries (searches_grows hs) hb with hold | hblank
  · exact hnone b hold
  · exact not_not.mpr hblank.1

theorem wellFormed_generatorStep (hw : WellFormed m.segment) (h : GeneratorStep m act m') :
    WellFormed m'.segment := by
  cases h with
  | searchFound hp hf => exact findBlock_wellFormed hw hf
  | searchFailed hp hf => exact findBlock_wellFormed hw hf
  | reserve hp => exact reserveBlock_wellFormed _ _ _ _ hw
  | createProcess hp hpid hc hh => exact hw
  | updateId hp => exact updateId_wellFormed _ _ hw
  | msgsnd hp => exact hw
  | @reap pid time status hpos hpid hs =>
    cases status with
    | exited code => exact deallocateMemory_wellFormed hw
    | signaled signal => exact hw

/-- Between two admissions the handler is the only inner step, and it makes nothing live. -/
theorem inner_step (ha : act.Inner) (h : GeneratorStep m act m') :
    (m'.phase = .idle ↔ m.phase = .idle) ∧ (m.phase = .idle →
      (∀ b ∈ entries m.segment.root, ¬ b.live) → ∀ b ∈ entries m'.segment.root, ¬ b.live) := by
  cases h with
  | searchFound | searchFailed | msgsnd => exact absurd ha id
  | reserve hp | createProcess hp hpid hc hh | updateId hp => simp [hp]
  | @reap pid time status hpos hpid hs =>
    refine ⟨Iff.rfl, fun _ hnone => ?_⟩
    cases status with
    | signaled signal => exact hnone
    | exited code =>
      intro b hb
      rcases deallocateMemory_entries hb with ⟨hold, -⟩ | ⟨c, -, rfl⟩
      · exact hnone b hold
      · simp [MemoryBlock.release]

/-- A system with room for another process has a pid for it. -/
theorem exists_unused_pid (pids : List ℤ) : ∃ pid, 0 < pid ∧ pid ∉ pids := by
  have hbound : ∃ n, 0 ≤ n ∧ ∀ pid ∈ pids, pid ≤ n := by
    induction pids with
    | nil => exact ⟨0, Int.le_refl _, by simp⟩
    | cons q pids ih =>
      obtain ⟨n, hn, hall⟩ := ih
      refine ⟨max n q, by omega, ?_⟩
      intro pid hpid
      rcases List.mem_cons.mp hpid with rfl | hpid
      · omega
      · have := hall pid hpid
        omega
  obtain ⟨n, hn, hall⟩ := hbound
  refine ⟨n + 1, by omega, fun h => ?_⟩
  have := hall _ h
  omega

end Memory

variable {s s' t : Admission} {a : AdmissionAct} {lines : List Process}

structure AdmissionInv (s : Admission) : Prop where
  wellFormed : WellFormed s.memory.segment
  queues : s.intake.QueuesSound
  /-- an admission under way is that of the next process in line -/
  busy : s.memory.phase ≠ .idle → ∃ id size, s.intake.request = some (id, size) ∧ size ≤ 1024
  /-- a search that was refused has ended -/
  searched : ∀ p ∈ s.intake.waitingQueue.toList ++ s.intake.tempQueue.toList, p.memorySize ≤ 2 ^ 30

/-- The head of `waiting_queue` is what `serve_waiting_queue` asks memory for. -/
theorem request_serve {g : Intake} (hq : g.QueuesSound) (hp : g.point = .serve)
    (hne : queueEmpty g.waitingQueue = false) :
    g.request = some ((queueFront g.waitingQueue).idFromFile,
      (queueFront g.waitingQueue).memorySize) ∧
    g.waitingQueue.toList = queueFront g.waitingQueue :: (queueDequeue g.waitingQueue).toList ∧
    (queueDequeue g.waitingQueue).Valid := by
  obtain ⟨hvalid, hlist⟩ := queueDequeue_spec hq.waiting (queueSize_pos hne)
  refine ⟨?_, hlist, hvalid⟩
  simp only [Intake.request, hp, hne, Bool.false_eq_true, if_false]

theorem size_le_of_answered {m m' : Generator} {id size time : ℤ}
    (h : GeneratorStep m (.search id size time) m') : size ≤ 2 ^ 30 := by
  cases h with
  | searchFound hp hf | searchFailed hp hf =>
    obtain ⟨j, hj, -⟩ := findBlock_some hf
    exact (highestPowerOf2_some hj).1

/-- The waiting processes after a step of the loop. -/
theorem searched_step {g g' : Intake} {a : IntakeAct} (hq : g.QueuesSound)
    (h : IntakeStep g a g')
    (hsize : a.answer = some false → ∀ id size, g.request = some (id, size) → size ≤ 2 ^ 30)
    (hold : ∀ p ∈ g.waitingQueue.toList ++ g.tempQueue.toList, p.memorySize ≤ 2 ^ 30) :
    ∀ p ∈ g'.waitingQueue.toList ++ g'.tempQueue.toList, p.memorySize ≤ 2 ^ 30 := by
  have hwait : ∀ p ∈ g.waitingQueue.toList, p.memorySize ≤ 2 ^ 30 :=
    fun p hp => hold p (List.mem_append_left _ hp)
  have htemp : ∀ p ∈ g.tempQueue.toList, p.memorySize ≤ 2 ^ 30 :=
    fun p hp => hold p (List.mem_append_right _ hp)
  cases h with
  | newTick hp hne =>
    intro p hmem
    rcases List.mem_append.mp hmem with hmem | hmem
    · exact hwait p hmem
    · cases hmem
  | serveGranted hp hne =>
    obtain ⟨-, hlist, -⟩ := request_serve hq hp hne
    intro p hmem
    apply hold p
    rw [hlist]
    exact List.mem_cons_of_mem _ hmem
  | serveRefused hp hne =>
    obtain ⟨-, hlist, -⟩ := request_serve hq hp hne
    obtain ⟨-, hlist'⟩ := queueEnqueue_spec hq.temp (queueFront g.waitingQueue)
    intro p hmem
    apply hold p
    simp only [hlist', List.mem_append, List.mem_singleton] at hmem
    simp only [hlist, List.mem_append, List.mem_cons]
    tauto
  | restore hp hne =>
    obtain ⟨-, hlist⟩ := queueDequeue_spec hq.temp (queueSize_pos hne)
    obtain ⟨-, hlist'⟩ := queueEnqueue_spec hq.waiting (queueFront g.tempQueue)
    intro p hmem
    apply hold p
    simp only [hlist', List.mem_append, List.mem_singleton] at hmem
    simp only [hlist, List.mem_append, List.mem_cons]
    tauto
  | @admitRefused pid shmId syncSemid hp hne harr hsem =>
    obtain ⟨-, hlist⟩ :=
      queueEnqueue_spec hq.waiting ((pqTop g.pq).newPcb pid shmId syncSemid)
    have hr : g.request = some ((pqTop g.pq).id, (pqTop g.pq).memorySize) := by
      simp only [Intake.request, hp, hne]
      rw [if_neg (by simp; omega)]
    intro p hmem
    simp only [hlist, List.mem_append, List.mem_singleton] at hmem
    rcases hmem with (hmem | rfl) | hmem
    · exact hwait p hmem
    · exact hsize rfl _ _ hr
    · exact htemp p hmem
  | _ => exact hold

theorem admissionInv_step (hi : AdmissionInv s) (h : AdmissionStep s a s') : AdmissionInv s' := by
  cases h with
  | tick h =>
    cases h
    exact ⟨hi.wellFormed, ⟨hi.queues.1, hi.queues.2, hi.queues.3⟩, hi.busy, hi.searched⟩
  | main hidle ha h =>
    refine ⟨hi.wellFormed, (queues_step hi.queues h).1, fun hne => absurd hidle hne, ?_⟩
    exact searched_step hi.queues h (by simp [ha]) hi.searched
  | refuse hr hm hfail ha h =>
    refine ⟨wellFormed_generatorStep hi.wellFormed hm, (queues_step hi.queues h).1,
      fun hne => absurd hfail hne, ?_⟩
    refine searched_step hi.queues h (fun _ id size hr' => ?_) hi.searched
    rw [hr] at hr'
    cases hr'
    exact size_le_of_answered hm
  | @found id size m hr hm hfound =>
    refine ⟨wellFormed_generatorStep hi.wellFormed hm, hi.queues, fun _ => ⟨id, size, hr, ?_⟩,
      hi.searched⟩
    cases hm with
    | searchFound hp hf => exact size_le_of_found hi.wellFormed hf
    | searchFailed hp hf => exact absurd hp hfound
  | memory ha hm =>
    refine ⟨wellFormed_generatorStep hi.wellFormed hm, hi.queues, fun hne => ?_, hi.searched⟩
    exact hi.busy fun hidle => hne ((inner_step ha hm).1.mpr hidle)
  | send hp hm ha hpid h =>
    refine ⟨wellFormed_generatorStep hi.wellFormed hm, (queues_step hi.queues h).1, ?_,
      searched_step hi.queues h (by simp [ha]) hi.searched⟩
    cases hm with
    | msgsnd hp => exact fun hne => absurd rfl hne

theorem admissionInv_initial (clk schedulerPid clkPid : ℤ) :
    AdmissionInv (Admission.initial clk schedulerPid clkPid lines) := by
  have hempty : (queueInit 100 emptyFront).toList = [] := rfl
  have hinit : (queueInit 100 emptyFront).Valid := queueInit_valid emptyFront (by decide)
  refine ⟨wellFormed_initial, ⟨hinit, hinit, fun _ _ => hempty⟩, fun hne => absurd rfl hne, ?_⟩
  intro p hp
  cases hp

/-- What a stalled generator has done before the next call of `serve_waiting_queue` has emptied
`waiting_queue`: while it has sent nothing, no process in line would have fitted, and there is
still no live node. -/
structure Serving (t s : Admission) : Prop extends AdmissionInv s where
  point : s.intake.BetweenTicks ∨ s.intake.point = .serve
  served : ∃ done, t.intake.waitingQueue.toList = done ++ s.intake.waitingQueue.toList ∧
    (s.intake.BetweenTicks → done = []) ∧
    ((s.intake.sent.length = t.intake.sent.length ∧ (∀ p ∈ done, 1024 < p.memorySize) ∧
        (s.memory.phase = .idle → ∀ b ∈ entries s.memory.segment.root, ¬ b.live)) ∨
      (t.intake.sent.length < s.intake.sent.length ∧ ∃ p ∈ done, p.memorySize ≤ 1024))

theorem idle_of_between (hi : AdmissionInv s) (hb : s.intake.BetweenTicks) :
    s.memory.phase = .idle := by
  by_contra hne
  obtain ⟨id, size, hr, -⟩ := hi.busy hne
  rcases hb with hp | hp <;> simp [Intake.request, hp] at hr

theorem serving_refl (hi : AdmissionInv s) (hs : s.Stalled) : Serving s s :=
  ⟨hi, Or.inl hs.between, [], rfl, fun _ => rfl, Or.inl ⟨rfl, by simp, fun _ => hs.noneLive⟩⟩

/-- The head of the queue has been refused or sent. -/
theorem serving_answered {g : Intake} {m : Generator} (hs : Serving t s)
    (hi : AdmissionInv { intake := g, memory := m }) (hp : s.intake.point = .serve)
    (hne : queueEmpty s.intake.waitingQueue = false) (hp' : g.point = .serve)
    (hwait : g.waitingQueue = queueDequeue s.intake.waitingQueue)
    (hans : (g.sent.length = s.intake.sent.length ∧ s.memory.phase = .idle ∧
        ((∀ b ∈ entries s.memory.segment.root, ¬ b.live) →
          1024 < (queueFront s.intake.waitingQueue).memorySize ∧
            ∀ b ∈ entries m.segment.root, ¬ b.live)) ∨
      (s.intake.sent.length < g.sent.length ∧
        (queueFront s.intake.waitingQueue).memorySize ≤ 1024)) :
    Serving t { intake := g, memory := m } := by
  obtain ⟨-, hlist, -⟩ := request_serve hs.queues hp hne
  obtain ⟨done, hdone, -, hcase⟩ := hs.served
  refine ⟨hi, Or.inr hp', done ++ [queueFront s.intake.waitingQueue], ?_, ?_, ?_⟩
  · rw [hdone, hlist, List.append_assoc, hwait]
    rfl
  · intro hb
    simp [Intake.BetweenTicks, hp'] at hb
  · have hlast : queueFront s.intake.waitingQueue ∈ done ++ [queueFront s.intake.waitingQueue] :=
      List.mem_append_right _ (List.mem_singleton.mpr rfl)
    rcases hans with ⟨hsame, hidle, hrefused⟩ | ⟨hmore, hsize⟩
    · rcases hcase with ⟨hlen, hbig, hnone⟩ | ⟨hlen, p, hmem, hsize⟩
      · obtain ⟨hfront, hnone'⟩ := hrefused (hnone hidle)
        refine Or.inl ⟨hsame.trans hlen, ?_, fun _ => hnone'⟩
        intro p hmem
        rcases List.mem_append.mp hmem with hmem | hmem
        · exact hbig p hmem
        · rwa [List.mem_singleton.mp hmem]
      · exact Or.inr ⟨Nat.lt_of_lt_of_eq hlen hsame.symm, p, List.mem_append_left _ hmem, hsize⟩
    · refine Or.inr ⟨Nat.lt_of_le_of_lt ?_ hmore, _, hlast, hsize⟩
      rcases hcase with ⟨hlen, -⟩ | ⟨hlen, -⟩
      · exact Nat.le_of_eq hlen.symm
      · exact Nat.le_of_lt hlen

theorem serving_step (hs : Serving t s) (h : AdmissionStep s a s') (ha : a ≠ .main .served) :
    Serving t s' := by
  have hi := admissionInv_step hs.toAdmissionInv h
  obtain ⟨done, hdone, hbetween, hcase⟩ := hs.served
  have hpoint := hs.point
  cases h with
  | tick h =>
    cases h
    exact ⟨hi, hpoint, done, hdone, hbetween, hcase⟩
  | main hidle hno h =>
    cases h with
    | tick => exact ⟨hi, hpoint, done, hdone, hbetween, hcase⟩
    | newTick hp hne =>
      obtain rfl := hbetween (Or.inl hp)
      exact ⟨hi, Or.inr rfl, [], hdone, fun _ => rfl, hcase⟩
    | sameTick hp heq =>
      obtain rfl := hbetween (Or.inl hp)
      exact ⟨hi, Or.inl (Or.inr rfl), [], hdone, fun _ => rfl, hcase⟩
    | announce hp hpq hq honce =>
      obtain rfl := hbetween (Or.inr hp)
      exact ⟨hi, Or.inl (Or.inl rfl), [], hdone, fun _ => rfl, hcase⟩
    | again hp hno =>
      obtain rfl := hbetween (Or.inr hp)
      exact ⟨hi, Or.inl (Or.inl rfl), [], hdone, fun _ => rfl, hcase⟩
    | served hp hq => exact absurd rfl ha
    | serveGranted | serveRefused | admitGranted | admitRefused => cases hno
    | restore hp | restored hp | post hp => simp [Intake.BetweenTicks, hp] at hpoint
  | @refuse act id size g m hr hm hfail hno h =>
    cases h with
    | serveRefused hp hq =>
      obtain ⟨hr', -, -⟩ := request_serve hs.queues hp hq
      rw [hr] at hr'
      cases hr'
      cases hm with
      | searchFound hp' hf => cases hfail
      | searchFailed hp' hf =>
        refine serving_answered hs hi hp hq hp rfl
          (Or.inl ⟨rfl, hp', fun hnone => ⟨?_, ?_⟩⟩)
        · by_contra hsmall
          exact found_of_noneLive hs.wellFormed hnone (not_lt.mp hsmall) hf
        · exact noneLive_search hf hnone
    | admitRefused hp => simp [Intake.BetweenTicks, hp] at hpoint
    | _ => cases hno
  | found hr hm hfound =>
    refine ⟨hi, hpoint, done, hdone, hbetween, hcase.imp_left ?_⟩
    rintro ⟨hlen, hbig, -⟩
    exact ⟨hlen, hbig, fun hidle => absurd hidle hfound⟩
  | memory hinner hm =>
    obtain ⟨hphase, hnone'⟩ := inner_step hinner hm
    refine ⟨hi, hpoint, done, hdone, hbetween, hcase.imp_left ?_⟩
    rintro ⟨hlen, hbig, hnone⟩
    refine ⟨hlen, hbig, fun hidle => ?_⟩
    exact hnone' (hphase.mp hidle) (hnone (hphase.mp hidle))
  | @send act id pid g m hp hm hyes hpid h =>
    obtain ⟨id', size, hr, hsize⟩ := hs.busy (by simp [hp])
    cases h with
    | serveGranted hp' hq =>
      obtain ⟨hr', -, -⟩ := request_serve hs.queues hp' hq
      rw [hr] at hr'
      cases hr'
      refine serving_answered hs hi hp' hq hp' rfl (Or.inr ⟨?_, hsize⟩)
      rw [List.length_append]
      exact Nat.lt_succ_self _
    | admitGranted hp' => simp [Intake.BetweenTicks, hp'] at hpoint
    | _ => cases hyes

/-- Once the first loop has ended, it has sent a message if and only if some process fitted. -/
theorem sent_of_nextServe (hi : AdmissionInv t) (ht : t.Stalled) (h : t.NextServe s) :
    t.intake.sent.length < s.intake.sent.length ↔
      ∃ p ∈ t.intake.waitingQueue.toList, p.memorySize ≤ 1024 := by
  obtain ⟨bs, hrun, hnot⟩ := h
  obtain ⟨u, hrun, hlast⟩ := hrun.snoc_inv
  have hno : ∀ a ∈ bs, a ≠ .main .served := fun a ha heq => hnot (heq ▸ ha)
  have hserving : Serving t u := hrun.invariant_of_throughout (throughout_of_forall hno)
    (fun _ _ _ hs ha hr => serving_step hs hr ha) (serving_refl hi ht)
  obtain ⟨done, hdone, -, hcase⟩ := hserving.served
  cases hlast with
  | main hidle _ h =>
    cases h with
    | served hp hq =>
      rw [queueEmpty_iff.mp hq, List.append_nil] at hdone
      rw [hdone]
      rcases hcase with ⟨hlen, hbig, -⟩ | ⟨hlen, hfits⟩
      · refine ⟨fun hmore => absurd hlen (Nat.ne_of_gt hmore), ?_⟩
        rintro ⟨p, hmem, hsize⟩
        exact absurd (hbig p hmem) (not_lt.mpr hsize)
      · exact ⟨fun _ => hfits, fun _ => hlen⟩

/-- From `s` a run without the end of the first loop leads to a state satisfying `P`. -/
def Admission.Leads (s : Admission) (P : Admission → Prop) : Prop :=
  ∃ bs s', Trace AdmissionStep s bs s' ∧ .main .served ∉ bs ∧ P s'

theorem leads_step {P : Admission → Prop} (h : AdmissionStep s a s') (ha : a ≠ .main .served)
    (hl : s'.Leads P) : s.Leads P := by
  obtain ⟨bs, u, hrun, hnot, hu⟩ := hl
  refine ⟨[a] ++ bs, u, (Trace.refl.snoc h).trans hrun, ?_, hu⟩
  simp only [List.singleton_append, List.mem_cons, not_or]
  exact ⟨ha.symm, hnot⟩

/-- The loop admits the head of the queue when the search has found a block. -/
theorem leads_granted (hi : AdmissionInv s) (hidle : s.memory.phase = .idle)
    (hp : s.intake.point = .serve) (hq : queueEmpty s.intake.waitingQueue = false) {seg : Segment}
    {block : ℕ}
    (hf : findBlock s.memory.segment (queueFront s.intake.waitingQueue).memorySize =
      some (seg, some block)) :
    s.Leads fun u => u.memory.phase = .idle ∧ u.intake.point = .serve ∧
      u.intake.waitingQueue = queueDequeue s.intake.waitingQueue := by
  obtain ⟨hr, -, -⟩ := request_serve hi.queues hp hq
  obtain ⟨pid, hpos, hnew⟩ := exists_unused_pid (s.memory.children ++ s.memory.helpers)
  rw [List.mem_append, not_or] at hnew
  refine leads_step (.found hr (.searchFound hidle hf) (by simp)) (by simp) ?_
  refine leads_step (.memory (a := .reserve) trivial (.reserve rfl)) (by simp) ?_
  refine leads_step (.memory (a := .createProcess pid) trivial
    (.createProcess rfl hpos hnew.1 hnew.2)) (by simp) ?_
  refine leads_step (.memory (a := .updateId) trivial (.updateId rfl)) (by simp) ?_
  have hsend := @IntakeStep.serveGranted s.intake pid 0 hp hq
  refine leads_step (.send rfl (.msgsnd rfl) rfl rfl hsend) (by simp) ?_
  exact ⟨[], _, .refl, by simp, rfl, hp, rfl⟩

/-- The first loop of `serve_waiting_queue` comes to its end: each search ends. -/
theorem leads_served (hi : AdmissionInv s) (hidle : s.memory.phase = .idle)
    (hp : s.intake.point = .serve) : s.Leads fun u => ∃ v, AdmissionStep u (.main .served) v := by
  generalize hn : s.intake.waitingQueue.toList.length = n
  induction n generalizing s with
  | zero =>
    have hq := queueEmpty_iff.mpr (List.length_eq_zero_iff.mp hn)
    exact ⟨[], s, .refl, by simp, _, .main hidle rfl (.served hp hq)⟩
  | succ n ih =>
    have hq : queueEmpty s.intake.waitingQueue = false := by
      by_contra hne
      rw [Bool.not_eq_false] at hne
      rw [queueEmpty_iff.mp hne] at hn
      cases hn
    obtain ⟨hr, hlist, -⟩ := request_serve hi.queues hp hq
    have hlen : (queueDequeue s.intake.waitingQueue).toList.length = n := by
      rw [hlist, List.length_cons] at hn
      omega
    have hsize : (queueFront s.intake.waitingQueue).memorySize ≤ 2 ^ 30 := by
      apply hi.searched
      rw [hlist]
      exact List.mem_append_left _ List.mem_cons_self
    obtain ⟨seg, res, hf⟩ := findBlock_isSome hi.wellFormed hsize
    cases res with
    | none =>
      have hstep : AdmissionStep s (.refuse (.serve false 0 0)) _ :=
        .refuse hr (.searchFailed hidle hf) hidle rfl (.serveRefused hp hq)
      exact leads_step hstep (by simp) (ih (admissionInv_step hi hstep) hidle hp hlen)
    | some block =>
      obtain ⟨bs, u, hrun, hnot, hidle', hp', hwait⟩ := leads_granted hi hidle hp hq hf
      have hi' : AdmissionInv u :=
        hrun.invariant (fun _ _ _ hi h => admissionInv_step hi h) hi
      obtain ⟨cs, v, hrun', hnot', hv⟩ := ih hi' hidle' hp' (hwait ▸ hlen)
      exact ⟨bs ++ cs, v, hrun.trans hrun', by simp [hnot, hnot'], hv⟩

theorem leads_newTick (hi : AdmissionInv s) (hp : s.intake.point = .top)
    (hne : s.intake.clock ≠ s.intake.lastTick) :
    s.Leads fun u => AdmissionInv u ∧ u.memory.phase = .idle ∧ u.intake.point = .serve := by
  have hidle := idle_of_between hi (Or.inl hp)
  have hread := AdmissionStep.main hidle rfl (.newTick hp hne)
  exact leads_step hread (by simp) ⟨[], _, .refl, by simp, admissionInv_step hi hread, hidle, rfl⟩

/-- The loop begins its next tick once the clock has moved on. -/
theorem leads_serve (hi : AdmissionInv s) (hp : s.intake.point = .top) :
    s.Leads fun u => AdmissionInv u ∧ u.memory.phase = .idle ∧ u.intake.point = .serve := by
  by_cases hne : s.intake.clock = s.intake.lastTick
  · have htick := AdmissionStep.tick (s := s) .tick
    refine leads_step htick (by simp) (leads_newTick (admissionInv_step hi htick) hp ?_)
    show s.intake.clock + 1 ≠ s.intake.lastTick
    omega
  · exact leads_newTick hi hp hne

theorem leads_trans {P Q : Admission → Prop} (h : s.Leads P) (hPQ : ∀ u, P u → u.Leads Q) :
    s.Leads Q := by
  obtain ⟨bs, u, hrun, hnot, hu⟩ := h
  obtain ⟨cs, v, hrun', hnot', hv⟩ := hPQ u hu
  exact ⟨bs ++ cs, v, hrun.trans hrun', by simp [hnot, hnot'], hv⟩

/-- There is a next call, and it ends its first loop. -/
theorem exists_nextServe (hi : AdmissionInv s) (hb : s.intake.BetweenTicks) :
    ∃ s', s.NextServe s' := by
  have htop : s.Leads fun u => AdmissionInv u ∧ u.intake.point = .top := by
    rcases hb with hp | hp
    · exact ⟨[], s, .refl, by simp, hi, hp⟩
    · have hidle := idle_of_between hi (Or.inr hp)
      by_cases hempty : pqEmpty s.intake.pq = true ∧ queueEmpty s.intake.waitingQueue = true ∧
          s.intake.once = true
      · have hstep := AdmissionStep.main hidle rfl
          (.announce hp hempty.1 hempty.2.1 hempty.2.2)
        exact leads_step hstep (by simp)
          ⟨[], _, .refl, by simp, admissionInv_step hi hstep, rfl⟩
      · have hstep := AdmissionStep.main hidle rfl (.again hp hempty)
        exact leads_step hstep (by simp)
          ⟨[], _, .refl, by simp, admissionInv_step hi hstep, rfl⟩
  obtain ⟨bs, u, hrun, hnot, v, hv⟩ := leads_trans htop fun u hu =>
    leads_trans (leads_serve hu.1 hu.2) fun w hw => leads_served hw.1 hw.2.1 hw.2.2
  exact ⟨v, bs, hrun.snoc hv, hnot⟩

/-- A generator without a live node admits a waiting process in its next call of
`serve_waiting_queue` if and only if one fits into the segment. -/
theorem nextServe_admits_iff (clk schedulerPid clkPid : ℤ) (lines : List Process)
    (as : List AdmissionAct) :
    Always AdmissionStep (Admission.initial clk schedulerPid clkPid lines) as fun s =>
      s.Stalled → (s.NextServeAdmits ↔
        ∃ p ∈ s.intake.waitingQueue.toList, p.memorySize ≤ 1024) := by
  intro pre s _ ht hs
  have hi : AdmissionInv s := ht.invariant (fun _ _ _ hi h => admissionInv_step hi h)
    (admissionInv_initial clk schedulerPid clkPid)
  obtain ⟨s', hnext⟩ := exists_nextServe hi hs.between
  constructor
  · rintro ⟨-, hall⟩
    exact (sent_of_nextServe hi hs hnext).mp (hall s' hnext)
  · intro hfits
    exact ⟨⟨s', hnext⟩, fun u hu => (sent_of_nextServe hi hs hu).mpr hfits⟩

/-- A process of 2000 bytes is refused when it arrives, and at the next tick. -/
theorem oversized_not_admitted :
    ¬ Always AdmissionStep (Admission.initial 0 100 101 [⟨1, 0, 1, 0, 2000⟩])
      [.main .readClock, .main .served, .main .restored, .refuse (.admitArrived false 0 0 5),
        .main .post, .main .check]
      fun s => s.Stalled → s.NextServeAdmits := by
  intro h
  have hstart : ∀ {s₁ s₂ s₃}, AdmissionStep (.initial 0 100 101 [⟨1, 0, 1, 0, 2000⟩])
      (.main .readClock) s₁ → AdmissionStep s₁ (.main .served) s₂ →
      AdmissionStep s₂ (.main .restored) s₃ → Trace AdmissionStep _ [_, _, _] s₃ :=
    fun h₁ h₂ h₃ => ((Trace.refl.snoc h₁).snoc h₂).snoc h₃
  have hrun := hstart (.main rfl rfl (.newTick rfl (by decide))) (.main rfl rfl (.served rfl rfl))
    (.main rfl rfl (.restored rfl rfl))
  have hrefused := ((hrun.snoc (.refuse rfl (.searchFailed rfl rfl) rfl rfl
    (@IntakeStep.admitRefused _ 0 0 5 rfl rfl (by decide) (by decide)))).snoc
      (.main rfl rfl (.post rfl (Or.inl rfl)))).snoc (.main rfl rfl (.again rfl (by decide)))
  have hadmits := (h _ _ (List.prefix_refl _) hrefused ⟨Or.inl rfl, by decide, by decide⟩).2
  refine absurd (hadmits _ ⟨_, (((Trace.refl.snoc (.tick .tick)).snoc
    (.main rfl rfl (.newTick rfl (by decide)))).snoc (.refuse rfl (.searchFailed rfl rfl) rfl rfl
      (@IntakeStep.serveRefused _ 0 0 rfl rfl))).snoc (.main rfl rfl (.served rfl rfl)), ?_⟩) ?_
  · simp
  · decide

end KernelSim
