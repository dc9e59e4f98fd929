import KernelSim.Generator.ExecArguments
import KernelSim.Generator.ReadProcesses
import KernelSim.Scheduler.Conservation
import KernelSim.Scheduler.RunProcess

/-! What the progress bars divide by, on its way from the process file to each of the calls. -/
namespace KernelSim
open Decimal PriorityQueue Runs

/-- The cells that the loop of `print_progress_bar` draws. -/
def progressCells (filled : ℤ) (width : ℕ) : List Char :=
  (List.range width).map fun (i : ℕ) => if (i : ℤ) < filled then '■' else '□'

/-- `print_progress_bar`; `none` when the division traps. -/
def printProgressBar (completed total width : ℤ) : Option (List Char) :=
  if total = 0 ∨ wrap32 (completed * width) = -2 ^ 31 ∧ total = -1 then none
  else
    let filled := (wrap32 (completed * width)).tdiv total
    some ('[' :: progressCells filled width.toNat ++ ']' :: ' ' :: decimal completed ++
      '/' :: decimal total ++ ['\n'])

/-- The calls of `print_progress_bar` in the next statement of `run_process`. -/
def RunProcess.bars (remainingTime : ℤ) (p : RunProcess) : RunAct → List (ℤ × ℤ)
  | .advance =>
    if p.stopped then []
    else match p.point with
    | .decrement =>
      let remaining := p.sharedRemainingTime - 1
      if remaining.tmod 5 = 0 ∨ remaining = 0 then [(remainingTime - remaining, remainingTime)]
      else []
    | .test => if p.sharedRemainingTime ≤ 0 then [(remainingTime, remainingTime)] else []
    | _ => []
  | _ => []

/-- The calls in a run of `run_process`, up to the first action that is not possible. -/
def progress (remainingTime schedulerPid : ℤ) : RunProcess → List RunAct → List (ℤ × ℤ)
  | _, [] => []
  | p, a :: as =>
    match p.next remainingTime schedulerPid a with
    | none => []
    | some p' => p.bars remainingTime a ++ progress remainingTime schedulerPid p' as

/-- The call divides by something, and draws a part of twenty cells where it is asked for one. -/
structure DrawnSafely (completed total : ℤ) : Prop where
  divides : total ≠ 0
  filled : 0 ≤ completed → completed ≤ total → total ≤ 10 ^ 8 →
    FitsInt (completed * 20) ∧ ∃ text, printProgressBar completed total 20 = some text ∧
      text.count '■' + text.count '□' = 20 ∧ (text.count '■' : ℤ) = completed * 20 / total

/-- The generator sends this message, and makes a process of it, in some run on these lines. -/
def SentOn (lines : List Process) (m : PCB) : Prop :=
  ∃ clk g, Reachable IntakeStep (Intake.initial clk lines) g ∧ m ∈ g.sent

/-- Every call is safe: in the processes made, and in a scheduler that receives the messages. -/
structure ReportsSafely (lines : List Process) : Prop where
  process : ∀ m, SentOn lines m → ∀ outside shmid schedulerPid args clk stopped as,
    processMain outside (execl "process.out".toList (processStrings m shmid schedulerPid)) =
      some args →
    ∀ bar ∈ progress args.runtime args.schedulerPid (.create m.remainingTime clk stopped) as,
      DrawnSafely bar.1 bar.2
  scheduler : ∀ algorithm quantum clk as l, (∀ m i, .receive m i ∈ as → SentOn lines m) →
    Trace LoopStep (Loop.initial algorithm quantum clk) as l →
    ∀ completed total, .progressBar completed total ∈ l.scheduler.trace →
      DrawnSafely completed total

variable {completed total remainingTime schedulerPid : ℤ} {bar : ℤ × ℤ} {a : RunAct}
  {as : List RunAct} {p : RunProcess} {line : Process} {lines : List Process} {m q : PCB}

/-! One bar. -/

theorem progressCells_succ (filled : ℤ) (n : ℕ) : progressCells filled (n + 1) =
    progressCells filled n ++ [if (n : ℤ) < filled then '■' else '□'] := by
  rw [progressCells, List.range_succ, List.map_append]
  rfl

theorem count_progressCells (filled : ℤ) (n : ℕ) :
    (progressCells filled n).count '■' = min n filled.toNat ∧
      (progressCells filled n).count '■' + (progressCells filled n).count '□' = n := by
  induction n with
  | zero => simp [progressCells]
  | succ n ih =>
    rw [progressCells_succ, List.count_append, List.count_append]
    obtain ⟨hfull, hall⟩ := ih
    by_cases h : (n : ℤ) < filled
    · rw [if_pos h]
      have hone : List.count '■' ['■'] = 1 := rfl
      have hnone : List.count '□' ['■'] = 0 := rfl
      omega
    · rw [if_neg h]
      have hone : List.count '□' ['□'] = 1 := rfl
      have hnone : List.count '■' ['□'] = 0 := rfl
      omega

/-- A number has no cells in it. -/
theorem count_decimal {c : Char} (hc : c.isDigit = false) (hm : c ≠ '-') (z : ℤ) :
    (decimal z).count c = 0 := by
  rw [List.count_eq_zero]
  intro h
  rcases mem_decimal h with hd | rfl
  · rw [hc] at hd
    cases hd
  · exact hm rfl

theorem count_printProgressBar {text : List Char}
    (h : printProgressBar completed total 20 = some text) (hfits : FitsInt (completed * 20)) :
    text.count '■' = min 20 ((completed * 20).tdiv total).toNat ∧
      text.count '■' + text.count '□' = 20 := by
  have hwrap : wrap32 (completed * 20) = completed * 20 := wrap32_eq hfits.1 hfits.2
  obtain ⟨hfull, hall⟩ := count_progressCells ((completed * 20).tdiv total) 20
  have hplain : ∀ c : Char, c = '■' ∨ c = '□' → text.count c =
      (progressCells ((completed * 20).tdiv total) 20).count c := by
    rintro c hc
    unfold printProgressBar at h
    split at h
    · cases h
    · obtain rfl := Option.some.inj h
      rcases hc with rfl | rfl <;> simp [hwrap, count_decimal]
  rw [hplain _ (Or.inl rfl), hplain _ (Or.inr rfl)]
  exact ⟨hfull, hall⟩

/-- Nothing but a division by zero goes wrong. -/
theorem drawnSafely_of_ne_zero (h : total ≠ 0) : DrawnSafely completed total := by
  refine ⟨h, ?_⟩
  intro hnonneg hle hbound
  have hpos : 0 < total := by omega
  have hfits : FitsInt (completed * 20) := ⟨by omega, by omega⟩
  have hdiv : (completed * 20).tdiv total = completed * 20 / total :=
    Int.tdiv_eq_ediv_of_nonneg (by omega)
  have hlow : 0 ≤ completed * 20 / total := Int.ediv_nonneg (by omega) (by omega)
  have hhigh : completed * 20 / total ≤ 20 := Int.ediv_le_of_le_mul hpos (by omega)
  have hdefined : ¬ (total = 0 ∨ wrap32 (completed * 20) = -2 ^ 31 ∧ total = -1) := by omega
  have htext : printProgressBar completed total 20 = some _ := if_neg hdefined
  obtain ⟨hfull, hall⟩ := count_printProgressBar htext hfits
  refine ⟨hfits, _, htext, hall, ?_⟩
  rw [hfull, hdiv]
  omega

/-! What `run_process` divides by. -/

theorem bars_total (h : bar ∈ p.bars remainingTime a) : bar.2 = remainingTime := by
  have hpair : ∀ (c : Prop) [Decidable c] (completed : ℤ),
      bar ∈ (if c then [(completed, remainingTime)] else []) → bar.2 = remainingTime := by
    intro c _ completed hbar
    split at hbar
    · rw [List.mem_singleton.mp hbar]
    · cases hbar
  cases a with
  | advance =>
    by_cases hs : p.stopped
    · simp [RunProcess.bars, hs] at h
    · rw [RunProcess.bars, if_neg hs] at h
      cases hp : p.point with
      | decrement | test =>
        rw [hp] at h
        exact hpair _ _ h
      | _ => simp [hp] at h
  | _ => cases h

theorem progress_total (h : bar ∈ progress remainingTime schedulerPid p as) :
    bar.2 = remainingTime := by
  induction as generalizing p with
  | nil => cases h
  | cons a as ih =>
    simp only [progress] at h
    split at h
    · cases h
    · rcases List.mem_append.mp h with h | h
      · exact bars_total h
      · exact ih h

theorem processMain_runtime {outside : ℤ → ℤ} {name : List Char} {shmid : ℤ}
    {args : ProcessArguments} (hruntime : FitsInt m.remainingTime)
    (h : processMain outside (execl name (processStrings m shmid schedulerPid)) = some args) :
    args.runtime = m.remainingTime := by
  simp only [processMain, execl, processStrings, sprintf, List.map_cons, List.map_nil,
    List.length_cons, List.length_nil] at h
  simp [atoi_decimal hruntime] at h
  rw [← h]

/-! What the generator sends. -/

/-- A PCB as it was filled from one of the lines. -/
structure FilledFrom (lines : List Process) (m : PCB) : Prop where
  line : m.process ∈ lines
  remaining : m.remainingTime = m.executionTime
  semid : 0 < m.syncSemid

structure FromLines (lines : List Process) (g : Intake) : Prop extends g.QueuesSound where
  unsent : ∀ line ∈ g.pq.toList, line ∈ lines
  waiting_filled : ∀ m ∈ g.waitingQueue.toList, FilledFrom lines m
  temp_filled : ∀ m ∈ g.tempQueue.toList, FilledFrom lines m
  sent_filled : ∀ m ∈ g.sent, FilledFrom lines m

variable {g g' : Intake} {act : IntakeAct} {clk pid shmId syncSemid : ℤ}

theorem FilledFrom.created (h : FilledFrom lines m) (pid shmId : ℤ) :
    FilledFrom lines { m with pid, shmId } := ⟨h.line, h.remaining, h.semid⟩

theorem filledFrom_newPcb (h : line ∈ lines) (hsem : 0 < syncSemid) :
    FilledFrom lines (line.newPcb pid shmId syncSemid) := ⟨h, rfl, hsem⟩

theorem forall_enqueue {queue : PCBQueue} (hv : queue.Valid)
    (h : ∀ m ∈ queue.toList, FilledFrom lines m) (hm : FilledFrom lines m) :
    ∀ q ∈ (queueEnqueue queue m).toList, FilledFrom lines q := by
  rw [(queueEnqueue_spec hv m).2]
  exact List.forall_mem_append.mpr ⟨h, List.forall_mem_singleton.mpr hm⟩

theorem forall_dequeue {queue : PCBQueue} (hv : queue.Valid) (hq : queueEmpty queue = false)
    (h : ∀ m ∈ queue.toList, FilledFrom lines m) :
    FilledFrom lines (queueFront queue) ∧ ∀ m ∈ (queueDequeue queue).toList, FilledFrom lines m := by
  rw [(queueDequeue_spec hv (queueSize_pos hq)).2] at h
  exact List.forall_mem_cons.mp h

theorem forall_pqPop {pq : PriorityQueue} (hq : pqEmpty pq = false)
    (h : ∀ line ∈ pq.toList, line ∈ lines) :
    pqTop pq ∈ lines ∧ ∀ line ∈ (pqPop pq).toList, line ∈ lines := by
  have hperm := pqPop_perm (size_pos hq)
  exact ⟨h _ (mem_pqTop (size_pos hq)),
    fun line hline => h line (hperm.symm.subset (List.mem_cons_of_mem _ hline))⟩

theorem fromLines_step (hg : FromLines lines g) (h : IntakeStep g act g') : FromLines lines g' := by
  have hqueues := (queues_step hg.toQueuesSound h).1
  cases h with
  | newTick hp hne =>
    have hempty : (queueInit 100 emptyFront).toList = [] := rfl
    refine ⟨hqueues, hg.unsent, hg.waiting_filled, ?_, hg.sent_filled⟩
    rw [hempty]
    exact List.forall_mem_nil _
  | serveGranted hp hq =>
    obtain ⟨hfront, hrest⟩ := forall_dequeue hg.waiting hq hg.waiting_filled
    exact ⟨hqueues, hg.unsent, hrest, hg.temp_filled, List.forall_mem_append.mpr
      ⟨hg.sent_filled, List.forall_mem_singleton.mpr (hfront.created _ _)⟩⟩
  | serveRefused hp hq =>
    obtain ⟨hfront, hrest⟩ := forall_dequeue hg.waiting hq hg.waiting_filled
    exact ⟨hqueues, hg.unsent, hrest, forall_enqueue hg.temp hg.temp_filled hfront, hg.sent_filled⟩
  | restore hp hq =>
    obtain ⟨hfront, hrest⟩ := forall_dequeue hg.temp hq hg.temp_filled
    exact ⟨hqueues, hg.unsent, forall_enqueue hg.waiting hg.waiting_filled hfront, hrest,
      hg.sent_filled⟩
  | admitGranted hp hq harr hsem =>
    obtain ⟨htop, hrest⟩ := forall_pqPop hq hg.unsent
    exact ⟨hqueues, hrest, hg.waiting_filled, hg.temp_filled, List.forall_mem_append.mpr
      ⟨hg.sent_filled, List.forall_mem_singleton.mpr (filledFrom_newPcb htop hsem)⟩⟩
  | admitRefused hp hq harr hsem =>
    obtain ⟨htop, hrest⟩ := forall_pqPop hq hg.unsent
    exact ⟨hqueues, hrest,
      forall_enqueue hg.waiting hg.waiting_filled (filledFrom_newPcb htop hsem),
      hg.temp_filled, hg.sent_filled⟩
  | _ => exact ⟨hqueues, hg.unsent, hg.waiting_filled, hg.temp_filled, hg.sent_filled⟩

theorem fromLines_initial (clk : ℤ) (lines : List Process) :
    FromLines lines (Intake.initial clk lines) := by
  have hempty : (queueInit 100 emptyFront).toList = [] := rfl
  have hinit : (queueInit 100 emptyFront).Valid := queueInit_valid emptyFront (by decide)
  have hread : (Intake.initial clk lines).pq.toList.Perm lines := readProcesses_perm
  have hwaiting : (Intake.initial clk lines).waitingQueue.toList = [] := hempty
  have htemp : (Intake.initial clk lines).tempQueue.toList = [] := hempty
  have hsent : (Intake.initial clk lines).sent = [] := rfl
  refine ⟨⟨hinit, hinit, fun _ _ => hempty⟩, fun line hline => hread.subset hline, ?_, ?_, ?_⟩
  · rw [hwaiting]
    exact List.forall_mem_nil _
  · rw [htemp]
    exact List.forall_mem_nil _
  · rw [hsent]
    exact List.forall_mem_nil _

/-- Every message carries the execution time of a line, as its remaining time as well. -/
theorem filledFrom_of_sent (h : SentOn lines m) : FilledFrom lines m := by
  obtain ⟨clk, g, hreach, hm⟩ := h
  have hg := hreach.invariant (fun _ _ _ hg hs => fromLines_step hg hs)
    (fromLines_initial clk lines)
  exact hg.sent_filled m hm

/-- With the tick late enough and memory for all, every line left is sent. -/
theorem sends_arrived (hp : g.point = .admitArrived) (hline : line ∈ g.pq.toList)
    (harr : ∀ other ∈ g.pq.toList, other.arrivalTime ≤ g.lastTick) :
    ∃ g', Reachable IntakeStep g g' ∧ line.newPcb 1 1 1 ∈ g'.sent := by
  induction hn : g.pq.size generalizing g with
  | zero =>
    have hempty := toList_eq_nil.mpr (show pqEmpty g.pq = true from beq_iff_eq.mpr hn)
    rw [hempty] at hline
    cases hline
  | succ n ih =>
    have hq : pqEmpty g.pq = false := beq_eq_false_iff_ne.mpr (by omega)
    have hperm := pqPop_perm (size_pos hq)
    have htop : (pqTop g.pq).arrivalTime ≤ g.lastTick := harr _ (mem_pqTop (size_pos hq))
    have hstep : IntakeStep g (.admitArrived true 1 1 1)
        { g with pq := pqPop g.pq, sent := g.sent ++ [(pqTop g.pq).newPcb 1 1 1] } :=
      .admitGranted hp hq htop (by decide)
    rcases List.mem_cons.mp (hperm.subset hline) with rfl | hline
    · exact ⟨_, Reachable.refl.snoc hstep, List.mem_append_right _ List.mem_cons_self⟩
    · have hsize : (pqPop g.pq).size = n := by
        rw [pqPop_size, hn, Nat.add_sub_cancel]
      have hrest : ∀ other ∈ (pqPop g.pq).toList, other.arrivalTime ≤ g.lastTick :=
        fun other hother => harr other (hperm.symm.subset (List.mem_cons_of_mem _ hother))
      obtain ⟨g', hreach, hsent⟩ := ih
        (g := { g with pq := pqPop g.pq, sent := g.sent ++ [(pqTop g.pq).newPcb 1 1 1] })
        hp hline hrest hsize
      exact ⟨g', (Reachable.refl.snoc hstep).trans hreach, hsent⟩

/-- Time passes. -/
theorem reachable_tick (g : Intake) (n : ℕ) :
    Reachable IntakeStep g { g with clock := g.clock + n } := by
  induction n with
  | zero =>
    rw [Nat.cast_zero, Int.add_zero]
    exact .refl
  | succ n ih =>
    have htick : IntakeStep { g with clock := g.clock + n } .tick
        { g with clock := g.clock + n + 1 } := .tick
    rw [Nat.cast_succ, ← Int.add_assoc]
    exact ih.snoc htick

/-- A new tick with nothing waiting. -/
theorem reachable_admission (hp : g.point = .top) (hne : g.clock ≠ g.lastTick)
    (hwaiting : queueEmpty g.waitingQueue = true) : Reachable IntakeStep g
      { g with
        lastTick := g.clock, tempQueue := queueInit 100 emptyFront, point := .admitArrived } :=
  ((Reachable.refl.snoc (.newTick hp hne)).snoc (.served rfl hwaiting)).snoc (.restored rfl rfl)

/-- Each line is sent in some run. -/
theorem sent_newPcb (hline : line ∈ lines) : SentOn lines (line.newPcb 1 1 1) := by
  obtain ⟨n, hn⟩ : ∃ n : ℕ, ∀ other ∈ lines, other.arrivalTime ≤ n := by
    clear hline
    induction lines with
    | nil => exact ⟨0, List.forall_mem_nil _⟩
    | cons other lines ih =>
      obtain ⟨n, hn⟩ := ih
      refine ⟨n + other.arrivalTime.toNat, List.forall_mem_cons.mpr ⟨by omega, ?_⟩⟩
      intro p hp
      have := hn p hp
      omega
  have hread : (Intake.initial 0 lines).pq.toList.Perm lines := readProcesses_perm
  have hclock : (Intake.initial 0 lines).clock + n ≠ (Intake.initial 0 lines).lastTick := by
    show (0 : ℤ) + n ≠ -1
    omega
  obtain ⟨g, hadmit, hp, hpq, htime⟩ : ∃ g, Reachable IntakeStep (Intake.initial 0 lines) g ∧
      g.point = .admitArrived ∧ g.pq = (Intake.initial 0 lines).pq ∧ g.lastTick = n :=
    ⟨_, (reachable_tick _ n).trans (reachable_admission rfl hclock rfl), rfl, rfl, Int.zero_add _⟩
  rw [← hpq] at hread
  obtain ⟨g', hreach, hsent⟩ := sends_arrived hp (hread.symm.subset hline) fun other hother => by
    rw [htime]
    exact hn other (hread.subset hother)
  exact ⟨0, g', hadmit.trans hreach, hsent⟩

/-! What the scheduler divides by. -/

namespace Scheduler

variable {s s' : Scheduler} {process : ℕ}

/-- The divisors still to come, and those of the bars drawn. -/
structure Divides (s : Scheduler) : Prop extends Sound s where
  held_ne : ∀ p ∈ s.held, p.executionTime ≠ 0
  counted : s.held ≠ [] → 0 < s.processCount
  drawn : ∀ completed total, .progressBar completed total ∈ s.trace → total ≠ 0

theorem Divides.of_eq (hs : Divides s) (hsound : Sound s') (hheld : s'.held = s.held)
    (hcount : s'.processCount = s.processCount) (ht : ∀ completed total,
      .progressBar completed total ∈ s'.trace → .progressBar completed total ∈ s.trace) :
    Divides s' := by
  refine ⟨hsound, hheld ▸ hs.held_ne, ?_, fun c t h => hs.drawn c t (ht c t h)⟩
  rw [hheld, hcount]
  exact hs.counted

theorem bar_stop {clk : ℤ} {sent : Bool} (h : .progressBar completed total ∈ stopEffects clk sent q) :
    total = q.executionTime := by
  rcases mem_stopEffects h with h | h | h <;> cases h
  rfl

theorem bar_cont {event : ProcessEvent} {clk : ℤ} {sent : Bool} :
    .progressBar completed total ∉ contEffects event clk sent q := by
  intro h
  rcases mem_contEffects h with h | h <;> cases h

/-- The times of the processes held and the divisors of the bars drawn were times of processes held
before, or divisors of bars drawn before. -/
structure KeepsDivisors (s s' : Scheduler) : Prop where
  held : ∀ q ∈ s'.held, ∃ p ∈ s.held, p.executionTime = q.executionTime
  drawn : ∀ completed total, .progressBar completed total ∈ s'.trace →
    .progressBar completed total ∈ s.trace ∨ ∃ p ∈ s.held, p.executionTime = total

theorem reread_divisors (h : Reread s s') : KeepsDivisors s s' := by
  refine ⟨?_, fun _ _ hbar => Or.inl (h.trace ▸ hbar)⟩
  intro q hq
  rcases h.current with hc | ⟨p, v, hc, hc'⟩
  · rw [held, hc, h.ready] at hq
    exact ⟨q, hq, rfl⟩
  · rw [held_some hc', h.ready] at hq
    rw [held_some hc]
    rcases List.mem_cons.mp hq with rfl | hq
    · exact ⟨p, List.mem_cons_self, rfl⟩
    · exact ⟨q, List.mem_cons_of_mem _ hq, rfl⟩

/-- A dispatch out of processes with times of ones held before. -/
theorem dispatched_held {clk : ℤ} (hc : s'.current = some (q.dispatched clk))
    (h : ∀ a ∈ q :: s'.ready, ∃ p ∈ s.held, p.executionTime = a.executionTime) :
    ∀ a ∈ s'.held, ∃ p ∈ s.held, p.executionTime = a.executionTime := by
  rw [held_some hc]
  obtain ⟨hq, hready⟩ := List.forall_mem_cons.mp h
  refine List.forall_mem_cons.mpr ⟨?_, hready⟩
  rw [PCB.dispatched_executionTime]
  exact hq

theorem move_divisors (h : Move s s') : KeepsDivisors s s' := by
  rcases h.outcome with hr | hw
  · exact reread_divisors hr
  cases hw with
  | kept p hc hc' hr ht => exact reread_divisors ⟨Or.inr ⟨p, 0, hc, hc'⟩, hr, ht⟩
  | idle hc hr hc' hr' ht => exact reread_divisors ⟨Or.inl (hc'.trans hc.symm), hr'.trans hr.symm, ht⟩
  | dispatched q sent hc hr hc' ht =>
    refine ⟨dispatched_held hc' fun a ha => ?_, fun c t hbar => ?_⟩
    · rw [held_none hc]
      exact ⟨a, hr.symm.subset ha, rfl⟩
    · rw [ht] at hbar
      exact Or.inl ((List.mem_append.mp hbar).resolve_right bar_cont)
  | replaced p q value stopped sent hc hr hroom hc' ht =>
    have hp : p ∈ s.held := by
      rw [held_some hc]
      exact List.mem_cons_self
    refine ⟨dispatched_held hc' fun a ha => ?_, fun c t hbar => ?_⟩
    · rcases List.mem_cons.mp (hr.subset ha) with rfl | ha
      · exact ⟨p, hp, rfl⟩
      · exact ⟨a, List.mem_append_right _ ha, rfl⟩
    · rw [ht] at hbar
      rcases List.mem_append.mp ((List.mem_append.mp hbar).resolve_right bar_cont) with hbar | hbar
      · exact Or.inl hbar
      · exact Or.inr ⟨p, hp, (bar_stop hbar).symm⟩

theorem divides_move (hs : Divides s) (h : Move s s') : Divides s' := by
  obtain ⟨hheld, hdrawn⟩ := move_divisors h
  refine ⟨h.sound, ?_, ?_, ?_⟩
  · intro q hq
    obtain ⟨p, hp, heq⟩ := hheld q hq
    exact heq ▸ hs.held_ne p hp
  · intro hne
    obtain ⟨q, hq⟩ := List.exists_mem_of_ne_nil _ hne
    obtain ⟨p, hp, -⟩ := hheld q hq
    rw [h.books.processCount]
    exact hs.counted (List.ne_nil_of_mem hp)
  · intro c t hbar
    rcases hdrawn c t hbar with hbar | ⟨p, hp, rfl⟩
    · exact hs.drawn c t hbar
    · exact hs.held_ne p hp

theorem divides_arrival (hs : Divides s) (hsem : 0 < m.syncSemid) (hne : m.executionTime ≠ 0) :
    Divides (s.handleProcessArrival m) := by
  obtain ⟨hsound, hb, hc, hsub, -, ht⟩ := handleProcessArrival_spec hs.toSound hsem
  refine ⟨hsound, ?_, fun _ => ?_, ?_⟩
  · intro q hq
    rw [held, hc] at hq
    rcases List.mem_append.mp hq with hq | hq
    · exact hs.held_ne q (List.mem_append_left _ hq)
    · rcases List.mem_cons.mp (hsub.subset hq) with rfl | hq
      · exact hne
      · exact hs.held_ne q (List.mem_append_right _ hq)
  · rw [hb.processCount]
    exact Nat.succ_pos _
  · intro c t hbar
    rw [ht] at hbar
    rcases List.mem_append.mp hbar with hbar | hbar
    · exact hs.drawn c t hbar
    · cases List.mem_singleton.mp hbar

theorem divides_retire (hs : Divides s) (hcp : s.currentProcess = some process) :
    Divides (s.retire process) := by
  obtain ⟨value, hsound, hb, hnone, hr, ht⟩ := retire_spec hs.toSound hcp
  have hheld := held_some (current_some hcp)
  have hheld' : (s.retire process).held = s.ready := by
    rw [held_none (current_eq_none.mpr hnone), hr]
  have hcount : 0 < s.processCount := hs.counted (by rw [hheld]; exact List.cons_ne_nil _ _)
  refine ⟨hsound, ?_, fun _ => ?_, ?_⟩
  · rw [hheld']
    exact fun q hq => hs.held_ne q (List.mem_append_right _ hq)
  · rw [hb.processCount]
    exact hcount
  · intro c t hbar
    rw [ht] at hbar
    rcases List.mem_append.mp hbar with hbar | hbar
    · exact hs.drawn c t hbar
    · unfold retireEffects at hbar
      split at hbar <;> simp at hbar <;> omega

theorem divides_preserved :
    Preserved Divides fun _ m => 0 < m.syncSemid ∧ m.executionTime ≠ 0 where
  sound := fun _ hs => hs.toSound
  semid := fun _ _ hm => hm.1
  clock := fun _ clk hs => hs.of_eq (hs.toSound.withClock clk) rfl rfl fun _ _ h => h
  feed := fun _ i hs => hs.of_eq (hs.toSound.feed i) rfl rfl fun _ _ h => h
  generator := fun _ hs =>
    hs.of_eq (sound_preserved.generator _ hs.toSound) rfl rfl fun _ _ h => h
  grant := fun s hs => by
    refine hs.of_eq hs.toSound.grantTick (grant_held s) (grantTick_books s).processCount ?_
    intro c t hbar
    unfold grantTick at hbar
    split at hbar
    · exact hbar
    · rcases List.mem_append.mp hbar with hbar | hbar
      · exact hbar
      · cases List.mem_singleton.mp hbar
  move := fun _ _ hs hm => divides_move hs hm
  arrival := fun _ _ hs hm => divides_arrival hs hm.1 hm.2
  retire := fun _ _ hs hc => divides_retire hs hc

theorem divides_initial (algorithm : SchedulingAlgorithm) (quantum clk : ℤ) :
    Divides (initial algorithm quantum clk) := by
  have hheld := initial_held algorithm quantum clk
  refine ⟨sound_initial algorithm quantum clk, ?_, ?_, nofun⟩
  · simp [hheld]
  · simp [hheld]

end Scheduler

theorem divides_run {algorithm : SchedulingAlgorithm} {quantum : ℤ} {acts : List LoopAct} {l : Loop}
    (ht : Trace LoopStep (Loop.initial algorithm quantum clk) acts l)
    (hreceived : ∀ m i, .receive m i ∈ acts → 0 < m.syncSemid ∧ m.executionTime ≠ 0) :
    l.scheduler.Divides := by
  induction ht with
  | refl => exact Scheduler.divides_initial algorithm quantum clk
  | snoc ht hs ih =>
    have hl := ih fun m i hm => hreceived m i (List.mem_append_left _ hm)
    refine Scheduler.divides_preserved.step hl ?_ hs
    rintro m i rfl
    exact hreceived m i (List.mem_append_right _ List.mem_cons_self)

theorem reportsSafely_of_ne_zero (hfits : ∀ line ∈ lines, FitsInt line.executionTime)
    (hne : ∀ line ∈ lines, line.executionTime ≠ 0) : ReportsSafely lines where
  process := by
    intro m hm outside shmid schedulerPid args clk stopped as hargs bar hbar
    obtain ⟨hline, hremaining, -⟩ := filledFrom_of_sent hm
    apply drawnSafely_of_ne_zero
    rw [progress_total hbar, processMain_runtime (hremaining ▸ hfits _ hline) hargs, hremaining]
    exact hne _ hline
  scheduler := by
    intro algorithm quantum clk acts l hreceived ht c t hbar
    have hdivides := divides_run ht fun m i hm =>
      have hfilled := filledFrom_of_sent (hreceived m i hm)
      ⟨hfilled.semid, hne _ hfilled.line⟩
    exact drawnSafely_of_ne_zero (hdivides.drawn c t hbar)

/-- A process without any work ends with a bar of nothing out of nothing. -/
theorem not_reportsSafely_of_zero (hline : line ∈ lines) (hzero : line.executionTime = 0) :
    ¬ ReportsSafely lines := by
  intro h
  have hremaining : (line.newPcb 1 1 1).remainingTime = 0 := hzero
  have hone : FitsInt 1 := by decide
  have hargs : processMain id (execl "process.out".toList
      (processStrings (line.newPcb 1 1 1) 1 1)) = some ⟨0, 1, 1, 1⟩ := by
    rw [processMain_execl (hremaining ▸ by decide) hone hone hone, hremaining]
    rfl
  have hbar : ((0 : ℤ), (0 : ℤ)) ∈ progress 0 1 (.create (line.newPcb 1 1 1).remainingTime 0 false)
      [.advance, .grant, .advance, .advance, .tick, .advance, .advance, .advance] := by
    rw [hremaining]
    decide
  exact (h.process _ (sent_newPcb hline) id 1 1 ⟨0, 1, 1, 1⟩ 0 false _ hargs _ hbar).divides rfl

/-- No bar divides by zero, whatever the schedules, exactly when every process has some time to
run. -/
theorem reportsSafely_iff (hfits : ∀ line ∈ lines, FitsInt line.executionTime) :
    ReportsSafely lines ↔ ∀ line ∈ lines, line.executionTime ≠ 0 :=
  ⟨fun h _ hline hzero => not_reportsSafely_of_zero hline hzero h, reportsSafely_of_ne_zero hfits⟩

/-- The example line of the documentation and one with a negative time. -/
theorem reportsSafely_positive : ReportsSafely [⟨1, 1, 6, 5, 200⟩, ⟨2, 3, -2, 1, 64⟩] :=
  (reportsSafely_iff (by decide)).mpr (by decide)

/-- A process drawn with no time to run. -/
theorem idleProcess_not_reportsSafely : ¬ ReportsSafely [⟨1, 0, 0, 5, 100⟩] :=
  not_reportsSafely_of_zero List.mem_cons_self rfl

end KernelSim
