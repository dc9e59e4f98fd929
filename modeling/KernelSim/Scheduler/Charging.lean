import KernelSim.Library.Tally
import KernelSim.Scheduler.Conservation
import KernelSim.Scheduler.Preemption

/-! What `active_cpu_time` contains: the run time of each process held that was started, and of each
one that has finished. -/
namespace KernelSim
open Relation

/-- What the charging knows of a process. -/
def PCB.job (p : PCB) : ℤ × ℤ := (p.pid, p.executionTime)

/-- What the process has been charged. -/
def PCB.charge (p : PCB) : ℤ := if p.startTime = -1 then 0 else p.executionTime

/-- A dispatched process has been charged for all of its run time. -/
theorem PCB.charge_dispatched {clk : ℤ} (hclk : clk ≠ -1) (p : PCB) :
    (p.dispatched clk).startTime ≠ -1 ∧ (p.dispatched clk).charge = p.executionTime := by
  have hstart : (p.dispatched clk).startTime ≠ -1 := by
    unfold PCB.dispatched
    split
    · exact hclk
    · assumption
  refine ⟨hstart, ?_⟩
  rw [PCB.charge, if_neg hstart, PCB.dispatched_executionTime]

namespace Scheduler

variable {s s' t : Scheduler} {process : ℕ} {p q : PCB} {clk : ℤ}

def jobs (s : Scheduler) : List (ℤ × ℤ) := s.held.map PCB.job

/-- What is left of `active_cpu_time` without the processes held. -/
def settled (s : Scheduler) : ℤ := s.activeCpuTime - (s.held.map PCB.charge).sum

/-- `start_time` is set by the first process started, and the current process was started. -/
structure Dated (s : Scheduler) : Prop where
  started : ∀ p, s.current = some p → p.startTime ≠ -1
  unstarted : s.startTime = -1 → ∀ p ∈ s.held, p.startTime = -1

theorem Dated.begun (h : Dated s) (hc : s.current ≠ none) : s.startTime ≠ -1 := by
  obtain ⟨p, hp⟩ := Option.ne_none_iff_exists'.mp hc
  intro hstart
  have hmem : p ∈ s.held := by
    rw [held_some hp]
    exact List.mem_cons_self
  exact h.started p hp (h.unstarted hstart p hmem)

/-- What a switch leaves of the charging. -/
structure Carried (s s' : Scheduler) : Prop where
  jobs : s'.jobs.Perm s.jobs
  settled : s'.settled = s.settled
  startTime : s'.startTime = s.startTime ∨ s.startTime = -1 ∧ s'.startTime = s.clockValue
  dated : Dated s'

theorem Carried.trans (h : Carried s t) (hclk : t.clockValue = s.clockValue)
    (h' : Carried t s') : Carried s s' := by
  refine ⟨h'.jobs.trans h.jobs, h'.settled.trans h.settled, ?_, h'.dated⟩
  rcases h.startTime with hst | ⟨hnew, hst⟩ <;> rcases h'.startTime with hst' | ⟨hnew', hst'⟩
  · exact Or.inl (hst'.trans hst)
  · exact Or.inr ⟨hst ▸ hnew', hst'.trans hclk⟩
  · exact Or.inr ⟨hnew, hst'.trans hst⟩
  · exact Or.inr ⟨hnew, hst'.trans hclk⟩

/-- The same processes, of which none has been started since. -/
theorem carried_same (hjobs : s'.jobs = s.jobs)
    (hcharge : s'.held.map PCB.charge = s.held.map PCB.charge) (ht : SameTimes s s')
    (hd' : Dated s') : Carried s s' := by
  refine ⟨by rw [hjobs], ?_, Or.inl ht.startTime, hd'⟩
  rw [settled, settled, hcharge, ht.activeCpuTime]

theorem carried_reread (hd : Dated s) (h : Reread s s') (ht : SameTimes s s') : Carried s s' := by
  rcases h.current with hc | ⟨p, v, hc, hc'⟩
  · have hheld : s'.held = s.held := by rw [held, hc, h.ready, held]
    refine carried_same (by rw [jobs, hheld, jobs]) (by rw [hheld]) ht ⟨?_, ?_⟩
    · rw [hc]
      exact hd.started
    · rw [hheld, ht.startTime]
      exact hd.unstarted
  · have hheld := held_some hc
    have hheld' : s'.held = { p with remainingTime := v } :: s.ready := by
      rw [held_some hc', h.ready]
    have hp := hd.started p hc
    refine carried_same ?_ ?_ ht ⟨?_, ?_⟩
    · rw [jobs, jobs, hheld, hheld']
      rfl
    · rw [hheld, hheld']
      rfl
    · intro q hq
      rw [hc', Option.some.injEq] at hq
      rw [← hq]
      exact hp
    · intro hstart
      have hcur : s.current ≠ none := by simp [hc]
      exact absurd (ht.startTime.symm.trans hstart) (hd.begun hcur)

/-- A dispatch of `q`, out of `held` and the only one to be current. -/
theorem carried_dispatch {held : List PCB} (hclk : s.clockValue ≠ -1)
    (hunstarted : s.startTime = -1 → ∀ p ∈ held, p.startTime = -1)
    (hjobs : (held.map PCB.job).Perm s.jobs)
    (hcharge : (held.map PCB.charge).sum = (s.held.map PCB.charge).sum)
    (hheld : held.Perm (q :: s'.ready)) (hc' : s'.current = some (q.dispatched s.clockValue))
    (hch : Charges s s' q) : Carried s s' := by
  obtain ⟨hstart, hfull⟩ := PCB.charge_dispatched hclk q
  have hheld' := held_some hc'
  have hsum := ((hheld.map PCB.charge).sum_eq).symm.trans hcharge
  rw [List.map_cons, List.sum_cons] at hsum
  have hbegun : s'.startTime ≠ -1 := by
    rw [hch.startTime]
    split
    · exact hclk
    · rename_i hnot
      intro heq
      refine hnot ⟨heq, hunstarted heq q ?_⟩
      exact hheld.mem_iff.mpr List.mem_cons_self
  refine ⟨?_, ?_, ?_, ?_, fun h => absurd h hbegun⟩
  · refine List.Perm.trans ?_ hjobs
    rw [jobs, hheld']
    refine List.Perm.trans ?_ (hheld.map PCB.job).symm
    rw [List.map_cons, List.map_cons, PCB.job, PCB.dispatched_pid, PCB.dispatched_executionTime,
      PCB.job]
  · have hactive := hch.activeCpuTime
    rw [settled, settled, hheld', List.map_cons, List.sum_cons, hfull, hactive, ← hsum, PCB.charge]
    split <;> omega
  · rw [hch.startTime]
    split
    · rename_i h
      exact Or.inr ⟨h.1, rfl⟩
    · exact Or.inl rfl
  · intro p hp
    rw [hc', Option.some.injEq] at hp
    rw [← hp]
    exact hstart

/-- A move that forgets no process: one that is stopped finds room in the ready structure. -/
structure KeepingMove (s s' : Scheduler) : Prop extends Moved s s' where
  keeps : s.current ≠ none → HasRoom s ∨ Reread s s'

theorem carried_move (hd : Dated s) (hclk : s.clockValue ≠ -1) (h : KeepingMove s s') :
    Carried s s' := by
  rcases h.outcome with ⟨hr, ht, -⟩ | hturn
  · exact carried_reread hd hr ht
  · cases hturn with
    | kept p hc hc' hr ht _ htimes =>
      exact carried_reread hd ⟨Or.inr ⟨p, 0, hc, hc'⟩, hr, ht⟩ htimes
    | idle hc hr hc' hr' ht _ htimes =>
      exact carried_reread hd ⟨Or.inl (hc'.trans hc.symm), hr'.trans hr.symm, ht⟩ htimes
    | dispatched q hc hq hc' ht _ hcharges =>
      have hheld := held_none hc
      exact carried_dispatch hclk hd.unstarted (.refl _) rfl (hheld ▸ hq.perm) hc' hcharges
    | replaced p q value queued hc hp hq hc' ht _ hcharges =>
      have hcur : s.current ≠ none := by simp [hc]
      rcases h.keeps hcur with hroom | hread
      · have hperm := hp.perm hroom
        have hheld := held_some hc
        refine carried_dispatch hclk (fun hst => absurd hst (hd.begun hcur)) ?_ ?_ hq.perm hc'
          hcharges
        · rw [jobs, hheld]
          exact hperm.map PCB.job
        · rw [hheld]
          exact (hperm.map PCB.charge).sum_eq
      · have hlen := congrArg List.length (hread.trace.symm.trans ht)
        simp [stopEffects] at hlen

theorem carried_moves (hd : Dated s) (hclk : s.clockValue ≠ -1)
    (h : ReflTransGen KeepingMove s s') : Carried s s' ∧ s'.clockValue = s.clockValue := by
  induction h with
  | refl => exact ⟨⟨.refl _, rfl, Or.inl rfl, hd⟩, rfl⟩
  | tail _ hm ih =>
    obtain ⟨hc, heq⟩ := ih
    exact ⟨hc.trans heq (carried_move hc.dated (heq ▸ hclk) hm),
      hm.books.clockValue.trans heq⟩

theorem permitted_keeping (hs : Sound s) (h : Permitted HasRoom s s') : KeepingMove s s' := by
  cases h with
  | read hc =>
    exact ⟨primitive_moved hs (.read hc), fun _ => Or.inr (updateProcessRemainingTime_reread hs hc)⟩
  | switch hroom =>
    refine ⟨primitive_moved hs .switch, fun hc => ?_⟩
    by_cases hstop : s.StopsCurrent
    · exact Or.inl (hroom hstop)
    · exact Or.inr ((contextSwitching_gentle hs hstop).gentle hc)

theorem keepings_of_permitted (hs : Sound s) (h : ReflTransGen (Permitted HasRoom) s s') :
    ReflTransGen KeepingMove s s' :=
  (permitted_lift (fun _ _ hm => hm.sound) (fun _ _ => permitted_keeping) hs h).1

theorem runSRTN_keeping (hs : Sound s) (hroom : s.Overtaken → HasRoom s) :
    ReflTransGen KeepingMove s s.runSRTNAlgorithm := by
  have halg := (moves_books (updateCurrent_moves hs)).algorithm
  have hready := (updateCurrent_reread hs).ready
  exact keepings_of_permitted hs (runSRTN_permitted fun hover => (hroom hover).congr halg hready)

/-- The queue of round robin has room for every process. -/
theorem runRR_keeping (hs : Sound s) (ha : s.algorithm = .RR) :
    ReflTransGen KeepingMove s s.runRRAlgorithm := by
  have hfill := gentles_moves (fillCpu_gentle hs)
  have hread := updateCurrent_moves (moves_sound hs hfill)
  have halg := ((moves_books hfill).trans (moves_books hread)).algorithm
  exact keepings_of_permitted hs (runRR_permitted fun _ => Or.inl (halg.trans ha))

theorem runAlgorithm_carried (hs : Sound s) (hd : Dated s) (hclk : s.clockValue ≠ -1)
    (hroom : s.Preempts → HasRoom s) : Carried s s.runAlgorithm := by
  have hmoves : ReflTransGen KeepingMove s s.runAlgorithm := by
    unfold Preempts at hroom
    unfold runAlgorithm
    split <;> rename_i ha <;> simp only [ha] at hroom
    · exact keepings_of_permitted hs (runHPF_permitted s)
    · exact runSRTN_keeping hs hroom
    · exact runRR_keeping hs ha
  exact (carried_moves hd hclk hmoves).1

theorem updateCurrent_times (s : Scheduler) : SameTimes s s.updateCurrent := by
  unfold updateCurrent
  split
  · exact .refl s
  · exact (updateProcessRemainingTime_times s _).1

theorem updateCurrent_carried (hs : Sound s) (hd : Dated s) : Carried s s.updateCurrent :=
  carried_reread hd (updateCurrent_reread hs) (updateCurrent_times s)

/-- A full heap does not take the new process, and is as it was. -/
theorem arrival_held (hs : Sound s) (hsem : 0 < p.syncSemid) :
    (s.handleProcessArrival p).held.Perm (p.arrived :: s.held) ∨
      (s.handleProcessArrival p).held = s.held := by
  obtain ⟨-, -, hc, -, hperm, -⟩ := handleProcessArrival_spec hs hsem
  by_cases hroom : HasRoom s
  · left
    rw [held, hc, held]
    exact ((hperm hroom).append_left _).trans List.perm_middle
  · right
    have hready := storeArrival_ready (p := p) hs.toStored
    have hfull : ¬ HasRoom (s.storeArrival p) :=
      fun h => hroom (HasRoom.congr (s := s.storeArrival p) rfl hready.symm h)
    have ha : s.algorithm ≠ .RR := fun ha => hroom (Or.inl ha)
    rw [held, hc, handleProcessArrival_heap ha,
      requeue_full (storeArrival_stored hs.toStored) hfull, hready, held]

/-- `s'` holds `jobs`, and `paid` was charged for the processes that have left since `s`. -/
structure Turnover (s s' : Scheduler) (jobs : List (ℤ × ℤ)) (paid : ℤ) : Prop where
  jobs : s'.jobs.Perm jobs
  settled : s'.settled = s.settled + paid
  startTime : s'.startTime = s.startTime
  dated : Dated s'

theorem Turnover.carried {jobs : List (ℤ × ℤ)} {paid : ℤ} (h : Turnover s t jobs paid)
    (h' : Carried t s') (hst : t.startTime ≠ -1) : Turnover s s' jobs paid := by
  refine ⟨h'.jobs.trans h.jobs, h'.settled.trans h.settled, ?_, h'.dated⟩
  rcases h'.startTime with heq | ⟨hnew, -⟩
  · exact heq.trans h.startTime
  · exact absurd hnew hst

theorem arrival_turnover (hs : Sound s) (hsem : 0 < p.syncSemid) (hd : Dated s) :
    Turnover s (s.handleProcessArrival p) (p.job :: s.jobs) 0 ∨
      Turnover s (s.handleProcessArrival p) s.jobs 0 := by
  obtain ⟨-, -, hc, -⟩ := handleProcessArrival_spec hs hsem
  obtain ⟨⟨hstart, hactive, -⟩, -⟩ := handleProcessArrival_times s p
  have hstarted : ∀ q, (s.handleProcessArrival p).current = some q → q.startTime ≠ -1 := by
    rw [hc]
    exact hd.started
  rcases arrival_held hs hsem with hperm | hsame
  · left
    refine ⟨hperm.map PCB.job, ?_, hstart, hstarted, ?_⟩
    · have hnone : p.arrived.charge = 0 := rfl
      rw [settled, settled, (hperm.map PCB.charge).sum_eq, List.map_cons, List.sum_cons, hnone,
        hactive]
      omega
    · intro hst q hq
      rcases List.mem_cons.mp (hperm.mem_iff.mp hq) with rfl | hq
      · rfl
      · exact hd.unstarted (hstart.symm.trans hst) q hq
  · right
    refine ⟨?_, ?_, hstart, hstarted, ?_⟩
    · rw [jobs, hsame, jobs]
    · rw [settled, settled, hsame, hactive]
      omega
    · rw [hsame, hstart]
      exact hd.unstarted

/-- A reception, when a process it preempts finds room in the heap. -/
theorem receiveMessage_turnover (hs : Sound s) (hsem : 0 < p.syncSemid) (hd : Dated s)
    (hclk : s.current ≠ none → s.clockValue ≠ -1)
    (hroom : s.algorithm = .SRTN → (s.handleProcessArrival p).Overtaken →
      HasRoom (s.handleProcessArrival p)) :
    Turnover s (s.receiveMessage p) (p.job :: s.jobs) 0 ∨
      Turnover s (s.receiveMessage p) s.jobs 0 := by
  obtain ⟨hsound, hb, hc, -⟩ := handleProcessArrival_spec hs hsem
  have hrun : ∀ jobs, Turnover s (s.handleProcessArrival p) jobs 0 →
      Turnover s (s.handleProcessArrival p).preemptOnArrival jobs 0 := by
    intro jobs h
    unfold preemptOnArrival
    split
    · rename_i hsrtn
      have hcur : (s.handleProcessArrival p).current ≠ none := current_eq_none.not.mpr hsrtn.2
      have hmoves := runSRTN_keeping hsound (hroom (hb.algorithm.symm.trans hsrtn.1))
      have hclk' : (s.handleProcessArrival p).clockValue ≠ -1 := by
        rw [hb.clockValue]
        exact hclk (hc ▸ hcur)
      exact h.carried (carried_moves h.dated hclk' hmoves).1 (h.dated.begun hcur)
    · exact h
  have hforget : ∀ jobs, Turnover s (s.handleProcessArrival p) jobs 0 →
      Turnover s (s.receiveMessage p) jobs 0 := by
    intro jobs h
    obtain ⟨hjobs, hsettled, hstart, hstarted, hunstarted⟩ := hrun jobs h
    obtain ⟨_, heq⟩ := receiveMessage_eq s p
    rw [heq]
    exact ⟨hjobs, hsettled, hstart, hstarted, hunstarted⟩
  exact (arrival_turnover hs hsem hd).imp (hforget _) (hforget _)

/-- The handler, when there is a current process. -/
theorem completion_turnover (hs : Sound s) (hd : Dated s) (hc : s.current = some p)
    (hclk : clk ≠ -1) :
    Turnover s (s.handleProcessCompletion clk) (s.ready.map PCB.job) p.executionTime := by
  have hs' := hs.withClock clk
  have hbegun : s.startTime ≠ -1 := hd.begun (by simp [hc])
  obtain ⟨process, hcp, rfl⟩ := Option.map_eq_some_iff.mp hc
  obtain ⟨value, hsound, hb, hnone, hready, -⟩ := retire_spec hs' hcp
  obtain ⟨⟨hstart, hactive, -⟩, -⟩ := retire_times { s with clockValue := clk } process
  have hnone' := current_eq_none.mpr hnone
  have hheld' : (retire { s with clockValue := clk } process).held = s.ready := by
    rw [held_none hnone', hready]
    rfl
  have hret : Turnover s (retire { s with clockValue := clk } process) (s.ready.map PCB.job)
      (s.pcbs process).executionTime := by
    refine ⟨?_, ?_, hstart, ?_, fun hst => absurd (hstart.symm.trans hst) hbegun⟩
    · rw [jobs, hheld']
    · have hcharge : (s.pcbs process).charge = (s.pcbs process).executionTime :=
        if_neg (hd.started _ hc)
      rw [settled, settled, hheld', held_some hc, List.map_cons, List.sum_cons, hcharge, hactive]
      dsimp only
      omega
    · simp [hnone']
  obtain ⟨hnil, -⟩ | ⟨process', hcp', hsame | ⟨-, hmoved⟩⟩ := completeCurrent_moved hs'
  · have hcur : s.current = none := hnil
    simp [hcur] at hc
  · obtain rfl : process = process' := Option.some.inj (hcp.symm.trans hcp')
    rw [handleProcessCompletion, hsame]
    exact hret
  · obtain rfl : process = process' := Option.some.inj (hcp.symm.trans hcp')
    have hmove : KeepingMove (retire { s with clockValue := clk } process)
        (completeCurrent { s with clockValue := clk }) := ⟨hmoved, fun hne => absurd hnone' hne⟩
    have hcarried := carried_move hret.dated (hb.clockValue.trans_ne hclk) hmove
    exact hret.carried hcarried (hstart.trans_ne hbegun)

theorem grantTick_turnover (hd : Dated s) : Turnover s s.grantTick s.jobs 0 := by
  rw [grantTick_eq]
  exact ⟨.refl _, (add_zero _).symm, rfl, hd.started, hd.unstarted⟩

theorem settled_nil (h : s.held = []) : s.settled = s.activeCpuTime := by
  rw [settled, h, List.map_nil, List.sum_nil, sub_zero]

end Scheduler

end KernelSim
