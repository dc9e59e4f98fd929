import KernelSim.Library.LeastRemaining
import KernelSim.Scheduler.Shortest

/-! Under SRTN no other use of the same CPU time leaves fewer processes unfinished. -/
namespace KernelSim
open Runs LeastRemaining

/-- The remaining time as a number of units. -/
def PCB.unitsLeft (p : PCB) : ℕ := p.remainingTime.toNat

@[simp] theorem PCB.dispatched_unitsLeft (clk : ℤ) (p : PCB) :
    (p.dispatched clk).unitsLeft = p.unitsLeft := by
  unfold PCB.dispatched
  split <;> rfl

/-- The units of time that a message asks for. -/
def LoopAct.brings : LoopAct → List ℕ
  | .receive p _ => [p.executionTime.toNat]
  | _ => []

namespace Scheduler

/-- What the processes held still have to run, as far as it has been read. -/
def work (s : Scheduler) : List ℕ := s.held.map PCB.unitsLeft

/-- The current process alone may have run meanwhile. -/
inductive Spends (s s' : Scheduler) : Prop
  | idle (h : s'.work.Perm s.work)
  | lowered (c : PCB) (y : ℕ) (hc : s.current = some c) (hy : y ≤ c.unitsLeft)
      (h : s'.work.Perm (y :: s.ready.map PCB.unitsLeft))

variable {s s' t : Scheduler} {p c c' : PCB} {process : ℕ}

theorem work_none (hc : s.current = none) : s.work = s.ready.map PCB.unitsLeft := by
  rw [work, held_none hc]

theorem work_some (hc : s.current = some c) :
    s.work = c.unitsLeft :: s.ready.map PCB.unitsLeft := by
  rw [work, held_some hc, List.map_cons]

theorem Spends.after_reading (hc : s.current = some c) (hc' : t.current = some c')
    (hle : c'.remainingTime ≤ c.remainingTime) (hr : t.ready = s.ready) (h : Spends t s') :
    Spends s s' := by
  have hle : c'.unitsLeft ≤ c.unitsLeft := Int.toNat_le_toNat hle
  cases h with
  | idle h =>
    rw [work_some hc', hr] at h
    exact .lowered c _ hc hle h
  | lowered b y hb hy h =>
    rw [hc', Option.some.injEq] at hb
    subst hb
    rw [hr] at h
    exact .lowered c y hc (hy.trans hle) h

theorem reading_lowers (hs : Keyed s) (hgood : GoodReadings s)
    (hcp : s.currentProcess = some process) :
    ∃ c, (s.updateProcessRemainingTime process).current = some c ∧
      c.remainingTime ≤ (s.pcbs process).remainingTime ∧
      (s.updateProcessRemainingTime process).ready = s.ready := by
  have hc := current_some hcp
  obtain ⟨v, htouch, -, hv⟩ := updateProcessRemainingTime_spec s process
  obtain ⟨-, hvx, -⟩ := reads_decreasing (hgood _ hc) (hs.current_timely hc).1 hv
  exact ⟨_, htouch.current hcp, hvx, htouch.ready (hs.current_notMem _ hcp)⟩

theorem switchToNext_work (hst : Stored s) (hsem : ∀ p ∈ s.ready, 0 < p.syncSemid) :
    s.switchToNext.work.Perm (s.ready.map PCB.unitsLeft) := by
  obtain ⟨-, -, ⟨hr, hr', hc, -⟩ | ⟨q, -, hr, hc, -⟩⟩ := switchToNext_spec hst hsem
  · rw [work_none hc, hr, hr']
  · rw [work_some hc, PCB.dispatched_unitsLeft]
    exact (hr.map PCB.unitsLeft).symm

theorem spends_contextSwitching (hs : Keyed s) (hgood : GoodReadings s) :
    Spends s s.contextSwitching := by
  cases hcp : s.currentProcess with
  | none =>
    rw [contextSwitching_none hcp]
    have hwork := work_none (current_eq_none.mpr hcp)
    exact .idle (hwork ▸ switchToNext_work hs.toStored hs.ready_semid)
  | some process =>
    have hc := current_some hcp
    have hroom : HasRoom s := by
      right
      have hlen := hs.room.resolve_left (by simp [hs.algorithm])
      rw [held_some hc] at hlen
      exact hlen
    obtain ⟨c, hc', hle, hr⟩ := reading_lowers hs hgood hcp
    rw [contextSwitching_some hs.toSound hcp]
    obtain ⟨v, v', stopped, -, -, htouch, -, hv, rest, hv'⟩ := preempt_spec s process
    obtain ⟨hv0, hvx, hrest⟩ := reads_decreasing (hgood _ hc) (hs.current_timely hc).1 hv
    obtain ⟨-, hvv', -⟩ := reads_decreasing hrest hv0 hv'
    generalize s.updateProcessRemainingTime process = u at *
    split
    · exact Spends.after_reading hc hc' hle hr (.idle (.refl _))
    · have hready := htouch.ready (hs.current_notMem _ hcp)
      obtain ⟨hstored, hlt, hfresh⟩ := htouch.insertable hs.toAllocated hcp
      obtain ⟨-, hqs, -, -, hsub, hperm⟩ := requeue_spec hstored hlt hfresh
      have hperm := hperm (HasRoom.congr htouch.algorithm hready hroom)
      have hsem : ∀ p ∈ ((u.preemptProcess process).requeue process).ready, 0 < p.syncSemid := by
        intro p hp
        rcases List.mem_cons.mp (hsub.subset hp) with rfl | hp
        · rw [htouch.pcb]
          exact hs.current_semid (s.pcbs process) hc
        · exact hs.ready_semid p (hready ▸ hp)
      refine .lowered _ v'.toNat hc (Int.toNat_le_toNat (hvv'.trans hvx)) ?_
      refine (switchToNext_work hqs hsem).trans ((hperm.map PCB.unitsLeft).trans ?_)
      rw [List.map_cons, htouch.pcb, hready]
      exact .refl _

theorem spends_updateCurrent (hs : Keyed s) (hgood : GoodReadings s) :
    Spends s s.updateCurrent := by
  unfold updateCurrent
  split
  · exact .idle (.refl _)
  · rename_i process hcp
    obtain ⟨c, hc, hle, hr⟩ := reading_lowers hs hgood hcp
    exact Spends.after_reading (current_some hcp) hc hle hr (.idle (.refl _))

theorem spends_runSRTN (hs : Keyed s) (hgood : GoodReadings s) : Spends s s.runSRTNAlgorithm := by
  have hrun : ∀ t : Scheduler, Keyed t → GoodReadings t → t = s.updateCurrent →
      Spends t s.runSRTNAlgorithm := by
    rintro t ht hg rfl
    have hswitch := spends_contextSwitching ht hg
    unfold runSRTNAlgorithm
    dsimp only
    split
    · split
      · exact hswitch
      · split
        · exact hswitch
        · exact .idle (.refl _)
    · exact .idle (.refl _)
  obtain ⟨hk, hg, -⟩ := keyed_updateCurrent hs hgood
  have hrun := hrun _ hk hg rfl
  cases hcp : s.currentProcess with
  | none =>
    have heq : s.updateCurrent = s := by simp only [updateCurrent, hcp]
    rw [heq] at hrun
    exact hrun
  | some process =>
    have heq : s.updateCurrent = s.updateProcessRemainingTime process := by
      simp only [updateCurrent, hcp]
    rw [heq] at hrun
    obtain ⟨c, hc, hle, hr⟩ := reading_lowers hs hgood hcp
    exact hrun.after_reading (current_some hcp) hc hle hr

/-- As the current process was a shortest one, the time went to a job with the least time left. -/
theorem Spends.works (hl : Least s) (hc : t.current = s.current) {new : List ℕ}
    (hr : (t.ready.map PCB.unitsLeft).Perm (new ++ s.ready.map PCB.unitsLeft))
    (h : Spends t s') : ∃ d, Works d new s.work s'.work := by
  cases h with
  | idle h =>
    have hall : t.work.Perm (new ++ s.work) := by
      cases hcur : s.current with
      | none => rwa [work_none (hc.trans hcur), work_none hcur]
      | some c =>
        rw [work_some (hc.trans hcur), work_some hcur]
        exact (hr.cons _).trans List.perm_middle.symm
    exact ⟨0, .idle rfl (h.trans hall)⟩
  | lowered c y hcur hy h =>
    have hcur := hc.symm.trans hcur
    refine ⟨c.unitsLeft - y, .lowered (.of_eq (work_some hcur)) ?_ (by omega)
      (h.trans ((hr.cons y).trans List.perm_middle.symm))⟩
    intro z hz
    obtain ⟨p, hp, rfl⟩ := List.mem_map.mp hz
    exact Int.toNat_le_toNat (hl c hcur p hp)

theorem works_receiveMessage (hs : Keyed s) (hl : Least s) (hgood : GoodReadings s)
    (hsem : 0 < p.syncSemid) (hroom : s.held.length < 1024) (h0 : 0 ≤ p.executionTime)
    (h1 : p.executionTime < 2 ^ 31) :
    ∃ d, Works d [p.executionTime.toNat] s.work (s.receiveMessage p).work := by
  have hk := keyed_arrival hs hsem hroom h0 h1
  obtain ⟨-, -, hc, -, hperm, -⟩ := handleProcessArrival_spec hs.toSound hsem
  have hlen : s.ready.length ≤ s.held.length := by simp [held]
  have hready := (hperm (Or.inr (by omega))).map PCB.unitsLeft
  have hspends : Spends (s.handleProcessArrival p) (s.receiveMessage p) := by
    obtain ⟨clk, heq⟩ := receiveMessage_eq s p
    have hwork : (s.receiveMessage p).work = (s.handleProcessArrival p).preemptOnArrival.work := by
      rw [heq]
      rfl
    have hg : GoodReadings (s.handleProcessArrival p) := by
      unfold GoodReadings
      rw [hc, handleProcessArrival_readings]
      exact hgood
    have hrun : Spends (s.handleProcessArrival p) (s.handleProcessArrival p).preemptOnArrival := by
      unfold preemptOnArrival
      split
      · exact spends_runSRTN hk hg
      · exact .idle (.refl _)
    cases hrun with
    | idle h => exact .idle (hwork ▸ h)
    | lowered c y hc hy h => exact .lowered c y hc hy (hwork ▸ h)
  exact hspends.works hl hc hready

theorem works_completion (hs : Keyed s) (hl : Least s) (clk : ℤ) :
    ∃ d, Works d [] s.work (s.handleProcessCompletion clk).work := by
  have hk := hs.withClock clk
  obtain ⟨-, heq⟩ | ⟨process, hcp, heq⟩ := completion_cases s clk
  · rw [heq]
    exact ⟨0, .idle rfl (.refl _)⟩
  · have hret := keyed_retire hk hcp
    obtain ⟨_, -, -, hnone, hready, -⟩ := retire_spec hk.toSound hcp
    have hnone := current_eq_none.mpr hnone
    have hwork : (s.handleProcessCompletion clk).work.Perm (s.ready.map PCB.unitsLeft) := by
      rcases heq with heq | heq
      · rw [heq, work_none hnone, hready]
        exact .refl _
      · rw [heq, contextSwitching_none (current_eq_none.mp hnone)]
        refine (switchToNext_work hret.toStored hret.ready_semid).trans ?_
        rw [hready]
        exact .refl _
    have hcur := current_some hcp
    refine ⟨_, .finished (.of_eq (work_some hcur)) ?_ hwork⟩
    intro z hz
    obtain ⟨p, hp, rfl⟩ := List.mem_map.mp hz
    exact Int.toNat_le_toNat (hl _ hcur p hp)

theorem keyed_initial (quantum clk : ℤ) :
    Keyed (initial .SRTN quantum clk) ∧ Least (initial .SRTN quantum clk) := by
  have hready : (initial .SRTN quantum clk).ready = [] := rfl
  have hcur : (initial .SRTN quantum clk).current = none := current_eq_none.mpr rfl
  have hheld : (initial .SRTN quantum clk).held = [] := (held_none hcur).trans hready
  refine ⟨⟨conserved_initial .SRTN quantum clk, rfl, ?_, ?_⟩, ?_⟩
  · rw [hheld]
    exact fun p hp => absurd hp List.not_mem_nil
  · exact fun i _ hin => absurd hin (Nat.not_lt_zero i)
  · rw [Least, hcur]
    exact fun c hc => absurd hc (Option.some_ne_none c).symm

end Scheduler

open Scheduler

variable {l l' : Loop} {a : LoopAct}

/-- One step of the loop serves a process with the least time left, if it serves any. -/
theorem works_step (hk : Keyed l.scheduler) (hl : Least l.scheduler) (hok : Measurable l a)
    (h : LoopStep l a l') : ∃ d, Works d a.brings l.scheduler.work l'.scheduler.work := by
  have hsame : Works 0 [] l.scheduler.work l.scheduler.work := .idle rfl (.refl _)
  cases h with
  | @sigusr2 i hp => exact works_completion (hk.feed i) hl _
  | @receive p i hp =>
    obtain ⟨hsem, h0, h1, hroom, hgood⟩ := hok
    exact works_receiveMessage (hk.feed i) hl hgood hsem hroom h0 h1
  | @runAlgorithm i hp =>
    have halg : (l.scheduler.feed i).algorithm = .SRTN := hk.algorithm
    have hspends := spends_runSRTN (hk.feed i) hok
    simp only [Scheduler.runAlgorithm, halg]
    exact hspends.works (s := l.scheduler.feed i) hl rfl (.refl _)
  | grant hp =>
    have hwork : l.scheduler.grantTick.work = l.scheduler.work := by
      rw [work, grant_held, work]
    exact ⟨0, .idle rfl (.of_eq hwork)⟩
  | @refresh i hp =>
    exact (spends_updateCurrent (hk.feed i) hok).works (s := l.scheduler.feed i) hl rfl (.refl _)
  | _ => exact ⟨0, hsame⟩

/-- The scheduler, and a rival that has the same processes to run. The two counters add up how many
processes are unfinished at each tick of the clock. -/
structure Contest where
  loop : Loop
  rival : List ℕ
  flow : ℕ
  rivalFlow : ℕ

/-- With each step of the scheduler the rival spends the units of time that the scheduler has
spent, on whichever processes it likes, and gets the same message. -/
structure ContestStep (c : Contest) (a : LoopAct) (c' : Contest) : Prop where
  step : LoopStep c.loop a c'.loop
  rival : ∃ d served,
    a.brings.sum + c.loop.scheduler.work.sum = c'.loop.scheduler.work.sum + d ∧
      Serves d c.rival served ∧ c'.rival = a.brings ++ served
  flow : c'.flow = c.flow + if a = .tick then undone c.loop.scheduler.work else 0
  rivalFlow : c'.rivalFlow = c.rivalFlow + if a = .tick then undone c.rival else 0

/-- In every SRTN run, at every moment no more processes are unfinished than under any other use of
the same time, and so their times in the system do not add up to more. -/
theorem srtn_optimal (quantum clk : ℤ) (as : List LoopAct) :
    Always (Restrict (fun c a => Measurable c.loop a) ContestStep)
      ⟨Loop.initial .SRTN quantum clk, [], 0, 0⟩ as
      fun c => undone c.loop.scheduler.work ≤ undone c.rival ∧ c.flow ≤ c.rivalFlow := by
  intro pre c _ ht
  have hinv := ht.invariant (P := fun c => (Keyed c.loop.scheduler ∧ Least c.loop.scheduler) ∧
    Ahead c.loop.scheduler.work c.rival ∧ c.flow ≤ c.rivalFlow) ?_ ?_
  · exact ⟨hinv.2.1.undone_le, hinv.2.2⟩
  · rintro c a c' ⟨⟨hk, hl⟩, hahead, hflow⟩ ⟨hok, hstep, ⟨d, served, hd, hserves, hrival⟩, hf, hf'⟩
    refine ⟨keyed_step hk hl hok hstep, ?_, ?_⟩
    · obtain ⟨d', hworks⟩ := works_step hk hl hok hstep
      have hsum := hworks.sum
      obtain rfl : d' = d := by omega
      rw [hrival]
      exact hahead.works hworks hserves
    · have hundone := hahead.undone_le
      rw [hf, hf']
      split <;> omega
  · exact ⟨keyed_initial quantum clk, fun _ => Nat.le_refl _, Nat.le_refl _⟩

/-- One step, against a rival that serves first what came first. -/
def Contest.next (c : Contest) (a : LoopAct) : Option Contest :=
  (c.loop.next a).bind fun l =>
    let due := a.brings.sum + c.loop.scheduler.work.sum
    let spent := due - l.scheduler.work.sum
    if due = l.scheduler.work.sum + spent then
      some { loop := l
             rival := a.brings ++ (inOrder spent c.rival.reverse).reverse
             flow := c.flow + if a = .tick then undone c.loop.scheduler.work else 0
             rivalFlow := c.rivalFlow + if a = .tick then undone c.rival else 0 }
    else none

theorem contestStep_of_next {c c' : Contest} (h : c.next a = some c') : ContestStep c a c' := by
  obtain ⟨l, hl, h⟩ := Option.bind_eq_some_iff.mp h
  obtain ⟨hdue, h⟩ := Option.ite_none_right_eq_some.mp h
  cases h
  refine ⟨loopStep_of_next hl, ⟨_, _, hdue, ?_, rfl⟩, rfl, rfl⟩
  have hserves := (serves_inOrder (a.brings.sum + c.loop.scheduler.work.sum - l.scheduler.work.sum)
    c.rival.reverse).reverse
  rwa [List.reverse_reverse] at hserves

/-- While the first process has two of its three units left, a second one comes and runs first. -/
def overtakenRun : List LoopAct :=
  [.advance {}, .downNb true,
    .receive { emptyFront with idFromFile := 1, executionTime := 3, syncSemid := 5 } {},
    .noMessage] ++
  List.replicate 6 (.advance {}) ++
  [.tick, .advance {}, .advance {}, .downNb true,
    .receive { emptyFront with idFromFile := 2, executionTime := 1, syncSemid := 6 }
      ⟨[some 2, some 2], []⟩, .noMessage] ++
  List.replicate 6 (.advance {}) ++ [.tick, .sigusr2 ⟨[some 0], []⟩, .tick]

theorem srtn_optimal_overtaken :
    ∃ c, (c.loop.scheduler.work = [2] ∧ c.rival = [1, 1] ∧ c.flow = 4 ∧ c.rivalFlow = 5) ∧
      Trace (Restrict (fun c a => Measurable c.loop a) ContestStep)
        ⟨Loop.initial .SRTN 0 0, [], 0, 0⟩ overtakenRun c ∧
      undone c.loop.scheduler.work ≤ undone c.rival ∧ c.flow ≤ c.rivalFlow := by
  obtain ⟨c, hrun, htest⟩ := exists_trace_of_execute (fun _ _ _ => contestStep_of_next)
    (show (execute (fun c a => Measurable c.loop a) Contest.next
      ⟨Loop.initial .SRTN 0 0, [], 0, 0⟩ overtakenRun).any
      (fun c => c.loop.scheduler.work = [2] ∧ c.rival = [1, 1] ∧ c.flow = 4 ∧ c.rivalFlow = 5) =
        true by decide +kernel)
  exact ⟨c, of_decide_eq_true htest, hrun, srtn_optimal 0 0 _ _ c (List.prefix_refl _) hrun⟩

end KernelSim
