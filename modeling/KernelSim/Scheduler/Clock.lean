import KernelSim.Scheduler.MainLoop

/-! `clockValue` over a run: it is `-1` only while no process is current, before the loop reads the
clock again. -/
namespace KernelSim
open Runs Relation

namespace Scheduler

variable {s s' : Scheduler} {p : PCB} {clk : ℤ}

theorem moved_clockValue (h : ReflTransGen Moved s s') : s'.clockValue = s.clockValue :=
  (moves_books (moved_moves h)).clockValue

/-- Reception keeps the time, or forgets it when no process is current. -/
theorem receiveMessage_clockValue (hs : Sound s) (hsem : 0 < p.syncSemid) :
    Sound (s.receiveMessage p) ∧
      ((s.receiveMessage p).clockValue = s.clockValue ∧ s.current ≠ none ∨
        (s.receiveMessage p).clockValue = -1 ∧ (s.receiveMessage p).current = none) := by
  obtain ⟨hsound, hb, hc, -⟩ := handleProcessArrival_spec hs hsem
  obtain ⟨hmoved, hor⟩ := preemptOnArrival_moved hsound
  have hclk := (moved_clockValue hmoved).trans hb.clockValue
  have ht := moved_sound hsound hmoved
  have hcur : (s.handleProcessArrival p).preemptOnArrival.current ≠ none → s.current ≠ none := by
    intro hne
    rw [← hc]
    rcases hor with heq | ⟨-, hne', -⟩
    · rwa [heq] at hne
    · exact hne'
  unfold receiveMessage
  generalize (s.handleProcessArrival p).preemptOnArrival = t at *
  cases hnone : t.current with
  | none =>
    rw [forgetTick_none hnone]
    exact ⟨ht.withClock (-1), Or.inr ⟨rfl, hnone⟩⟩
  | some q =>
    have hne : t.current ≠ none := by simp [hnone]
    rw [forgetTick_some hne]
    exact ⟨ht, Or.inl ⟨hclk, hcur hne⟩⟩

end Scheduler

open Scheduler

/-- The clock and the two variables that hold its value. -/
structure Clocked (l : Loop) : Prop where
  sound : Sound l.scheduler
  currentTime : 0 ≤ l.currentTime
  currentTime_le : l.currentTime ≤ l.clock
  clockValue_le : l.scheduler.clockValue ≤ l.clock
  current : l.scheduler.current ≠ none → 0 ≤ l.scheduler.clockValue
  run : l.point = .runAlgorithm → 0 ≤ l.scheduler.clockValue

variable {l l' : Loop} {a : LoopAct}

theorem clocked_step (hl : Clocked l) (hok : SemidsValid l a) (h : LoopStep l a l') :
    Clocked l' := by
  have hsound : Sound l'.scheduler := by
    refine sound_preserved.step hl.sound ?_ h
    rintro p i rfl
    exact hok
  have h0 := hl.currentTime
  have hle := hl.currentTime_le
  have hclk := hl.clockValue_le
  cases h with
  | tick =>
    exact ⟨hsound, h0, by dsimp only; omega, by dsimp only; omega, hl.current, hl.run⟩
  | sigusr1 hp => exact ⟨hsound, h0, hle, hclk, hl.current, hl.run⟩
  | @sigusr2 i hp =>
    have hnow := l.complete_clockValue i
    exact ⟨hsound, h0, hle, hnow.le, fun _ => by rw [hnow]; omega, fun _ => by rw [hnow]; omega⟩
  | @receive p i hp =>
    obtain ⟨-, hor⟩ := receiveMessage_clockValue (hl.sound.feed i) hok
    refine ⟨hsound, h0, hle, ?_, ?_, fun hrun => ?_⟩
    · rcases hor with ⟨heq, -⟩ | ⟨heq, -⟩
      · exact heq.le.trans hclk
      · dsimp only
        omega
    · intro hne
      rcases hor with ⟨heq, hcur⟩ | ⟨-, hnone⟩
      · exact (hl.current hcur).trans heq.ge
      · exact absurd hnone hne
    · rw [hp] at hrun
      cases hrun
  | getClk hp =>
    exact ⟨hsound, h0.trans hle, le_refl _, hclk, hl.current, fun hrun => by cases hrun⟩
  | assign hp => exact ⟨hsound, h0, hle, hle, fun _ => h0, fun _ => h0⟩
  | @runAlgorithm i hp =>
    have heq := moved_clockValue (runAlgorithm_moved (hl.sound.feed i))
    exact ⟨hsound, h0, hle, heq.le.trans hclk, fun _ => (hl.run hp).trans heq.ge,
      fun hrun => by cases hrun⟩
  | grant hp =>
    have heq := (grantTick_books l.scheduler).clockValue
    have hcur := grantTick_current l.scheduler
    exact ⟨hsound, h0, hle, heq.le.trans hclk, fun hne => (hl.current (hcur ▸ hne)).trans heq.ge,
      fun hrun => by cases hrun⟩
  | @refresh i hp =>
    have hmoved := updateCurrent_moved (hl.sound.feed i)
    have heq := moved_clockValue hmoved
    refine ⟨hsound, h0, hle, heq.le.trans hclk, fun hne => (hl.current ?_).trans heq.ge,
      fun hrun => by cases hrun⟩
    intro hnone
    have hsame : (l.scheduler.feed i).updateCurrent = l.scheduler.feed i := by
      have hcp := current_eq_none.mp hnone
      simp only [updateCurrent, Scheduler.feed, hcp]
    exact hne (by rw [hsame]; exact hnone)
  | _ => exact ⟨hsound, h0, hle, hclk, hl.current, fun hrun => by cases hrun⟩

theorem clocked_initial (algorithm : SchedulingAlgorithm) (quantum : ℤ) {clk : ℤ} (h : 0 ≤ clk) :
    Clocked (Loop.initial algorithm quantum clk) := by
  refine ⟨sound_initial algorithm quantum clk, h, le_refl _, ?_, fun hne => absurd rfl hne,
    fun hrun => by cases hrun⟩
  show clk - 1 ≤ clk
  omega

end KernelSim
