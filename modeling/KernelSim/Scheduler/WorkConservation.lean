import KernelSim.Scheduler.Conservation

/-! When an iteration of the loop that finds work sets one semaphore, and when it sets none. -/
namespace KernelSim
open Runs Relation

/-- The semaphore an effect sets to 1. -/
def Effect.grantedSemid : Effect → Option ℤ
  | .grant p => some p.syncSemid
  | _ => none

namespace Scheduler

variable {s s' t : Scheduler} {p : PCB} {process : ℕ}

/-- `s'` is `s` after some effects, none of which sets a semaphore. -/
def Ungranted (s s' : Scheduler) : Prop :=
  ∃ es, s'.trace = s.trace ++ es ∧ es.filterMap Effect.grantedSemid = []

theorem Ungranted.of_eq (h : s'.trace = s.trace) : Ungranted s s' := ⟨[], by simp [h]⟩

theorem Ungranted.trans (h : Ungranted s t) (h' : Ungranted t s') : Ungranted s s' := by
  obtain ⟨es, ht, hes⟩ := h
  obtain ⟨fs, ht', hfs⟩ := h'
  exact ⟨es ++ fs, by rw [ht', ht, List.append_assoc], by rw [List.filterMap_append, hes, hfs]; rfl⟩

theorem grantedSemid_ofSwitch {e : Effect} (h : e.OfSwitch) : e.grantedSemid = none := by
  cases e with
  | grant p => cases h
  | _ => rfl

theorem moves_ungranted (h : ReflTransGen Move s s') : Ungranted s s' := by
  obtain ⟨es, ht, hes⟩ := moves_trace h
  exact ⟨es, ht, filterMap_ofSwitch (fun _ => grantedSemid_ofSwitch) hes⟩

theorem receiveMessage_ungranted (hs : Sound s) (hsem : 0 < p.syncSemid) :
    Ungranted s (s.receiveMessage p) := by
  obtain ⟨hsound, -, -, -, -, ht⟩ := handleProcessArrival_spec hs hsem
  have harr : Ungranted s (s.handleProcessArrival p) := ⟨_, ht, rfl⟩
  have hpre : Ungranted s (s.handleProcessArrival p).preemptOnArrival :=
    harr.trans (moves_ungranted (moved_moves (preemptOnArrival_moved hsound).1))
  obtain ⟨_, heq⟩ := receiveMessage_eq s p
  rw [heq]
  exact hpre

theorem completion_ungranted (hs : Sound s) (clk : ℤ) :
    Ungranted s (s.handleProcessCompletion clk) := by
  obtain ⟨-, heq⟩ | ⟨process, hc, heq⟩ := completion_cases s clk
  · rw [heq]
    exact .of_eq rfl
  · obtain ⟨value, hsound, -, -, -, ht⟩ := retire_spec (hs.withClock clk) hc
    have hret : Ungranted s (retire { s with clockValue := clk } process) := by
      refine ⟨_, ht, ?_⟩
      unfold retireEffects
      split <;> rfl
    rcases heq with heq | heq
    · rw [heq]
      exact hret
    · rw [heq]
      exact hret.trans (moves_ungranted (.single (contextSwitching_move hsound)))

end Scheduler

open Scheduler

variable {l l' : Loop} {a : LoopAct}

namespace Loop

/-- The semaphores set since the iteration began. -/
def grants (l : Loop) : List ℤ := l.recent.filterMap Effect.grantedSemid

theorem grants_ungranted (l' : Loop) (hb : l.begun ≤ l.scheduler.trace.length) (h' : l'.begun = l.begun)
    (h : Ungranted l.scheduler l'.scheduler) :
    l'.grants = l.grants ∧ l'.begun ≤ l'.scheduler.trace.length := by
  obtain ⟨es, ht, hes⟩ := h
  obtain ⟨hrecent, hb⟩ := recent_append hb h' ht
  exact ⟨by rw [grants, grants, hrecent, List.filterMap_append, hes, List.append_nil], hb⟩

/-- A process is ready or current. -/
def Busy (l : Loop) : Prop := l.scheduler.ready ≠ [] ∨ l.scheduler.current ≠ none

/-- The current process has been granted this tick, and no other has. -/
def GrantedOnce (l : Loop) : Prop :=
  ∃ p, l.scheduler.current = some p ∧ l.grants = [p.syncSemid]

/-- How far an iteration with work has got, at each of its statements. -/
def Progress (l : Loop) : Prop :=
  match l.point with
  | .receive => l.grants = []
  | .getClk | .compare | .assign | .runAlgorithm => l.grants = [] ∧ (l.owed → l.Busy)
  | .grant => l.grants = [] ∧ (l.owed → l.scheduler.current ≠ none)
  | .refresh | .wait => l.owed → l.GrantedOnce
  | .test | .downNb | .exited => True

/-- The invariant of runs in which no iteration with work finds its tick already taken. -/
structure Working (l : Loop) : Prop where
  sound : Sound l.scheduler
  begun : l.begun ≤ l.scheduler.trace.length
  progress : l.Progress

/-- At the end of an iteration with work, one semaphore was set, the current process's. -/
def WorkConserved (l : Loop) : Prop := l.point = .wait → l.owed → l.GrantedOnce

/-- An iteration with work that compares the time it has read with `clockValue` finds another value
there: no completion has put this one there before. -/
def TickFresh (l : Loop) : LoopAct → Prop
  | .advance _ => l.point = .compare → l.owed → l.currentTime ≠ l.scheduler.clockValue
  | _ => True

/-- A step between the statements, that changes no process and sets no semaphore. -/
theorem Progress.unchanged (h : l.Progress) (hp : l'.point = l.point) (ho : l'.owed → l.owed)
    (hg : l'.grants = l.grants) (hr : l'.scheduler.ready = l.scheduler.ready)
    (hc : l'.scheduler.current = l.scheduler.current) : l'.Progress := by
  unfold Progress Busy GrantedOnce at *
  rw [hp, hg, hr, hc]
  cases hpoint : l.point <;> simp only [hpoint] at h ⊢
  case receive => exact h
  case getClk | compare | assign | runAlgorithm | grant => exact ⟨h.1, fun h' => h.2 (ho h')⟩
  case refresh | wait => exact fun h' => h (ho h')

/-- A completion ends the iteration's duty to a process. -/
theorem Progress.unowed (h : l.Progress) (hp : l'.point = l.point) (ho : l'.owed = false)
    (hg : l'.grants = l.grants) : l'.Progress := by
  unfold Progress at *
  rw [hp, hg, ho]
  cases hpoint : l.point <;> simp only [hpoint] at h ⊢
  case receive => exact h
  case getClk | compare | assign | runAlgorithm | grant => exact ⟨h.1, nofun⟩
  all_goals exact nofun

end Loop

open Loop

theorem busy_of_hasWork (h : l.scheduler.hasWork = true) : l.Busy := by
  unfold hasWork at h
  rcases Bool.or_eq_true_iff.mp h with h | h
  · exact Or.inl (by simpa using h)
  · exact Or.inr (Option.isSome_iff_ne_none.mp h)

theorem working_completion (hl : Working l) (i : Inputs) : Working (l.complete i) := by
  have hfeed := hl.sound.feed i
  obtain ⟨hg, hb⟩ := grants_ungranted (l.complete i) hl.begun rfl
    (completion_ungranted hfeed l.clock)
  refine ⟨sound_preserved.completion hfeed _, hb, ?_⟩
  cases hc : l.scheduler.currentProcess with
  | some process => exact hl.progress.unowed rfl (by simp [complete, hc]) hg
  | none =>
    have hsame : (l.complete i).scheduler = { l.scheduler.feed i with clockValue := l.clock } := by
      simp only [complete, handleProcessCompletion, completeCurrent, Scheduler.feed, hc]
    refine hl.progress.unchanged rfl ?_ hg ?_ ?_
    · intro ho
      exact (Bool.and_eq_true_iff.mp ho).1
    · rw [hsame]
      rfl
    · rw [hsame]
      rfl

/-- Granting the tick to the current process. -/
theorem granted_grantTick (hl : Working l) (hp : l.point = .grant) (ho : l.owed = true) :
    GrantedOnce { l with scheduler := l.scheduler.grantTick, point := .refresh } := by
  have hprog := hl.progress
  simp only [Progress, hp] at hprog
  obtain ⟨process, hc⟩ := Option.ne_none_iff_exists'.mp
    (current_eq_none.not.mp (hprog.2 ho))
  refine ⟨l.scheduler.pcbs process, ?_, ?_⟩
  · simp [grantTick, hc, emit, current]
  · have hdrop := hprog.1
    unfold grants recent at hdrop
    simp [grants, recent, grantTick, hc, emit, List.drop_append_of_le_length hl.begun, hdrop,
      Effect.grantedSemid]

/-- Reading the remaining time of the process granted. -/
theorem granted_refresh (hl : Working l) (hg : l.GrantedOnce) (i : Inputs) :
    GrantedOnce { l with scheduler := (l.scheduler.feed i).updateCurrent, point := .wait } := by
  have hread := updateCurrent_reread (hl.sound.feed i)
  obtain ⟨p, hc, hgrants⟩ := hg
  have hsame : (⟨(l.scheduler.feed i).updateCurrent, .wait, l.currentTime, l.clock, l.begun,
      l.owed⟩ : Loop).grants = l.grants := by
    rw [grants, recent, hread.trace]
    rfl
  unfold GrantedOnce
  rw [hsame]
  rcases hread.current with heq | ⟨q, value, hq, heq⟩
  · exact ⟨p, heq.trans hc, hgrants⟩
  · obtain rfl : p = q := Option.some.inj (hc.symm.trans hq)
    exact ⟨_, heq, hgrants⟩

theorem working_step (hl : Working l) (hfresh : TickFresh l a) (hsem : SemidsValid l a)
    (h : LoopStep l a l') : Working l' := by
  have hsound : Sound l'.scheduler := by
    refine sound_preserved.step hl.sound ?_ h
    rintro p i rfl
    exact hsem
  have hprog := hl.progress
  cases h with
  | tick => exact ⟨hsound, hl.begun, hprog.unchanged rfl id rfl rfl rfl⟩
  | sigusr1 hp => exact ⟨hsound, hl.begun, hprog.unchanged rfl id rfl rfl rfl⟩
  | sigusr2 hp => exact working_completion hl _
  | exit hp hd => exact ⟨hsound, hl.begun, trivial⟩
  | test hp hd => exact ⟨hsound, hl.begun, trivial⟩
  | refused hp => exact ⟨hsound, hl.begun, trivial⟩
  | taken hp =>
    refine ⟨hsound, le_refl _, ?_⟩
    simp [Progress, grants, recent]
  | @receive p i hp =>
    obtain ⟨hg, hb⟩ := grants_ungranted
      { l with scheduler := (l.scheduler.feed i).receiveMessage p } hl.begun rfl
      (receiveMessage_ungranted (hl.sound.feed i) hsem)
    refine ⟨hsound, hb, ?_⟩
    simp only [Progress, hp] at hprog ⊢
    exact hg.trans hprog
  | noMessage hp =>
    simp only [Progress, hp] at hprog
    exact ⟨hsound, hl.begun, hprog, fun ho => busy_of_hasWork ho⟩
  | getClk hp =>
    simp only [Progress, hp] at hprog
    exact ⟨hsound, hl.begun, hprog⟩
  | differs hp hne =>
    simp only [Progress, hp] at hprog
    exact ⟨hsound, hl.begun, hprog⟩
  | equals hp heq => exact ⟨hsound, hl.begun, fun ho => absurd heq (hfresh hp ho)⟩
  | assign hp =>
    simp only [Progress, hp] at hprog
    exact ⟨hsound, hl.begun, hprog⟩
  | @runAlgorithm i hp =>
    simp only [Progress, hp] at hprog
    have hfeed := hl.sound.feed i
    obtain ⟨hg, hb⟩ := grants_ungranted
      { l with scheduler := (l.scheduler.feed i).runAlgorithm, point := .grant } hl.begun
      rfl (show Ungranted (l.scheduler.feed i) _ from moves_ungranted (runAlgorithm_moves hfeed))
    exact ⟨hsound, hb, hg.trans hprog.1, fun ho => runAlgorithm_current hfeed (hprog.2 ho)⟩
  | grant hp =>
    refine ⟨hsound, ?_, fun ho => granted_grantTick hl hp ho⟩
    have hlen : l.scheduler.trace.length ≤ l.scheduler.grantTick.trace.length := by
      rw [grantTick_eq]
      simp
    exact hl.begun.trans hlen
  | @refresh i hp =>
    simp only [Progress, hp] at hprog
    have hread := updateCurrent_reread (hl.sound.feed i)
    refine ⟨hsound, ?_, fun ho => granted_refresh hl (hprog ho) i⟩
    show l.begun ≤ (l.scheduler.feed i).updateCurrent.trace.length
    rw [hread.trace]
    exact hl.begun
  | again hp hne => exact ⟨hsound, hl.begun, trivial⟩

theorem workConserved_of_working (hl : Working l) : l.WorkConserved := by
  intro hp
  have hprog := hl.progress
  simpa only [Progress, hp] using hprog

/-- An iteration that finds its tick taken sets no semaphore. -/
theorem not_conserved_of_stale (hl : Working l) (hstale : ¬ TickFresh l a) (h : LoopStep l a l') :
    ¬ l'.WorkConserved := by
  cases a with
  | advance i =>
    simp only [TickFresh, not_forall, not_not] at hstale
    obtain ⟨hp, ho, heq⟩ := hstale
    have hprog := hl.progress
    simp only [Progress, hp] at hprog
    intro hcons
    cases h
    case equals =>
      obtain ⟨p, -, hg⟩ := hcons rfl ho
      have hnone : l.grants = [p.syncSemid] := hg
      rw [hprog.1] at hnone
      cases hnone
    case differs hp' hne => exact hne heq
    all_goals simp_all only [reduceCtorEq]
  | _ => exact absurd trivial hstale

/-- No tick is wasted in exactly the runs in which no iteration with work finds its tick taken. -/
theorem workConserved_iff_tickFresh (algorithm : SchedulingAlgorithm) (quantum clk : ℤ)
    (as : List LoopAct) :
    Always (Restrict SemidsValid LoopStep) (Loop.initial algorithm quantum clk) as
        WorkConserved ↔
      Throughout (Restrict SemidsValid LoopStep) (Loop.initial algorithm quantum clk) as
        TickFresh := by
  refine always_iff_throughout (I := Working) ?_ (fun _ => workConserved_of_working) ?_ ?_
  · exact ⟨sound_initial algorithm quantum clk, le_refl _, trivial⟩
  · rintro l a l' hl hfresh ⟨hsem, hstep⟩
    exact working_step hl hfresh hsem hstep
  · rintro l a l' hl hstale ⟨-, hstep⟩
    exact not_conserved_of_stale hl hstale hstep

/-- Two processes arrive at time 0; the first is done at time 1, before that tick's iteration. -/
def wastedTickRun : List LoopAct :=
  [.advance {}, .downNb true,
    .receive (Process.newPcb ⟨1, 0, 1, 0, 64⟩ 101 11 21) {},
    .receive (Process.newPcb ⟨2, 0, 5, 1, 64⟩ 102 12 22) {}, .noMessage,
    .advance {}, .advance {}, .advance {}, .advance {}, .advance {}, .advance ⟨[some 1], []⟩,
    .tick, .sigusr2 ⟨[some 0], []⟩, .advance {},
    .advance {}, .downNb true, .noMessage, .advance {}, .advance {}]

/-- The second process gets no semaphore at time 1. -/
theorem wastedTick_not_conserved :
    ¬ Always (Restrict SemidsValid LoopStep) (Loop.initial .HPF 0 0) wastedTickRun
      WorkConserved := by
  intro h
  obtain ⟨l, hrun, htest⟩ := exists_trace_of_execute (fun _ _ _ => loopStep_of_next)
    (show (execute SemidsValid Loop.next (Loop.initial .HPF 0 0) wastedTickRun).any
      (fun l => l.point = .wait ∧ l.owed = true ∧ l.scheduler.currentProcess = none) = true by
        decide +kernel)
  obtain ⟨hp, ho, hc⟩ := of_decide_eq_true htest
  obtain ⟨p, hcur, -⟩ := h _ l (List.prefix_refl _) hrun hp ho
  rw [current_eq_none.mpr hc] at hcur
  cases hcur

end KernelSim
