import KernelSim.Library.Histories
import KernelSim.Library.Runs
import KernelSim.Scheduler.Workers

/-! `run_process`, statement by statement, under grants, signals and ticks of any schedule: one unit
of work for each grant, in a later tick than the grant's. -/
namespace KernelSim
open Runs Histories

/-- The statement of `run_process` that comes next. -/
inductive RunPoint
  /-- `*shared_remaining_time = remaining_time;` -/
  | initial
  /-- `int result = down_nb(semid);` -/
  | down
  /-- `int current_clk = get_clk();` -/
  | readClock
  /-- `while(get_clk() == current_clk)` -/
  | busyWait (currentClk : ℤ)
  /-- `(*shared_remaining_time)--;` -/
  | decrement
  /-- `if (*shared_remaining_time <= 0)` -/
  | test
  /-- `*shared_remaining_time = 0;` -/
  | clear
  /-- `up(semid);` -/
  | up
  /-- `kill(scheduler_pid, SIGUSR2);` -/
  | kill
  | exited
  deriving DecidableEq

/-- A process in `run_process`, with its shared memory, its semaphore and the clock it reads. -/
structure RunProcess where
  sharedRemainingTime : ℤ
  semaphore : ℕ
  clk : ℤ
  stopped : Bool
  point : RunPoint
  deriving DecidableEq

/-- What happens to a process: the clock, the scheduler, or a statement of its own. -/
inductive RunAct
  | tick
  /-- `semctl(current_process->sync_semid, 0, SETVAL, 1)` -/
  | grant
  | stop
  | cont
  | advance
  deriving DecidableEq

/-- What a process is seen to do, and when. -/
inductive RunEvent
  | granted (clk : ℤ)
  | took (clk : ℤ)
  | ran (clk : ℤ)
  | signalled (clk : ℤ)
  deriving DecidableEq

/-- As `createProcess` leaves it, with the signal that stops it still to come or already there. -/
def RunProcess.create (runtime clk : ℤ) (stopped : Bool) : RunProcess :=
  { sharedRemainingTime := runtime, semaphore := 0, clk, stopped, point := .initial }

/-- The next statement; `down_nb` and the busy wait may have to be tried again. -/
def RunProcess.advance (remainingTime schedulerPid : ℤ) (p : RunProcess) : RunProcess :=
  match p.point with
  | .initial => { p with sharedRemainingTime := remainingTime, point := .down }
  | .down =>
    if 0 < p.semaphore then { p with semaphore := p.semaphore - 1, point := .readClock } else p
  | .readClock => { p with point := .busyWait p.clk }
  | .busyWait currentClk => if p.clk = currentClk then p else { p with point := .decrement }
  | .decrement => { p with sharedRemainingTime := p.sharedRemainingTime - 1, point := .test }
  | .test =>
    if p.sharedRemainingTime ≤ 0 then
      { p with point := if 0 < schedulerPid then .clear else .exited }
    else { p with point := .down }
  | .clear => { p with sharedRemainingTime := 0, point := .up }
  | .up => { p with semaphore := p.semaphore + 1, point := .kill }
  | .kill => { p with point := .exited }
  | .exited => p

/-- One step; `none` for a statement of a stopped process. -/
def RunProcess.next (remainingTime schedulerPid : ℤ) (p : RunProcess) : RunAct → Option RunProcess
  | .tick => some { p with clk := p.clk + 1 }
  | .grant => some { p with semaphore := 1 }
  | .stop => some { p with stopped := true }
  | .cont => some { p with stopped := false }
  | .advance => if p.stopped then none else some (p.advance remainingTime schedulerPid)

def RunProcess.emits (p : RunProcess) : RunAct → List RunEvent
  | .grant => [.granted p.clk]
  | .advance =>
    match p.point with
    | .down => if 0 < p.semaphore then [.took p.clk] else []
    | .decrement => [.ran p.clk]
    | .kill => [.signalled p.clk]
    | _ => []
  | _ => []

/-- A process and the record of its run. -/
structure ProcessRun where
  process : RunProcess
  history : List RunEvent
  deriving DecidableEq

def ProcessRun.next (remainingTime schedulerPid : ℤ) (s : ProcessRun) (a : RunAct) :
    Option ProcessRun :=
  (s.process.next remainingTime schedulerPid a).map fun process =>
    { process, history := s.history ++ s.process.emits a }

def RunEvent.tookAt : RunEvent → Option ℤ
  | .took clk => some clk
  | _ => none

def RunEvent.ranAt : RunEvent → Option ℤ
  | .ran clk => some clk
  | _ => none

/-- The clock values of the grants consumed. -/
def taken (h : List RunEvent) : List ℤ := h.filterMap RunEvent.tookAt

/-- The clock values of the decrements. -/
def unitsRun (h : List RunEvent) : List ℤ := h.filterMap RunEvent.ranAt

/-- The last grant has not been consumed. -/
def GrantOpen (h : List RunEvent) : Prop :=
  ∃ pre clk post, h = pre ++ .granted clk :: post ∧ taken post = []

/-- A grant is consumed once; a unit is run on a grant of its own, in a later tick than those of all
grants consumed so far; the signal comes after exactly `runtime` units. -/
def Allowed (runtime : ℤ) (pre : List RunEvent) : RunEvent → Prop
  | .granted _ => True
  | .took _ => GrantOpen pre
  | .ran clk => (taken pre).length = (unitsRun pre).length + 1 ∧ ∀ t ∈ taken pre, t < clk
  | .signalled _ => ((unitsRun pre).length : ℤ) = runtime

/-- The process runs exactly its runtime. -/
structure RunsExactly (runtime : ℤ) (s : ProcessRun) : Prop where
  allowed : Each (Allowed runtime) s.history
  increasing : (unitsRun s.history).Pairwise (· < ·)
  paced : ∀ first ∈ (taken s.history).head?, ∀ (k : ℕ) (clk : ℤ),
    (unitsRun s.history)[k]? = some clk → first + (k + 1) ≤ clk
  remaining : s.process.sharedRemainingTime = runtime - (unitsRun s.history).length
  nonneg : 0 ≤ s.process.sharedRemainingTime
  complete : ∀ clk, .signalled clk ∈ s.history →
    ((unitsRun s.history).length : ℤ) = runtime ∧ s.process.sharedRemainingTime = 0

/-- A grant has been consumed and its unit is still to be run. -/
def RunPoint.holdsGrant : RunPoint → Bool
  | .readClock | .busyWait _ | .decrement => true
  | _ => false

/-- The loop has been left. -/
def RunPoint.over : RunPoint → Bool
  | .clear | .up | .kill | .exited => true
  | _ => false

/-- No grant was consumed and no unit run after this. -/
def RunProcess.reached (p : RunProcess) : ℤ :=
  match p.point with
  | .busyWait currentClk => currentClk
  | .decrement => p.clk - 1
  | _ => p.clk

/-- The process stands where its history says. -/
structure Aligned (runtime : ℤ) (p : RunProcess) (h : List RunEvent) : Prop where
  remaining : p.sharedRemainingTime = runtime - (unitsRun h).length
  left : if p.point.over then p.sharedRemainingTime = 0
    else if p.point = .test then 0 ≤ p.sharedRemainingTime else 1 ≤ p.sharedRemainingTime
  fresh : p.point = .initial → unitsRun h = []
  pending : (taken h).length = (unitsRun h).length + if p.point.holdsGrant then 1 else 0
  grant : p.point.over = false → p.semaphore ≤ 1 ∧ (0 < p.semaphore → GrantOpen h)
  reached_le : p.reached ≤ p.clk
  taken_le : ∀ t ∈ taken h, t ≤ p.reached
  ran_le : ∀ t ∈ unitsRun h, t ≤ p.reached
  later : ∀ first ∈ (taken h).head?, ∀ t ∈ unitsRun h, first < t
  signalled : ∀ clk, .signalled clk ∈ h → p.point = .exited

structure RunInv (runtime : ℤ) (s : ProcessRun) : Prop extends
    Aligned runtime s.process s.history where
  allowed : Each (Allowed runtime) s.history
  increasing : (unitsRun s.history).Pairwise (· < ·)

variable {runtime schedulerPid clk t : ℤ} {p p' : RunProcess} {h : List RunEvent} {e : RunEvent}
  {s s' : ProcessRun} {a : RunAct}

@[simp] theorem taken_snoc : taken (h ++ [e]) = taken h ++ e.tookAt.toList := by
  cases e <;> simp [taken, RunEvent.tookAt]

@[simp] theorem unitsRun_snoc : unitsRun (h ++ [e]) = unitsRun h ++ e.ranAt.toList := by
  cases e <;> simp [unitsRun, RunEvent.ranAt]

theorem grantOpen_granted (h : List RunEvent) (clk : ℤ) : GrantOpen (h ++ [.granted clk]) :=
  ⟨h, clk, [], rfl, rfl⟩

theorem GrantOpen.snoc (hg : GrantOpen h) (he : e.tookAt = none) : GrantOpen (h ++ [e]) := by
  obtain ⟨pre, clk, post, rfl, hpost⟩ := hg
  refine ⟨pre, clk, post ++ [e], by simp, ?_⟩
  rw [taken_snoc, hpost, he]
  rfl

/-- The process is elsewhere, its history the same. -/
theorem Aligned.move (ha : Aligned runtime p h) (hshared : p'.sharedRemainingTime = p.sharedRemainingTime)
    (hleft : if p'.point.over then p'.sharedRemainingTime = 0
      else if p'.point = .test then 0 ≤ p'.sharedRemainingTime else 1 ≤ p'.sharedRemainingTime)
    (hfresh : p'.point = .initial → p.point = .initial)
    (hholds : p'.point.holdsGrant = p.point.holdsGrant)
    (hgrant : p'.point.over = false → p.point.over = false ∧ p'.semaphore = p.semaphore)
    (hreached : p.reached ≤ p'.reached) (hclk : p'.reached ≤ p'.clk)
    (hend : p.point = .exited → p'.point = .exited) : Aligned runtime p' h where
  remaining := hshared.trans ha.remaining
  left := hleft
  fresh hp := ha.fresh (hfresh hp)
  pending := by rw [ha.pending, hholds]
  grant hover := (hgrant hover).2 ▸ ha.grant (hgrant hover).1
  reached_le := hclk
  taken_le t ht := Int.le_trans (ha.taken_le t ht) hreached
  ran_le t ht := Int.le_trans (ha.ran_le t ht) hreached
  later := ha.later
  signalled clk hc := hend (ha.signalled clk hc)

theorem reached_tick (p : RunProcess) :
    p.reached ≤ RunProcess.reached { p with clk := p.clk + 1 } ∧
      RunProcess.reached { p with clk := p.clk + 1 } ≤ p.reached + 1 := by
  unfold RunProcess.reached
  cases p.point <;> dsimp only <;> omega

theorem aligned_tick (ha : Aligned runtime p h) : Aligned runtime { p with clk := p.clk + 1 } h := by
  obtain ⟨hlo, hhi⟩ := reached_tick p
  have hclk := ha.reached_le
  have hreached : RunProcess.reached { p with clk := p.clk + 1 } ≤ p.clk + 1 := by omega
  exact ha.move rfl ha.left (fun hp => hp) rfl (fun hp => ⟨hp, rfl⟩) hlo hreached (fun hp => hp)

/-- A signal that stops or continues the process. -/
theorem aligned_setStopped (stopped : Bool) (ha : Aligned runtime p h) :
    Aligned runtime { p with stopped } h :=
  ha.move rfl ha.left (fun hp => hp) rfl (fun hp => ⟨hp, rfl⟩) (Int.le_refl _) ha.reached_le
    (fun hp => hp)

theorem aligned_grant (ha : Aligned runtime p h) :
    Aligned runtime { p with semaphore := 1 } (h ++ [.granted p.clk]) where
  remaining := by simpa [RunEvent.ranAt] using ha.remaining
  left := ha.left
  fresh hp := by simpa [RunEvent.ranAt] using ha.fresh hp
  pending := by simpa [RunEvent.ranAt, RunEvent.tookAt] using ha.pending
  grant _ := ⟨Nat.le_refl 1, fun _ => grantOpen_granted h p.clk⟩
  reached_le := ha.reached_le
  taken_le t ht := ha.taken_le t (by simpa [RunEvent.tookAt] using ht)
  ran_le t ht := ha.ran_le t (by simpa [RunEvent.ranAt] using ht)
  later := by simpa [RunEvent.ranAt, RunEvent.tookAt] using ha.later
  signalled clk hc := ha.signalled clk (by simpa using hc)

/-- `down_nb` succeeds. -/
theorem aligned_took (ha : Aligned runtime p h) (hp : p.point = .down) :
    Aligned runtime { p with semaphore := p.semaphore - 1, point := .readClock }
      (h ++ [.took p.clk]) := by
  have hreached : p.reached = p.clk := by simp [RunProcess.reached, hp]
  have hpending : (taken h).length = (unitsRun h).length := by
    simpa [hp, RunPoint.holdsGrant] using ha.pending
  have hsem : p.semaphore - 1 = 0 := by
    have := (ha.grant (by simp [hp, RunPoint.over])).1
    omega
  refine ⟨?_, ?_, by simp, ?_, ?_, Int.le_refl _, ?_, ?_, ?_, ?_⟩
  · simpa [RunEvent.ranAt] using ha.remaining
  · simpa [hp, RunPoint.over] using ha.left
  · simp [RunEvent.ranAt, RunEvent.tookAt, hpending, RunPoint.holdsGrant]
  · simp [hsem]
  · intro t ht
    simp only [taken_snoc, RunEvent.tookAt, Option.toList_some, List.mem_append,
      List.mem_singleton] at ht
    rcases ht with ht | rfl
    · exact hreached ▸ ha.taken_le t ht
    · exact Int.le_refl _
  · intro t ht
    simp only [unitsRun_snoc, RunEvent.ranAt, Option.toList_none, List.append_nil] at ht
    exact hreached ▸ ha.ran_le t ht
  · simp only [unitsRun_snoc, RunEvent.ranAt, Option.toList_none, List.append_nil, taken_snoc,
      RunEvent.tookAt, Option.toList_some]
    -- the first grant consumed: no unit has been run yet
    cases htaken : taken h with
    | nil =>
      rw [htaken] at hpending
      rw [List.length_eq_zero_iff.mp hpending.symm]
      simp
    | cons first rest => simpa [htaken] using ha.later
  · intro clk hc
    have := ha.signalled clk (by simpa using hc)
    simp [hp] at this

/-- The grant in hand was consumed in an earlier tick. -/
theorem aligned_ran (ha : Aligned runtime p h) (hp : p.point = .decrement) :
    Aligned runtime { p with sharedRemainingTime := p.sharedRemainingTime - 1, point := .test }
      (h ++ [.ran p.clk]) := by
  have hreached : p.reached = p.clk - 1 := by simp [RunProcess.reached, hp]
  have hleft : 1 ≤ p.sharedRemainingTime := by simpa [hp, RunPoint.over] using ha.left
  have hpending : (taken h).length = (unitsRun h).length + 1 := by
    simpa [hp, RunPoint.holdsGrant] using ha.pending
  refine ⟨?_, ?_, by simp, ?_, ?_, Int.le_refl _, ?_, ?_, ?_, ?_⟩
  · have := ha.remaining
    simp only [unitsRun_snoc, RunEvent.ranAt, Option.toList_some, List.length_append,
      List.length_singleton]
    push_cast
    omega
  · simp only [RunPoint.over, Bool.false_eq_true, if_false, if_true]
    omega
  · simp [RunEvent.ranAt, RunEvent.tookAt, hpending, RunPoint.holdsGrant]
  · intro _
    obtain ⟨hle, hopen⟩ := ha.grant (by simp [hp, RunPoint.over])
    exact ⟨hle, fun hsem => (hopen hsem).snoc rfl⟩
  · intro t ht
    have := ha.taken_le t (by simpa [RunEvent.tookAt] using ht)
    show t ≤ p.clk
    omega
  · intro t ht
    simp only [unitsRun_snoc, RunEvent.ranAt, Option.toList_some, List.mem_append,
      List.mem_singleton] at ht
    rcases ht with ht | rfl
    · have := ha.ran_le t ht
      show t ≤ p.clk
      omega
    · exact Int.le_refl _
  · intro first hfirst t ht
    simp only [taken_snoc, RunEvent.tookAt, Option.toList_none, List.append_nil] at hfirst
    simp only [unitsRun_snoc, RunEvent.ranAt, Option.toList_some, List.mem_append,
      List.mem_singleton] at ht
    rcases ht with ht | rfl
    · exact ha.later first hfirst t ht
    · have := ha.taken_le first (List.mem_of_mem_head? hfirst)
      omega
  · intro clk hc
    have := ha.signalled clk (by simpa using hc)
    simp [hp] at this

theorem aligned_signalled (ha : Aligned runtime p h) (hp : p.point = .kill) :
    Aligned runtime { p with point := .exited } (h ++ [.signalled p.clk]) := by
  have hreached : p.reached = p.clk := by simp [RunProcess.reached, hp]
  refine ⟨?_, ?_, by simp, ?_, by simp [RunPoint.over], Int.le_refl _, ?_, ?_, ?_, fun _ _ => rfl⟩
  · simpa [RunEvent.ranAt] using ha.remaining
  · simpa [hp, RunPoint.over] using ha.left
  · simpa [RunEvent.ranAt, RunEvent.tookAt, hp, RunPoint.holdsGrant] using ha.pending
  · intro t ht
    exact hreached ▸ ha.taken_le t (by simpa [RunEvent.tookAt] using ht)
  · intro t ht
    exact hreached ▸ ha.ran_le t (by simpa [RunEvent.ranAt] using ht)
  · simpa [RunEvent.ranAt, RunEvent.tookAt] using ha.later

/-- A statement that neither takes a grant, runs a unit nor signals. -/
theorem aligned_quiet (schedulerPid : ℤ) (ha : Aligned runtime p h) (hq : p.emits .advance = []) :
    Aligned runtime (p.advance runtime schedulerPid) h := by
  have hleft := ha.left
  have hreached := ha.reached_le
  cases hp : p.point with
  | decrement | kill => simp [RunProcess.emits, hp] at hq
  | exited =>
    simp only [RunProcess.advance, hp]
    exact ha
  | initial =>
    simp only [RunProcess.advance, hp]
    have hshared : runtime = p.sharedRemainingTime := by simp [ha.remaining, ha.fresh hp]
    have hone : 1 ≤ runtime := by
      rw [hshared]
      simpa [hp, RunPoint.over] using hleft
    refine ha.move hshared ?_ (by simp) ?_ ?_ ?_ (Int.le_refl _) ?_
    all_goals simp [hp, RunPoint.over, RunPoint.holdsGrant, RunProcess.reached, hone]
  | down =>
    have hsem : ¬ 0 < p.semaphore := by simpa [RunProcess.emits, hp] using hq
    simp only [RunProcess.advance, hp, if_neg hsem]
    exact ha
  | readClock =>
    simp only [RunProcess.advance, hp]
    have hone : 1 ≤ p.sharedRemainingTime := by simpa [hp, RunPoint.over] using hleft
    refine ha.move rfl ?_ (by simp) ?_ ?_ ?_ (Int.le_refl _) ?_
    all_goals simp [hp, RunPoint.over, RunPoint.holdsGrant, RunProcess.reached, hone]
  | busyWait currentClk =>
    simp only [RunProcess.advance, hp]
    split
    · exact ha
    · have hone : 1 ≤ p.sharedRemainingTime := by simpa [hp, RunPoint.over] using hleft
      have hle : currentClk ≤ p.clk := by simpa [RunProcess.reached, hp] using hreached
      refine ha.move rfl ?_ (by simp) ?_ ?_ ?_ ?_ ?_
      all_goals simp [hp, RunPoint.over, RunPoint.holdsGrant, RunProcess.reached, hone]
      omega
  | test =>
    simp only [RunProcess.advance, hp]
    have hnonneg : 0 ≤ p.sharedRemainingTime := by simpa [hp, RunPoint.over] using hleft
    split
    · have hzero : p.sharedRemainingTime = 0 := by omega
      refine ha.move rfl ?_ ?_ ?_ ?_ ?_ ?_ ?_
      all_goals
        by_cases hpid : 0 < schedulerPid <;>
          simp [hp, hpid, RunPoint.over, RunPoint.holdsGrant, RunProcess.reached, hzero]
    · have hone : 1 ≤ p.sharedRemainingTime := by omega
      refine ha.move rfl ?_ (by simp) ?_ ?_ ?_ (Int.le_refl _) ?_
      all_goals simp [hp, RunPoint.over, RunPoint.holdsGrant, RunProcess.reached, hone]
  | clear =>
    simp only [RunProcess.advance, hp]
    have hzero : p.sharedRemainingTime = 0 := by simpa [hp, RunPoint.over] using hleft
    refine ha.move hzero.symm ?_ (by simp) ?_ ?_ ?_ (Int.le_refl _) ?_
    all_goals simp [hp, RunPoint.over, RunPoint.holdsGrant, RunProcess.reached]
  | up =>
    simp only [RunProcess.advance, hp]
    have hzero : p.sharedRemainingTime = 0 := by simpa [hp, RunPoint.over] using hleft
    refine ha.move rfl ?_ (by simp) ?_ ?_ ?_ (Int.le_refl _) ?_
    all_goals simp [hp, RunPoint.over, RunPoint.holdsGrant, RunProcess.reached, hzero]

/-- What a step of the process is seen to do. -/
theorem emits_advance (p : RunProcess) : p.emits .advance = [] ∨
    (p.point = .down ∧ 0 < p.semaphore ∧ p.emits .advance = [.took p.clk]) ∨
    (p.point = .decrement ∧ p.emits .advance = [.ran p.clk]) ∨
    (p.point = .kill ∧ p.emits .advance = [.signalled p.clk]) := by
  cases hp : p.point with
  | down =>
    by_cases hsem : 0 < p.semaphore
    · exact Or.inr (Or.inl ⟨rfl, hsem, by simp [RunProcess.emits, hp, hsem]⟩)
    · exact Or.inl (by simp [RunProcess.emits, hp, hsem])
  | decrement => exact Or.inr (Or.inr (Or.inl ⟨rfl, by simp [RunProcess.emits, hp]⟩))
  | kill => exact Or.inr (Or.inr (Or.inr ⟨rfl, by simp [RunProcess.emits, hp]⟩))
  | _ => exact Or.inl (by simp [RunProcess.emits, hp])

theorem runInv_advance (schedulerPid : ℤ) (hi : RunInv runtime s) : RunInv runtime
    { process := s.process.advance runtime schedulerPid
      history := s.history ++ s.process.emits .advance } := by
  have ha := hi.toAligned
  obtain hq | ⟨hp, hsem, he⟩ | ⟨hp, he⟩ | ⟨hp, he⟩ := emits_advance s.process
  · rw [hq, List.append_nil]
    exact ⟨aligned_quiet schedulerPid ha hq, hi.allowed, hi.increasing⟩
  · have hadvance : s.process.advance runtime schedulerPid =
        { s.process with semaphore := s.process.semaphore - 1, point := .readClock } := by
      simp [RunProcess.advance, hp, hsem]
    rw [he, hadvance]
    refine ⟨aligned_took ha hp, each_snoc.mpr ⟨hi.allowed, ?_⟩, ?_⟩
    · exact (ha.grant (by simp [hp, RunPoint.over])).2 hsem
    · simpa [RunEvent.ranAt] using hi.increasing
  · have hadvance : s.process.advance runtime schedulerPid =
        { s.process with
          sharedRemainingTime := s.process.sharedRemainingTime - 1, point := .test } := by
      simp [RunProcess.advance, hp]
    have hreached : s.process.reached = s.process.clk - 1 := by simp [RunProcess.reached, hp]
    rw [he, hadvance]
    refine ⟨aligned_ran ha hp, each_snoc.mpr ⟨hi.allowed, ?_, ?_⟩, ?_⟩
    · simpa [hp, RunPoint.holdsGrant] using ha.pending
    · intro t ht
      have := ha.taken_le t ht
      omega
    · simp only [unitsRun_snoc, RunEvent.ranAt, Option.toList_some]
      rw [List.pairwise_append]
      refine ⟨hi.increasing, List.pairwise_singleton _ _, ?_⟩
      intro t ht clk hclk
      obtain rfl := List.mem_singleton.mp hclk
      have := ha.ran_le t ht
      omega
  · have hadvance : s.process.advance runtime schedulerPid =
        { s.process with point := .exited } := by
      simp [RunProcess.advance, hp]
    have hzero : s.process.sharedRemainingTime = 0 := by simpa [hp, RunPoint.over] using ha.left
    rw [he, hadvance]
    refine ⟨aligned_signalled ha hp, each_snoc.mpr ⟨hi.allowed, ?_⟩, ?_⟩
    · have := ha.remaining
      show ((unitsRun s.history).length : ℤ) = runtime
      omega
    · simpa [RunEvent.ranAt] using hi.increasing

theorem runInv_step (hi : RunInv runtime s) (h : s.next runtime schedulerPid a = some s') :
    RunInv runtime s' := by
  have ha := hi.toAligned
  obtain ⟨p, hp, rfl⟩ := Option.map_eq_some_iff.mp h
  cases a with
  | advance =>
    simp only [RunProcess.next, Option.ite_none_left_eq_some, Option.some.injEq] at hp
    obtain ⟨-, rfl⟩ := hp
    exact runInv_advance schedulerPid hi
  | grant =>
    obtain rfl := Option.some.inj hp
    refine ⟨aligned_grant ha, each_snoc.mpr ⟨hi.allowed, trivial⟩, ?_⟩
    simpa [RunProcess.emits, RunEvent.ranAt] using hi.increasing
  | tick =>
    obtain rfl := Option.some.inj hp
    simp only [RunProcess.emits, List.append_nil]
    exact ⟨aligned_tick ha, hi.allowed, hi.increasing⟩
  | stop | cont =>
    obtain rfl := Option.some.inj hp
    simp only [RunProcess.emits, List.append_nil]
    exact ⟨aligned_setStopped _ ha, hi.allowed, hi.increasing⟩

theorem runInv_initial (clk : ℤ) (stopped : Bool) (hone : 1 ≤ runtime) :
    RunInv runtime { process := .create runtime clk stopped, history := [] } := by
  refine ⟨⟨?_, ?_, fun _ => rfl, rfl, ?_, Int.le_refl _, ?_, ?_, ?_, ?_⟩, each_nil, ?_⟩
  all_goals simp [RunProcess.create, RunPoint.over, unitsRun, taken, hone]

/-- Increasing whole numbers are at least as far apart as their places. -/
theorem place_le {l : List ℤ} {first : ℤ} (hinc : l.Pairwise (· < ·)) (hfirst : ∀ t ∈ l, first < t)
    {k : ℕ} (hk : l[k]? = some clk) : first + (k + 1) ≤ clk := by
  induction l generalizing first k with
  | nil => simp at hk
  | cons t l ih =>
    obtain ⟨htl, hl⟩ := List.pairwise_cons.mp hinc
    have hft := hfirst t List.mem_cons_self
    cases k with
    | zero =>
      obtain rfl : t = clk := by simpa using hk
      push_cast
      omega
    | succ k =>
      have := ih hl htl (by simpa using hk)
      push_cast
      omega

theorem runsExactly_of_inv (hi : RunInv runtime s) : RunsExactly runtime s where
  allowed := hi.allowed
  increasing := hi.increasing
  paced first hfirst _ _ hk := place_le hi.increasing (hi.later first hfirst) hk
  remaining := hi.remaining
  nonneg := by
    have := hi.left
    split at this
    · exact Int.le_of_eq this.symm
    · split at this <;> omega
  complete clk hc := by
    have hzero : s.process.sharedRemainingTime = 0 := by
      simpa [hi.signalled clk hc, RunPoint.over] using hi.left
    have := hi.remaining
    exact ⟨by omega, hzero⟩

/-- Whatever the schedule of grants, signals and ticks, a process runs its runtime in units, each on
a grant of its own and in a tick of its own. -/
theorem runsExactly_always (hone : 1 ≤ runtime) (schedulerPid clk : ℤ) (stopped : Bool)
    (as : List RunAct) : Always (fun s a s' => ProcessRun.next runtime schedulerPid s a = some s')
      { process := .create runtime clk stopped, history := [] } as (RunsExactly runtime) := by
  intro pre s _ ht
  exact runsExactly_of_inv
    (ht.invariant (fun _ _ _ hi hs => runInv_step hi hs) (runInv_initial clk stopped hone))

/-- Two units, with the process stopped for two ticks in the middle of the first. -/
theorem runsExactly_two : ∃ as s, as.foldlM (ProcessRun.next 2 50)
      { process := .create 2 0 true, history := [] } = some s ∧
    s.history = [.granted 0, .took 0, .granted 3, .ran 3, .took 3, .ran 4, .signalled 4] ∧
    Always (fun s a s' => ProcessRun.next 2 50 s a = some s')
      { process := .create 2 0 true, history := [] } as (RunsExactly 2) := by
  refine ⟨[.cont, .grant, .advance, .advance, .advance, .stop, .tick, .tick, .tick, .cont, .grant,
    .advance, .advance, .advance, .advance, .advance, .tick, .advance, .advance, .advance, .advance,
    .advance, .advance], _, rfl, by decide, ?_⟩
  exact runsExactly_always (by decide) 50 0 true _

/-! The processes of the scheduler's model, which do in one step what comes between two looks of the
scheduler at them. -/

/-- The statement that a process of that model stands at. -/
def WorkerPhase.point : WorkerPhase → RunPoint
  | .waiting => .down
  | .working currentClk => .busyWait currentClk
  | .finishing => .clear
  | .signalling => .kill
  | .exited => .exited

structure Coarse (remainingTime : ℤ) (p : RunProcess) (w : Worker) : Prop where
  shared : p.sharedRemainingTime = w.sharedRemainingTime
  stopped : p.stopped = w.stopped
  point : p.point = w.phase.point ∨
    p.point = .initial ∧ w.phase = .waiting ∧ w.sharedRemainingTime = remainingTime
  semaphore : w.phase = .waiting ∨ (∃ currentClk, w.phase = .working currentClk) →
    p.semaphore = w.semaphore.toNat

abbrev RunStep (remainingTime schedulerPid : ℤ) (p : RunProcess) (a : RunAct) (p' : RunProcess) :
    Prop := p.next remainingTime schedulerPid a = some p'

variable {remainingTime : ℤ} {w w' : Worker} {act : WorkerAct}

theorem coarse_create (remainingTime clk : ℤ) :
    Coarse remainingTime (.create remainingTime clk true) (.create remainingTime) :=
  ⟨rfl, rfl, Or.inr ⟨rfl, rfl, rfl⟩, fun _ => rfl⟩

theorem advance_step (hs : p.stopped = false) :
    RunStep remainingTime schedulerPid p .advance (p.advance remainingTime schedulerPid) := by
  simp [RunStep, RunProcess.next, hs]

theorem advance_reachable (hs : p.stopped = false)
    (he : p.advance remainingTime schedulerPid = p') :
    Reachable (RunStep remainingTime schedulerPid) p p' := he ▸ Reachable.refl.snoc (advance_step hs)

/-- A waiting process gets to `down_nb`. -/
theorem coarse_down (hc : Coarse remainingTime p w) (hs : p.stopped = false)
    (hw : w.phase = .waiting) :
    Reachable (RunStep remainingTime schedulerPid) p { p with point := .down } := by
  rcases hc.point with hp | ⟨hp, -, hfill⟩
  · rw [hw] at hp
    have hself : { p with point := .down } = p := by
      rw [← show p.point = .down from hp]
    rw [hself]
    exact .refl
  · refine advance_reachable hs ?_
    simp only [RunProcess.advance, hp]
    rw [← hfill, ← hc.shared]

/-- A step of that model is a run of statements within one tick. -/
theorem coarse_next (hpid : 0 < schedulerPid) (hc : Coarse remainingTime p w)
    (h : w.next p.clk act = some w') :
    ∃ p', Reachable (RunStep remainingTime schedulerPid) p p' ∧ p'.clk = p.clk ∧
      Coarse remainingTime p' w' := by
  obtain ⟨hstop, hw⟩ := workerStep_of_next h
  have hs : p.stopped = false := hc.stopped.trans hstop
  have hpoint : w.phase ≠ .waiting → p.point = w.phase.point :=
    fun hne => hc.point.resolve_right fun hinit => hne hinit.2.1
  cases hw with
  | down hp hsem =>
    have hone : p.semaphore = 1 := by simpa [hsem] using hc.semaphore (Or.inl hp)
    let p₁ : RunProcess := { p with semaphore := 0, point := .readClock }
    have hdown : Reachable (RunStep remainingTime schedulerPid) { p with point := .down } p₁ :=
      advance_reachable hs (by simp [RunProcess.advance, hone, p₁])
    have hread : Reachable (RunStep remainingTime schedulerPid) p₁
        { p₁ with point := .busyWait p.clk } := advance_reachable hs rfl
    exact ⟨_, ((coarse_down hc hs hp).trans hdown).trans hread, rfl,
      hc.shared, hc.stopped, Or.inl rfl, fun _ => rfl⟩
  | @decrement currentClk hp hclk =>
    have hwait : p.point = .busyWait currentClk := by
      rw [hpoint (by simp [hp]), hp]
      rfl
    let p₁ : RunProcess := { p with point := .decrement }
    let p₂ : RunProcess :=
      { p with sharedRemainingTime := p.sharedRemainingTime - 1, point := .test }
    have hleave : Reachable (RunStep remainingTime schedulerPid) p p₁ :=
      advance_reachable hs (by simp [RunProcess.advance, hwait, hclk, p₁])
    have hrun : Reachable (RunStep remainingTime schedulerPid) p₁ p₂ := advance_reachable hs rfl
    have htest : Reachable (RunStep remainingTime schedulerPid) p₂
        { p₂ with point := if p.sharedRemainingTime - 1 ≤ 0 then .clear else .down } := by
      refine advance_reachable hs ?_
      simp only [RunProcess.advance, p₂, if_pos hpid]
      split <;> rfl
    refine ⟨_, (hleave.trans hrun).trans htest, rfl, ?_, hc.stopped, Or.inl ?_, ?_⟩
    · exact congrArg (· - 1) hc.shared
    · rw [hc.shared]
      dsimp only
      split <;> rfl
    · exact fun _ => hc.semaphore (Or.inr ⟨currentClk, hp⟩)
  | clear hp =>
    have hclear : p.point = .clear := by
      rw [hpoint (by simp [hp]), hp]
      rfl
    let p₁ : RunProcess := { p with sharedRemainingTime := 0, point := .up }
    have hset : Reachable (RunStep remainingTime schedulerPid) p p₁ :=
      advance_reachable hs (by simp [RunProcess.advance, hclear, p₁])
    have hup : Reachable (RunStep remainingTime schedulerPid) p₁
        { p₁ with semaphore := p.semaphore + 1, point := .kill } := advance_reachable hs rfl
    exact ⟨_, hset.trans hup, rfl, rfl, hc.stopped, Or.inl rfl, by simp⟩
  | kill hp =>
    have hkill : p.point = .kill := by
      rw [hpoint (by simp [hp]), hp]
      rfl
    have hsend : Reachable (RunStep remainingTime schedulerPid) p { p with point := .exited } :=
      advance_reachable hs (by simp [RunProcess.advance, hkill])
    exact ⟨_, hsend, rfl, hc.shared, hc.stopped, Or.inl rfl, by simp⟩

end KernelSim
