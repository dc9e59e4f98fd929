import KernelSim.Generator.PriorityQueue
import KernelSim.Library.Decimal

/-! The arguments that the generator gives to `execl`, and what the two programs read from them. -/
namespace KernelSim
open Decimal PriorityQueue

/-- The constants of the `enum`. -/
def SchedulingAlgorithm.code : SchedulingAlgorithm → ℤ
  | .HPF => 0
  | .SRTN => 1
  | .RR => 2

/-- A `char` array of this size with the text that `sprintf` writes from its start on. -/
structure Formatted where
  size : ℕ
  text : List Char
  deriving DecidableEq, Repr

/-- `sprintf(str, "%d", value)` into an array of this size. -/
def sprintf (size : ℕ) (value : ℤ) : Formatted := { size, text := decimal value }

/-- The text and the `'\0'` behind it are inside the array. -/
def Formatted.Fits (str : Formatted) : Prop := str.text.length + 1 ≤ str.size

/-- The strings for the scheduler, formatted in the child that becomes it. -/
def schedulerStrings (algorithm : SchedulingAlgorithm) (quantum semid : ℤ) : List Formatted :=
  let algorithmStr := sprintf 10 algorithm.code
  let semidStr := sprintf 10 semid
  if algorithm = .RR then [algorithmStr, semidStr, sprintf 10 quantum]
  else [algorithmStr, semidStr]

/-- The strings for `process.out`, formatted in the child that becomes it. -/
def processStrings (process : PCB) (shmid schedulerPid : ℤ) : List Formatted :=
  let runtimeStr := sprintf 10 process.remainingTime
  let shmidStr := sprintf 20 shmid
  let schedulerPidStr := sprintf 20 schedulerPid
  let syncClkStr := sprintf 20 process.syncSemid
  [runtimeStr, shmidStr, schedulerPidStr, syncClkStr]

/-- `argv` of the program that `execl` starts. -/
def execl (name : List Char) (strings : List Formatted) : List (List Char) :=
  name :: strings.map Formatted.text

/-- `atoi`, which leaves open what it makes of a number that is no `int`. -/
def atoi (outside : ℤ → ℤ) (text : List Char) : ℤ :=
  match scanInt text with
  | none => 0
  | some (n, _) => if -2 ^ 31 ≤ n ∧ n < 2 ^ 31 then n else outside n

structure SchedulerArguments where
  algorithm : ℤ
  quantum : ℤ
  semid : ℤ
  deriving DecidableEq, Repr

structure ProcessArguments where
  runtime : ℤ
  sharedMemId : ℤ
  schedulerPid : ℤ
  semid : ℤ
  deriving DecidableEq, Repr

/-- `main` of the scheduler. `none` where it exits, or reads an argument that is not there. -/
def schedulerMain (outside : ℤ → ℤ) (argv : List (List Char)) : Option SchedulerArguments := do
  if argv.length < 2 then none
  else
    let algorithm := atoi outside (← argv[1]?)
    let quantum ←
      if algorithm = SchedulingAlgorithm.SRTN.code ∨ algorithm = SchedulingAlgorithm.HPF.code then
        some 0
      else if algorithm = SchedulingAlgorithm.RR.code then
        if argv.length < 4 then none else (argv[3]?).map (atoi outside)
      else if argv.length < 3 then none
      else some 0
    let semid := atoi outside (← argv[2]?)
    return { algorithm, quantum, semid }

/-- `main` of a process, which reads one argument more than it tests for. -/
def processMain (outside : ℤ → ℤ) (argv : List (List Char)) : Option ProcessArguments := do
  if argv.length < 4 then none
  else
    let runtime := atoi outside (← argv[1]?)
    let sharedMemId := atoi outside (← argv[2]?)
    let schedulerPid := atoi outside (← argv[3]?)
    let semid := atoi outside (← argv[4]?)
    return { runtime, sharedMemId, schedulerPid, semid }

/-- Every string fits in its array, and what arrives is what was sent. The quantum is sent for
round robin only. -/
structure RoundTrips (outside : ℤ → ℤ) (algorithm : SchedulingAlgorithm) (quantum semid : ℤ)
    (process : PCB) (shmid schedulerPid : ℤ) : Prop where
  schedulerFits : ∀ str ∈ schedulerStrings algorithm quantum semid, str.Fits
  schedulerReads : schedulerMain outside
      (execl "scheduler".toList (schedulerStrings algorithm quantum semid)) =
    some { algorithm := algorithm.code, quantum := if algorithm = .RR then quantum else 0, semid }
  processFits : ∀ str ∈ processStrings process shmid schedulerPid, str.Fits
  processReads : processMain outside
      (execl "process.out".toList (processStrings process shmid schedulerPid)) =
    some { runtime := process.remainingTime, sharedMemId := shmid, schedulerPid,
           semid := process.syncSemid }

variable {outside : ℤ → ℤ} {algorithm : SchedulingAlgorithm}
  {quantum semid shmid schedulerPid z : ℤ} {process : PCB} {size : ℕ}

theorem atoi_decimal (hz : FitsInt z) : atoi outside (decimal z) = z := by
  have hscan := scanInt_decimal z noDigit_nil
  rw [List.append_nil] at hscan
  rw [atoi, hscan]
  exact if_pos hz

theorem sprintf_fits (hsize : 2 ≤ size) :
    (sprintf size z).Fits ↔ -10 ^ (size - 2) < z ∧ z < 10 ^ (size - 1) := by
  have hlength : (decimal z).length + 1 ≤ size ↔ (decimal z).length ≤ size - 1 := by omega
  rw [Formatted.Fits, sprintf, hlength, length_decimal_le_iff (by omega), Nat.sub_sub]

/-- Twenty places are enough for any `int`. -/
theorem sprintf_fits_twenty (hz : FitsInt z) : (sprintf 20 z).Fits := by
  obtain ⟨hlo, hhi⟩ := hz
  rw [sprintf_fits (by omega)]
  omega

theorem fitsInt_code (algorithm : SchedulingAlgorithm) : FitsInt algorithm.code := by
  cases algorithm <;> exact ⟨by decide, by decide⟩

/-- The values arrive whether or not the arrays were large enough for them. -/
theorem schedulerMain_execl (hquantum : FitsInt quantum) (hsemid : FitsInt semid) :
    schedulerMain outside (execl "scheduler".toList (schedulerStrings algorithm quantum semid)) =
      some { algorithm := algorithm.code, quantum := if algorithm = .RR then quantum else 0,
             semid } := by
  have hcode : atoi outside (decimal algorithm.code) = algorithm.code :=
    atoi_decimal (fitsInt_code algorithm)
  have hq : atoi outside (decimal quantum) = quantum := atoi_decimal hquantum
  have hs : atoi outside (decimal semid) = semid := atoi_decimal hsemid
  have hother : ¬ (SchedulingAlgorithm.RR.code = SchedulingAlgorithm.SRTN.code ∨
      SchedulingAlgorithm.RR.code = SchedulingAlgorithm.HPF.code) := by decide
  cases algorithm with
  | HPF => simp [schedulerMain, execl, schedulerStrings, sprintf, hcode, hs]
  | SRTN => simp [schedulerMain, execl, schedulerStrings, sprintf, hcode, hs]
  | RR => simp [schedulerMain, execl, schedulerStrings, sprintf, hcode, hs, hq, hother]

theorem processMain_execl (hruntime : FitsInt process.remainingTime) (hshmid : FitsInt shmid)
    (hpid : FitsInt schedulerPid) (hsync : FitsInt process.syncSemid) :
    processMain outside (execl "process.out".toList (processStrings process shmid schedulerPid)) =
      some { runtime := process.remainingTime, sharedMemId := shmid, schedulerPid,
             semid := process.syncSemid } := by
  simp [processMain, execl, processStrings, sprintf, atoi_decimal, hruntime, hshmid, hpid, hsync]

theorem schedulerStrings_fit (algorithm : SchedulingAlgorithm) (hquantum : 0 < quantum)
    (hsemid : 0 ≤ semid) :
    (∀ str ∈ schedulerStrings algorithm quantum semid, str.Fits) ↔
      semid < 10 ^ 9 ∧ (algorithm = .RR → quantum < 10 ^ 9) := by
  have hcode : (sprintf 10 algorithm.code).Fits := by
    rw [sprintf_fits (by omega)]
    cases algorithm <;> decide
  have hs : (sprintf 10 semid).Fits ↔ semid < 10 ^ 9 := by
    rw [sprintf_fits (by omega)]
    omega
  have hq : (sprintf 10 quantum).Fits ↔ quantum < 10 ^ 9 := by
    rw [sprintf_fits (by omega)]
    omega
  by_cases hRR : algorithm = .RR
  · simp [schedulerStrings, hRR ▸ hcode, hRR, hs, hq]
  · simp [schedulerStrings, hcode, hRR, hs]

theorem processStrings_fit (hshmid : FitsInt shmid) (hpid : FitsInt schedulerPid)
    (hsync : FitsInt process.syncSemid) :
    (∀ str ∈ processStrings process shmid schedulerPid, str.Fits) ↔
      -10 ^ 8 < process.remainingTime ∧ process.remainingTime < 10 ^ 9 := by
  have hruntime : (sprintf 10 process.remainingTime).Fits ↔
      -10 ^ 8 < process.remainingTime ∧ process.remainingTime < 10 ^ 9 := sprintf_fits (by omega)
  simp [processStrings, hruntime, sprintf_fits_twenty hshmid, sprintf_fits_twenty hpid,
    sprintf_fits_twenty hsync]

/-- The arguments make it to both programs just where no value needs ten places in an array
that has room for nine and the `'\0'`. -/
theorem roundTrips_iff (outside : ℤ → ℤ) (algorithm : SchedulingAlgorithm)
    (hquantum : 0 < quantum ∧ quantum < 2 ^ 31) (hsemid : 0 ≤ semid ∧ semid < 2 ^ 31)
    (hshmid : 0 ≤ shmid ∧ shmid < 2 ^ 31) (hpid : 0 ≤ schedulerPid ∧ schedulerPid < 2 ^ 31)
    (hsync : 0 ≤ process.syncSemid ∧ process.syncSemid < 2 ^ 31)
    (hruntime : -2 ^ 31 ≤ process.remainingTime ∧ process.remainingTime < 2 ^ 31) :
    RoundTrips outside algorithm quantum semid process shmid schedulerPid ↔
      semid < 10 ^ 9 ∧ (algorithm = .RR → quantum < 10 ^ 9) ∧
        -10 ^ 8 < process.remainingTime ∧ process.remainingTime < 10 ^ 9 := by
  have hint : ∀ x : ℤ, 0 ≤ x ∧ x < 2 ^ 31 → FitsInt x := by
    rintro x ⟨hlo, hhi⟩
    exact ⟨by omega, hhi⟩
  have hscheduler := schedulerStrings_fit algorithm hquantum.1 hsemid.1
  have hprocess := processStrings_fit (hint _ hshmid) (hint _ hpid) (hint _ hsync)
  constructor
  · intro h
    obtain ⟨hs, hq⟩ := hscheduler.mp h.schedulerFits
    exact ⟨hs, hq, hprocess.mp h.processFits⟩
  · rintro ⟨hs, hq, hr⟩
    exact ⟨hscheduler.mpr ⟨hs, hq⟩,
      schedulerMain_execl (hint _ ⟨by omega, hquantum.2⟩) (hint _ hsemid), hprocess.mpr hr,
      processMain_execl hruntime (hint _ hshmid) (hint _ hpid) (hint _ hsync)⟩

theorem roundTrips_documented :
    RoundTrips id .RR 2 32768 (Process.newPcb ⟨1, 1, 6, 5, 200⟩ 0 98304 32769) 98304 4711 :=
  (roundTrips_iff id .RR (by omega) (by omega) (by omega) (by omega) (by decide) (by decide)).mpr
    (by decide)

/-- A run time of ten digits. -/
theorem longRuntime_not_roundTrips :
    (sprintf 10 1000000000).text.length = 10 ∧
      ¬ RoundTrips id .HPF 1 32768 (Process.newPcb ⟨1, 1, 1000000000, 5, 200⟩ 0 98304 32769)
        98304 4711 := by
  refine ⟨by decide, ?_⟩
  intro h
  have hfits : (sprintf 10 1000000000).Fits := h.processFits _ List.mem_cons_self
  have hrange := (sprintf_fits (by omega)).mp hfits
  omega

end KernelSim
