import KernelSim.Generator.ReadProcesses

/-! `test_generator`, which writes a process file, and `read_processes` on what it writes. -/
namespace KernelSim
open Decimal Lines PriorityQueue

/-- `struct processData` -/
structure ProcessData where
  id : ℤ
  arrivaltime : ℤ
  runningtime : ℤ
  priority : ℤ
  deriving DecidableEq, Repr

/-- The rounds of the loop that are left, with the number of those made and the last arrival
time. A round takes three numbers from `rand`. -/
def drawProcesses (rand : ℕ → ℕ) : ℕ → ℕ → ℤ → List ProcessData
  | 0, _, _ => []
  | left + 1, made, arrival =>
    let arrivaltime := wrap32 (arrival + (rand (3 * made) % 11 : ℕ))
    { id := made + 1
      arrivaltime
      runningtime := (rand (3 * made + 1) % 30 : ℕ)
      priority := (rand (3 * made + 2) % 11 : ℕ) } ::
        drawProcesses rand left (made + 1) arrivaltime

def testProcesses (rand : ℕ → ℕ) (no : ℕ) : List ProcessData := drawProcesses rand no 0 1

def testHeading : List Char := "#id arrival runtime priority".toList

/-- The four columns of a process. -/
def testColumns (pData : ProcessData) : List Char :=
  decimal pData.id ++ '\t' :: (decimal pData.arrivaltime ++ '\t' :: (decimal pData.runningtime ++
    '\t' :: decimal pData.priority))

/-- What `main` writes to the file. -/
def testFile (rand : ℕ → ℕ) (no : ℕ) : List Char :=
  testHeading ++ '\n' :: (testProcesses rand no).flatMap fun pData => testColumns pData ++ ['\n']

/-- A process loaded with the values that were drawn for it. -/
def Loads (p : Process) (pData : ProcessData) : Prop :=
  p.id = pData.id ∧ p.arrivalTime = pData.arrivaltime ∧ p.executionTime = pData.runningtime ∧
    p.priority = pData.priority

/-- The reader loads the processes that were drawn, all of them and no others. -/
def ReadsBack (outside : ℤ → Option ℤ) (rand : ℕ → ℕ) (no : ℕ) : Prop :=
  ∀ junk, ∃ ps,
    (readProcessesFile outside (testFile rand no) (pqInit 20 .sortByArrivalTime junk)).toList.Perm
      ps ∧ ps.length = no ∧ List.Forall₂ Loads ps (testProcesses rand no)

/-- Values that `%d` prints and reads back. -/
def ProcessData.FitsInts (pData : ProcessData) : Prop :=
  FitsInt pData.id ∧ FitsInt pData.arrivaltime ∧ FitsInt pData.runningtime ∧
    FitsInt pData.priority

variable {outside : ℤ → Option ℤ} {rand : ℕ → ℕ} {no made left : ℕ} {arrival z : ℤ}
  {pData : ProcessData} {text : List Char} {drawn : List ProcessData}

theorem wrap32_fitsInt (x : ℤ) : FitsInt (wrap32 x) := by
  have hlo : -((2 ^ 32 : ℕ) / 2) ≤ wrap32 x := Int.le_bmod (by omega)
  have hhi : wrap32 x < ((2 ^ 32 : ℕ) + 1) / 2 := Int.bmod_lt (by omega)
  constructor <;> omega

theorem drawProcesses_fitsInts (h : made + left < 2 ^ 31) :
    ∀ pData ∈ drawProcesses rand left made arrival, pData.FitsInts := by
  induction left generalizing made arrival with
  | zero => simp [drawProcesses]
  | succ left ih =>
    rintro pData (_ | ⟨_, hin⟩)
    · have hrun := Nat.mod_lt (rand (3 * made + 1)) (show 0 < 30 by omega)
      have hpriority := Nat.mod_lt (rand (3 * made + 2)) (show 0 < 11 by omega)
      refine ⟨⟨?_, ?_⟩, wrap32_fitsInt _, ⟨?_, ?_⟩, ⟨?_, ?_⟩⟩ <;> dsimp only <;> omega
    · exact ih (by omega) pData hin

theorem intField_decimal (hz : FitsInt z) (hr : NoDigit text) :
    intField (decimal z ++ text) = some (z, text) := by
  rw [intField, scanInt_decimal z hr]
  exact Option.filter_some_pos (decide_eq_true hz)

theorem intField_tab : intField ('\t' :: text) = intField text := by
  rw [intField, scanInt_space rfl]
  rfl

theorem scanField_column (outside : ℤ → Option ℤ) {c : Char} (hz : FitsInt z)
    (hc : c.isDigit = false) (text : List Char) :
    scanField outside ((decimal z ++ c :: text).takeWhile (· ≠ '\x00')) =
      some (z, (c :: text).takeWhile (· ≠ '\x00')) :=
  scanField_of_intField outside (intField_decimal hz (noDigit_cons hc))

theorem scanField_nextColumn (outside : ℤ → Option ℤ) {c : Char} (hz : FitsInt z)
    (hc : c.isDigit = false) (text : List Char) :
    scanField outside (('\t' :: (decimal z ++ c :: text)).takeWhile (· ≠ '\x00')) =
      some (z, (c :: text).takeWhile (· ≠ '\x00')) := by
  apply scanField_of_intField
  rw [intField_tab]
  exact intField_decimal hz (noDigit_cons hc)

/-- After four columns nothing is left to read. -/
theorem readLine_columns (h : pData.FitsInts) :
    readLine outside (testColumns pData ++ ['\n']) = none := by
  obtain ⟨hid, harrival, hrun, hpriority⟩ := h
  have htab : ('\t').isDigit = false := rfl
  have hnewline : ('\n').isDigit = false := rfl
  have hend : scanField outside (['\n'].takeWhile (· ≠ '\x00')) = none := rfl
  unfold readLine
  split
  · rfl
  · simp only [testColumns, List.append_assoc, List.cons_append, sscanf, Option.bind_eq_bind,
      scanField_column outside hid htab, scanField_nextColumn outside harrival htab,
      scanField_nextColumn outside hrun htab, scanField_nextColumn outside hpriority hnewline, hend,
      Option.bind_some, Option.bind_none]

theorem newline_notMem_columns : '\n' ∉ testColumns pData := by
  have hdecimal : ∀ z, '\n' ∉ decimal z := by
    intro z h
    rcases mem_decimal h with h | h <;> cases h
  simp [testColumns, hdecimal]

theorem length_columns (h : pData.FitsInts) : (testColumns pData ++ ['\n']).length ≤ 255 := by
  have hdecimal : ∀ z, FitsInt z → (decimal z).length ≤ 11 := by
    rintro z ⟨hlo, hhi⟩
    rw [length_decimal_le_iff (by omega)]
    omega
  obtain ⟨hid, harrival, hrun, hpriority⟩ := h
  have h1 := hdecimal _ hid
  have h2 := hdecimal _ harrival
  have h3 := hdecimal _ hrun
  have h4 := hdecimal _ hpriority
  simp only [testColumns, List.length_append, List.length_cons, List.length_nil]
  omega

theorem lines_columns : lines (drawn.flatMap fun pData => testColumns pData ++ ['\n']) =
    drawn.map fun pData => testColumns pData ++ ['\n'] := by
  induction drawn with
  | nil => rfl
  | cons pData drawn ih =>
    rw [List.flatMap_cons, List.append_assoc, List.singleton_append,
      lines_cons newline_notMem_columns, ih, List.map_cons]

/-- The reader takes the lines of the file for no processes at all. -/
theorem pushed_testFile (outside : ℤ → Option ℤ) (rand : ℕ → ℕ) (h : no < 2 ^ 31) :
    (pushed outside (testFile rand no)).map Prod.snd = [] := by
  have hlines : lines (testFile rand no) = (testHeading ++ ['\n']) ::
      (testProcesses rand no).map fun pData => testColumns pData ++ ['\n'] := by
    rw [testFile, lines_cons (by decide), lines_columns]
  have hshort : (testHeading ++ ['\n']).length ≤ 255 := by decide
  rw [pushed_cons hlines, map_snd_numbered, stretches_short hshort, List.flatten_eq_nil_iff]
  rintro records (_ | ⟨_, hin⟩)
  · rfl
  · obtain ⟨line, hline, rfl⟩ := List.mem_map.mp hin
    obtain ⟨pData, hdrawn, rfl⟩ := List.mem_map.mp hline
    have hfits : pData.FitsInts := drawProcesses_fitsInts (by omega) pData hdrawn
    rw [readRecords, stretches_short (length_columns hfits), List.filterMap_cons_none]
    · rfl
    · exact readLine_columns hfits

theorem testFile_loads_none (outside : ℤ → Option ℤ) (rand : ℕ → ℕ) (h : no < 2 ^ 31)
    (junk : Process) :
    (readProcessesFile outside (testFile rand no) (pqInit 20 .sortByArrivalTime junk)).toList =
      [] := by
  rw [readProcessesFile_eq, pushed_testFile outside rand h]
  rfl

theorem readsBack_length (h : no < 2 ^ 31) (hback : ReadsBack outside rand no) : no = 0 := by
  obtain ⟨ps, hperm, hlen, -⟩ := hback unusedProcess
  rw [testFile_loads_none outside rand h] at hperm
  rw [← hlen, hperm.symm.eq_nil]
  rfl

/-- Four columns are written and five are wanted: only the file without processes is read back. -/
theorem readsBack_iff (outside : ℤ → Option ℤ) (rand : ℕ → ℕ) (no : ℕ) (h : no < 2 ^ 31) :
    ReadsBack outside rand no ↔ no = 0 := by
  constructor
  · exact readsBack_length h
  · rintro rfl junk
    exact ⟨[], .of_eq (testFile_loads_none outside rand h junk), rfl, .nil⟩

theorem readsBack_empty : ReadsBack (fun _ => none) (fun _ => 4) 0 :=
  (readsBack_iff (fun _ => none) (fun _ => 4) 0 (by omega)).mpr rfl

theorem oneProcess_not_readBack :
    testProcesses (fun _ => 4) 1 = [⟨1, 5, 4, 4⟩] ∧
      testFile (fun _ => 4) 1 =
        testHeading ++ ['\n', '1', '\t', '5', '\t', '4', '\t', '4', '\n'] ∧
      ¬ ReadsBack (fun _ => none) (fun _ => 4) 1 := by
  refine ⟨by decide, by decide, ?_⟩
  intro h
  have hzero := readsBack_length (by omega) h
  omega

end KernelSim
