import KernelSim.Generator.Intake
import KernelSim.Library.Decimal
import KernelSim.Library.Lines

/-! `read_processes`, on any content of the process file. A character is a byte. -/
namespace KernelSim
open Decimal Lines PriorityQueue

instance : DecidablePred FitsInt := fun x => inferInstanceAs (Decidable (-2 ^ 31 ≤ x ∧ x < 2 ^ 31))

/-- `fgets` into an array of this size; `none` at the end of the file. -/
def fgets (size : ℕ) (file : List Char) : Option (List Char × List Char) :=
  if file = [] then none else some (takeLine (size - 1) file)

/-- One `%d`: the value stored and the text after it. The standard leaves open what becomes of a
number that is no `int`; `outside` says what the library makes of it, if it makes anything. -/
def scanField (outside : ℤ → Option ℤ) (text : List Char) : Option (ℤ × List Char) :=
  (scanInt text).bind fun (n, rest) =>
    (if FitsInt n then some n else outside n).map fun value => (value, rest)

/-- `sscanf(line, "%d %d %d %d %d", ...)`, where all five are converted. A blank in the format
stands for any white space, none included, which `%d` skips as well. -/
def sscanf (outside : ℤ → Option ℤ) (line : List Char) : Option Process := do
  let text := line.takeWhile (· ≠ '\x00')
  let (id, text) ← scanField outside text
  let (arrivalTime, text) ← scanField outside text
  let (executionTime, text) ← scanField outside text
  let (priority, text) ← scanField outside text
  let (memorySize, _) ← scanField outside text
  return { id, arrivalTime, executionTime, priority, memorySize }

/-- What one turn of the loop pushes. -/
def readLine (outside : ℤ → Option ℤ) (line : List Char) : Option Process :=
  if line.head? = some '#' then none else sscanf outside line

def readLoop (outside : ℤ → Option ℤ) : ℕ → List Char → PriorityQueue → PriorityQueue
  | 0, _, pq => pq
  | fuel + 1, file, pq =>
    match fgets 256 file with
    | none => pq
    | some (line, file) =>
      match readLine outside line with
      | none => readLoop outside fuel file pq
      | some p => readLoop outside fuel file (pqPush pq p)

/-- `read_processes`. The first `fgets` is before the loop, and nothing is done with what it
reads. -/
def readProcessesFile (outside : ℤ → Option ℤ) (file : List Char) (pq : PriorityQueue) :
    PriorityQueue :=
  match fgets 256 file with
  | none => pq
  | some (_, file) => readLoop outside file.length file pq

/-- What the loop pushes, with the number of the line of the file that it is read in. -/
def readLog (outside : ℤ → Option ℤ) : ℕ → ℕ → List Char → List (ℕ × Process)
  | 0, _, _ => []
  | fuel + 1, n, file =>
    match fgets 256 file with
    | none => []
    | some (line, file) =>
      (readLine outside line).toList.map (n, ·) ++
        readLog outside fuel (if '\n' ∈ line then n + 1 else n) file

def pushed (outside : ℤ → Option ℤ) (file : List Char) : List (ℕ × Process) :=
  match fgets 256 file with
  | none => []
  | some (line, file) => readLog outside file.length (if '\n' ∈ line then 1 else 0) file

/-- An integer in the range of `int`, behind any white space. -/
def intField (text : List Char) : Option (ℤ × List Char) :=
  (scanInt text).filter fun (n, _) => FitsInt n

/-- The same where white space is due. -/
def nextField (text : List Char) : Option (ℤ × List Char) :=
  if text.head?.any isSpace then intField text else none

/-- The record that a line describes, if it is no comment and begins with five integers. -/
def lineRecord (line : List Char) : Option Process :=
  if line.head? = some '#' then none
  else do
    let (id, text) ← intField line
    let (arrivalTime, text) ← nextField text
    let (executionTime, text) ← nextField text
    let (priority, text) ← nextField text
    let (memorySize, _) ← nextField text
    return { id, arrivalTime, executionTime, priority, memorySize }

/-- The records of a file, with the numbers of their lines. -/
def processLines (file : List Char) : List (ℕ × Process) :=
  numbered 0 ((lines file).map fun line => (lineRecord line).toList)

/-- For each line the record that it describes is pushed, and the queue holds these and no
others. -/
structure LoadsProcessLines (outside : ℤ → Option ℤ) (file : List Char) : Prop where
  each : pushed outside file = processLines file
  loaded : ∀ junk, (readProcessesFile outside file (pqInit 20 .sortByArrivalTime junk)).toList.Perm
    ((processLines file).map Prod.snd)

/-- Of these parts of a line, one is read as the record that the line describes, and the others
are not read as records; if the line describes none, no part is read as one. -/
structure ReadOnce (outside : ℤ → Option ℤ) (parts : List (List Char)) (line : List Char) :
    Prop where
  whole : ∀ p, lineRecord line = some p → ∃ before part after,
    parts = before ++ part :: after ∧ readLine outside part = some p ∧
      ∀ other ∈ before ++ after, readLine outside other = none
  unread : lineRecord line = none → ∀ part ∈ parts, readLine outside part = none

/-- Each line is read once in its stretches of 255 bytes, the first line in those after the first
stretch. -/
structure LinesReadOnce (outside : ℤ → Option ℤ) (file : List Char) : Prop where
  heading : ∀ line ∈ (lines file).head?, ReadOnce outside (stretches 254 line).tail line
  others : ∀ line ∈ (lines file).tail, ReadOnce outside (stretches 254 line) line

/-- What is read in the stretches of a line. -/
def readRecords (outside : ℤ → Option ℤ) (line : List Char) : List Process :=
  (stretches 254 line).filterMap (readLine outside)

variable {outside : ℤ → Option ℤ} {file line piece : List Char} {rest : List (List Char)}
  {pq : PriorityQueue} {ps : List Process} {p : Process} {fuel n : ℕ}

theorem fgets_of_lines (h : lines file = line :: rest) : fgets 256 file = some (takeLine 255 file) := by
  apply if_neg
  rintro rfl
  cases h

/-- One turn of the loop reads the first stretch of the first line. -/
theorem readRecords_cons (outside : ℤ → Option ℤ) (line : List Char) :
    readRecords outside line = (readLine outside (line.take 255)).toList ++
      (stretches 254 line).tail.filterMap (readLine outside) := by
  unfold readRecords
  by_cases hlen : line.length ≤ 255
  · rw [stretches_short hlen, List.take_of_length_le hlen]
    cases h : readLine outside line <;> simp [h]
  · rw [stretches_long hlen]
    cases h : readLine outside (line.take 255) <;> simp [h]

theorem stretches_tail (hlen : ¬ line.length ≤ 255) :
    (stretches 254 line).tail = stretches 254 (line.drop 255) := by
  rw [stretches_long hlen]
  rfl

/-- The loop goes through the stretches of each line in turn. -/
theorem readLog_eq (hfuel : file.length ≤ fuel) (n : ℕ) :
    readLog outside fuel n file = numbered n ((lines file).map (readRecords outside)) := by
  induction fuel generalizing file n with
  | zero =>
    obtain rfl := List.length_eq_zero_iff.mp (Nat.le_zero.mp hfuel)
    rfl
  | succ fuel ih =>
    cases h : lines file with
    | nil =>
      rw [lines_eq_nil.mp h]
      rfl
    | cons line rest =>
      have hne : file ≠ [] := fun hnil => by
        rw [hnil] at h
        cases h
      have hlt : (takeLine 255 file).2.length < file.length := takeLine_length hne
      obtain ⟨hpiece, hleft⟩ := takeLine_lines h
      obtain ⟨hends, hmem⟩ := newline_mem h 255
      rw [readLog, fgets_of_lines h]
      dsimp only
      rw [ih (by omega), hleft, hpiece, List.map_cons, numbered_cons, readRecords_cons,
        List.map_append, List.append_assoc]
      congr 1
      by_cases hlen : line.length ≤ 255
      · -- the whole line: the next turn reads in the next line, if there is one
        rw [if_pos hlen, stretches_short hlen]
        cases rest with
        | nil => rfl
        | cons next rest =>
          rw [if_pos (hmem hlen (by simp))]
          rfl
      · rw [if_neg hlen, if_neg (fun hin => hlen (hends hin)), List.map_cons, numbered_cons,
          stretches_tail hlen]
        rfl

/-- The first stretch of the file is read for nothing. -/
theorem pushed_cons (h : lines file = line :: rest) :
    pushed outside file =
      numbered 0 ((stretches 254 line).tail.filterMap (readLine outside) ::
        rest.map (readRecords outside)) := by
  obtain ⟨hpiece, hleft⟩ := takeLine_lines h
  obtain ⟨hends, hmem⟩ := newline_mem h 255
  rw [pushed, fgets_of_lines h]
  dsimp only
  rw [readLog_eq (Nat.le_refl _), hleft, hpiece, numbered_cons]
  by_cases hlen : line.length ≤ 255
  · rw [if_pos hlen, stretches_short hlen]
    by_cases hlast : rest = []
    · rw [hlast]
      rfl
    · rw [if_pos (hmem hlen hlast)]
      rfl
  · rw [if_neg hlen, if_neg (fun hin => hlen (hends hin)), List.map_cons, numbered_cons,
      stretches_tail hlen]
    rfl

theorem readLoop_eq (n : ℕ) : readLoop outside fuel file pq =
    ((readLog outside fuel n file).map Prod.snd).foldl pqPush pq := by
  induction fuel generalizing file pq n with
  | zero => rfl
  | succ fuel ih =>
    rw [readLoop, readLog]
    cases fgets 256 file with
    | none => rfl
    | some q =>
      obtain ⟨line, file⟩ := q
      dsimp only
      cases readLine outside line with
      | none => exact ih _
      | some p => exact ih _

/-- The call pushes the records of the lines, and nothing else. -/
theorem readProcessesFile_eq (outside : ℤ → Option ℤ) (file : List Char) (pq : PriorityQueue) :
    readProcessesFile outside file pq =
      readProcesses pq ((pushed outside file).map Prod.snd) := by
  rw [readProcessesFile, pushed]
  cases fgets 256 file with
  | none => rfl
  | some q => exact readLoop_eq _

theorem readProcesses_perm : (readProcesses pq ps).toList.Perm (pq.toList ++ ps) := by
  induction ps generalizing pq with
  | nil => exact .of_eq (List.append_nil _).symm
  | cons p ps ih =>
    have hpush := (pqPush_perm pq p).append_right ps
    rw [List.append_assoc] at hpush
    exact ih.trans hpush

theorem readOnce_iff {parts : List (List Char)} : ReadOnce outside parts line ↔
    parts.filterMap (readLine outside) = (lineRecord line).toList := by
  constructor
  · intro h
    cases hrecord : lineRecord line with
    | none => exact List.filterMap_eq_nil_iff.mpr (h.unread hrecord)
    | some p =>
      obtain ⟨before, part, after, heq, hread, hother⟩ := h.whole p hrecord
      refine List.filterMap_eq_cons_iff.mpr ⟨before, part, after, heq, ?_, hread, ?_⟩
      · exact fun other hin => hother other (List.mem_append_left after hin)
      · exact List.filterMap_eq_nil_iff.mpr fun other hin =>
          hother other (List.mem_append_right before hin)
  · intro h
    constructor
    · intro p hrecord
      rw [hrecord] at h
      obtain ⟨before, part, after, heq, hbefore, hread, hafter⟩ := List.filterMap_eq_cons_iff.mp h
      refine ⟨before, part, after, heq, hread, ?_⟩
      intro other hin
      rcases List.mem_append.mp hin with hin | hin
      · exact hbefore other hin
      · exact List.filterMap_eq_nil_iff.mp hafter other hin
    · intro hrecord
      rw [hrecord] at h
      exact List.filterMap_eq_nil_iff.mp h

/-- Each line counts for itself: what is pushed is right just where it is right for each line. -/
theorem pushed_iff : pushed outside file = processLines file ↔ LinesReadOnce outside file := by
  cases h : lines file with
  | nil =>
    rw [lines_eq_nil.mp h]
    exact iff_of_true rfl ⟨by simp [lines], by simp [lines]⟩
  | cons line rest =>
    rw [pushed_cons h, processLines, h, numbered_inj (by simp), List.map_cons, List.cons.injEq,
      ← readOnce_iff, List.map_inj_left]
    constructor
    · rintro ⟨hfirst, hrest⟩
      refine ⟨?_, ?_⟩
      · rw [h]
        rintro _ ⟨⟩
        exact hfirst
      · rw [h]
        intro other hin
        exact readOnce_iff.mpr (hrest other hin)
    · rintro ⟨hheading, hothers⟩
      rw [h] at hheading hothers
      exact ⟨hheading line rfl, fun other hin => readOnce_iff.mp (hothers other hin)⟩

theorem loads_of_linesReadOnce (h : LinesReadOnce outside file) :
    LoadsProcessLines outside file := by
  have heach := pushed_iff.mpr h
  refine ⟨heach, fun junk => ?_⟩
  rw [readProcessesFile_eq, heach]
  exact readProcesses_perm

/-- The reader loads the process lines of just those files whose lines are each read once. -/
theorem loadsProcessLines_iff (outside : ℤ → Option ℤ) (file : List Char) :
    LoadsProcessLines outside file ↔ LinesReadOnce outside file := by
  constructor
  · intro h
    exact pushed_iff.mp h.each
  · exact loads_of_linesReadOnce

/-! What the condition comes to for a line that fits in the buffer. -/

theorem intField_of_nextField {text after : List Char} {z : ℤ}
    (h : nextField text = some (z, after)) : intField text = some (z, after) := by
  unfold nextField at h
  split at h
  · exact h
  · cases h

theorem scanField_of_intField (outside : ℤ → Option ℤ) {text after : List Char} {z : ℤ}
    (h : intField text = some (z, after)) :
    scanField outside (text.takeWhile (· ≠ '\x00')) =
      some (z, after.takeWhile (· ≠ '\x00')) := by
  obtain ⟨hscan, hfits⟩ := Option.filter_eq_some_iff.mp h
  have hnumeric : ∀ c, isNumeric c = true → decide (c ≠ '\x00') = true := by
    rintro c hc
    rw [decide_eq_true_iff]
    rintro rfl
    cases hc
  have hcut := scanInt_takeWhile hnumeric hscan
  have hfits : FitsInt z := of_decide_eq_true hfits
  rw [scanField, hcut, Option.bind_some]
  dsimp only
  rw [if_pos hfits]
  rfl

/-- A process line is read as the record that it describes, whatever follows the five integers. -/
theorem readLine_of_lineRecord (h : lineRecord line = some p) : readLine outside line = some p := by
  unfold lineRecord at h
  unfold readLine
  split at h
  · cases h
  rename_i hcomment
  rw [if_neg hcomment]
  simp only [Option.bind_eq_bind, Option.bind_eq_some_iff] at h
  obtain ⟨⟨id, text₁⟩, h1, ⟨arrival, text₂⟩, h2, ⟨execution, text₃⟩, h3, ⟨priority, text₄⟩, h4,
    ⟨memory, text₅⟩, h5, heq⟩ := h
  cases heq
  have f1 := scanField_of_intField outside h1
  have f2 := scanField_of_intField outside (intField_of_nextField h2)
  have f3 := scanField_of_intField outside (intField_of_nextField h3)
  have f4 := scanField_of_intField outside (intField_of_nextField h4)
  have f5 := scanField_of_intField outside (intField_of_nextField h5)
  simp only [sscanf, Option.bind_eq_bind, f1, f2, f3, f4, f5, Option.bind_some]
  rfl

/-- On a line that fits in the buffer only what `sscanf` takes for five integers, and the
documentation does not, is read wrong. -/
theorem readOnce_short (hlen : line.length ≤ 255) :
    ReadOnce outside (stretches 254 line) line ↔
      (lineRecord line = none → readLine outside line = none) := by
  rw [readOnce_iff, stretches_short hlen]
  cases h : lineRecord line with
  | none => cases hread : readLine outside line <;> simp [hread]
  | some p => simp [readLine_of_lineRecord h]

/-- A heading that is no process line, and lines that fit in the buffer and have five integers
only as the documentation has them. -/
theorem loads_of_plain (hheading : ∀ line ∈ (lines file).head?, line.length ≤ 255 ∧
      lineRecord line = none)
    (hothers : ∀ line ∈ (lines file).tail, line.length ≤ 255 ∧
      (lineRecord line = none → readLine outside line = none)) :
    LoadsProcessLines outside file := by
  apply loads_of_linesReadOnce
  constructor
  · intro line hline
    obtain ⟨hlen, hnone⟩ := hheading line hline
    rw [readOnce_iff, stretches_short hlen, hnone]
    rfl
  · intro line hline
    obtain ⟨hlen, hnone⟩ := hothers line hline
    exact (readOnce_short hlen).mpr hnone

/-- One process line and no heading. -/
def headless : List Char := ['1', '\t', '1', '\t', '6', '\t', '5', '\t', '9', '\n']

theorem headless_not_loaded :
    processLines headless = [(0, ⟨1, 1, 6, 5, 9⟩)] ∧ pushed (fun _ => none) headless = [] ∧
      ¬ LoadsProcessLines (fun _ => none) headless := by
  have hlines : processLines headless = [(0, ⟨1, 1, 6, 5, 9⟩)] := by decide
  refine ⟨hlines, rfl, ?_⟩
  intro h
  have heach := h.each
  rw [hlines] at heach
  cases heach

end KernelSim
