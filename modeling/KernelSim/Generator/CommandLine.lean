import KernelSim.Generator.ExecArguments

/-! The command line of the generator: what `parse_args` makes of it, and what comes of that in the
scheduler. -/
namespace KernelSim
open Decimal PriorityQueue

/-- `filename` is `NULL` where it is `none`. -/
structure SchedulingParams where
  algorithm : SchedulingAlgorithm
  quantum : ℤ
  filename : Option (List Char)
  deriving DecidableEq, Repr

/-- What the `strcmp`s make of the word behind `-s`. -/
def namedAlgorithm (word : List Char) : Option SchedulingAlgorithm :=
  if word = "rr".toList then some .RR
  else if word = "hpf".toList then some .HPF
  else if word = "srtn".toList then some .SRTN
  else none

/-- What `parse_args` prints before it returns 0. -/
inductive Complaint
  | usage (program : List Char)
  | unknownAlgorithm (word : List Char)
  | missingFile
  | quantumNotPositive
  deriving DecidableEq, Repr

def Complaint.text : Complaint → List Char
  | .usage program => "Usage: ".toList ++ program ++
      " -s <scheduling-algorithm> -f <processes-text-file> [-q <quantum>]\n".toList
  | .unknownAlgorithm word => "Unknown scheduling algorithm: ".toList ++ word ++ "\n".toList
  | .missingFile => "Missing process file (-f <filename>)\n".toList
  | .quantumNotPositive => "Round Robin requires a positive quantum (-q <quantum>)\n".toList

/-- What is printed tells which of them it was, and about which word. -/
theorem Complaint.text_injective : Function.Injective Complaint.text := by
  have hhead : ∀ c : Complaint, c.text.take 2 = match c with
      | .usage _ => ['U', 's']
      | .unknownAlgorithm _ => ['U', 'n']
      | .missingFile => ['M', 'i']
      | .quantumNotPositive => ['R', 'o'] := by
    intro c
    cases c <;> rfl
  intro c d h
  have htake := congrArg (List.take 2) h
  rw [hhead, hhead] at htake
  cases c with
  | usage program =>
    cases d with
    | usage program' =>
      exact congrArg Complaint.usage (List.append_cancel_left (List.append_cancel_right h))
    | _ => cases htake
  | unknownAlgorithm word =>
    cases d with
    | unknownAlgorithm word' =>
      exact congrArg Complaint.unknownAlgorithm
        (List.append_cancel_left (List.append_cancel_right h))
    | _ => cases htake
  | missingFile => cases d <;> first | rfl | cases htake
  | quantumNotPositive => cases d <;> first | rfl | cases htake

/-- The loop, from `argv[i]` on. The last word has none behind it and is no option. -/
def parseLoop (outside : ℤ → ℤ) :
    List (List Char) → SchedulingParams → Except Complaint SchedulingParams
  | [], params => .ok params
  | [_], params => .ok params
  | arg :: value :: rest, params =>
    if arg = "-s".toList then
      match namedAlgorithm value with
      | some algorithm => parseLoop outside rest { params with algorithm }
      | none => .error (.unknownAlgorithm value)
    else if arg = "-f".toList then parseLoop outside rest { params with filename := some value }
    else if arg = "-q".toList then
      parseLoop outside rest { params with quantum := atoi outside value }
    else parseLoop outside (value :: rest) params

/-- `parse_args`. -/
def parseArgs (outside : ℤ → ℤ) (argv : List (List Char)) : Except Complaint SchedulingParams :=
  if argv.length < 5 then .error (.usage (argv.headD []))
  else
    match parseLoop outside argv.tail { quantum := 0, filename := none, algorithm := .HPF } with
    | .error complaint => .error complaint
    | .ok params =>
      if params.filename = none then .error .missingFile
      else if params.algorithm = .RR ∧ params.quantum ≤ 0 then .error .quantumNotPositive
      else .ok params

/-- An option with the word behind it. -/
inductive Setting
  | scheduler (word : List Char)
  | file (word : List Char)
  | quantum (word : List Char)
  deriving DecidableEq, Repr

def Setting.words : Setting → List (List Char)
  | .scheduler word => ["-s".toList, word]
  | .file word => ["-f".toList, word]
  | .quantum word => ["-q".toList, word]

/-- The options among the words of a command line, from left to right. -/
def settings : List (List Char) → List Setting
  | [] => []
  | [_] => []
  | arg :: value :: rest =>
    if arg = "-s".toList then .scheduler value :: settings rest
    else if arg = "-f".toList then .file value :: settings rest
    else if arg = "-q".toList then .quantum value :: settings rest
    else settings (value :: rest)

namespace Setting

def algorithm : Setting → Option SchedulingAlgorithm
  | .scheduler word => namedAlgorithm word
  | _ => none

def unknown : Setting → Option (List Char)
  | .scheduler word => if namedAlgorithm word = none then some word else none
  | _ => none

def filename : Setting → Option (List Char)
  | .file word => some word
  | _ => none

def asked (outside : ℤ → ℤ) : Setting → Option ℤ
  | .quantum word => some (atoi outside word)
  | _ => none

end Setting

namespace CommandLine

/-- The last of what `pick` finds in the options, if it finds anything. -/
def lastOf {α : Type} (pick : Setting → Option α) (default : α) (options : List Setting) : α :=
  (options.filterMap pick).getLastD default

/-- What a user asks for with these options: the last of a kind counts. -/
def request (outside : ℤ → ℤ) (options : List Setting) : SchedulingParams :=
  { algorithm := lastOf Setting.algorithm .HPF options
    quantum := lastOf (Setting.asked outside) 0 options
    filename := lastOf (fun o => o.filename.map some) none options }

/-- The answer to the request: the complaint about the first unknown algorithm comes first. -/
def answer (outside : ℤ → ℤ) (options : List Setting) : Except Complaint SchedulingParams :=
  let params := request outside options
  match (options.filterMap Setting.unknown).head? with
  | some word => .error (.unknownAlgorithm word)
  | none =>
    if params.filename = none then .error .missingFile
    else if params.algorithm = .RR ∧ params.quantum ≤ 0 then .error .quantumNotPositive
    else .ok params

variable {outside : ℤ → ℤ} {args : List (List Char)} {params : SchedulingParams}
  {options : List Setting} {option : Setting}

theorem lastOf_cons {α : Type} (pick : Setting → Option α) (default : α) :
    lastOf pick default (option :: options) = lastOf pick ((pick option).getD default) options := by
  unfold lastOf
  cases h : pick option with
  | none => rw [List.filterMap_cons_none h, Option.getD_none]
  | some x =>
    rw [List.filterMap_cons_some h, Option.getD_some]
    cases options.filterMap pick <;> rfl

/-- The loop changes what the options change, or stops at the first unknown algorithm. -/
theorem parseLoop_eq (outside : ℤ → ℤ) (args : List (List Char)) (params : SchedulingParams) :
    parseLoop outside args params =
      match ((settings args).filterMap Setting.unknown).head? with
      | some word => .error (.unknownAlgorithm word)
      | none => .ok
        { algorithm := lastOf Setting.algorithm params.algorithm (settings args)
          quantum := lastOf (Setting.asked outside) params.quantum (settings args)
          filename := lastOf (fun o => o.filename.map some) params.filename (settings args) } := by
  induction args using settings.induct generalizing params with
  | case1 => rfl
  | case2 => rfl
  | case3 value rest ih =>
    have hset : settings ("-s".toList :: value :: rest) = .scheduler value :: settings rest :=
      if_pos rfl
    have hloop : parseLoop outside ("-s".toList :: value :: rest) params =
        match namedAlgorithm value with
        | some algorithm => parseLoop outside rest { params with algorithm }
        | none => .error (.unknownAlgorithm value) := if_pos rfl
    rw [hloop, hset]
    cases h : namedAlgorithm value with
    | none => simp [Setting.unknown, h]
    | some algorithm =>
      have hknown : Setting.unknown (.scheduler value) = none := by simp [Setting.unknown, h]
      have hnamed : Setting.algorithm (.scheduler value) = some algorithm := h
      rw [List.filterMap_cons_none hknown, lastOf_cons, lastOf_cons, lastOf_cons, hnamed]
      exact ih _
  | case4 value rest hs ih =>
    have hset : settings ("-f".toList :: value :: rest) = .file value :: settings rest := by
      rw [settings, if_neg hs, if_pos rfl]
    have hloop : parseLoop outside ("-f".toList :: value :: rest) params =
        parseLoop outside rest { params with filename := some value } := by
      rw [parseLoop, if_neg hs, if_pos rfl]
    rw [hloop, hset, List.filterMap_cons_none rfl, lastOf_cons, lastOf_cons, lastOf_cons]
    exact ih _
  | case5 value rest hs hf ih =>
    have hset : settings ("-q".toList :: value :: rest) = .quantum value :: settings rest := by
      rw [settings, if_neg hs, if_neg hf, if_pos rfl]
    have hloop : parseLoop outside ("-q".toList :: value :: rest) params =
        parseLoop outside rest { params with quantum := atoi outside value } := by
      rw [parseLoop, if_neg hs, if_neg hf, if_pos rfl]
    rw [hloop, hset, List.filterMap_cons_none rfl, lastOf_cons, lastOf_cons, lastOf_cons]
    exact ih _
  | case6 arg value rest hs hf hq ih =>
    rw [parseLoop, if_neg hs, if_neg hf, if_neg hq, settings, if_neg hs, if_neg hf, if_neg hq]
    exact ih _

/-- So does the whole call. -/
theorem parseArgs_eq {argv : List (List Char)} (hlen : 5 ≤ argv.length) :
    parseArgs outside argv = answer outside (settings argv.tail) := by
  rw [parseArgs, if_neg (by omega), parseLoop_eq, answer]
  cases ((settings argv.tail).filterMap Setting.unknown).head? <;> rfl

/-- A command line made of options is read as these options. -/
theorem settings_words (options : List Setting) :
    settings (options.flatMap Setting.words) = options := by
  induction options with
  | nil => rfl
  | cons option options ih =>
    cases option with
    | scheduler word => exact congrArg (.scheduler word :: ·) ih
    | file word => exact congrArg (.file word :: ·) ih
    | quantum word => exact congrArg (.quantum word :: ·) ih

theorem length_words (options : List Setting) :
    (options.flatMap Setting.words).length = 2 * options.length := by
  induction options with
  | nil => rfl
  | cons option options ih =>
    rw [List.flatMap_cons, List.length_append, ih, List.length_cons]
    cases option <;> simp only [Setting.words, List.length_cons, List.length_nil] <;> omega

/-- What is accepted is what was asked for, with a file, and with a positive quantum where the
algorithm needs one. -/
theorem answer_ok (h : answer outside options = .ok params) :
    params = request outside options ∧ params.filename ≠ none ∧
      (params.algorithm = .RR → 0 < params.quantum) := by
  rw [answer] at h
  cases hunknown : (options.filterMap Setting.unknown).head? with
  | some word =>
    rw [hunknown] at h
    cases h
  | none =>
    rw [hunknown] at h
    dsimp only at h
    by_cases hfile : (request outside options).filename = none
    · rw [if_pos hfile] at h
      cases h
    · rw [if_neg hfile] at h
      by_cases hquantum : (request outside options).algorithm = .RR ∧
          (request outside options).quantum ≤ 0
      · rw [if_pos hquantum] at h
        cases h
      · rw [if_neg hquantum] at h
        cases h
        refine ⟨rfl, hfile, fun ha => ?_⟩
        by_contra hle
        exact hquantum ⟨ha, by omega⟩

theorem fitsInt_atoi (hout : ∀ n, FitsInt (outside n)) (text : List Char) :
    FitsInt (atoi outside text) := by
  unfold atoi
  split
  · exact ⟨by decide, by decide⟩
  · split
    · assumption
    · exact hout _

theorem fitsInt_lastOf_asked (hout : ∀ n, FitsInt (outside n)) (options : List Setting) :
    FitsInt (lastOf (Setting.asked outside) 0 options) := by
  have hall : ∀ z ∈ options.filterMap (Setting.asked outside), FitsInt z := by
    intro z hz
    obtain ⟨option, -, heq⟩ := List.mem_filterMap.mp hz
    cases option with
    | quantum word =>
      cases heq
      exact fitsInt_atoi hout word
    | _ => cases heq
  unfold lastOf
  rw [List.getLastD_eq_getLast?]
  cases h : (options.filterMap (Setting.asked outside)).getLast? with
  | none => exact ⟨by decide, by decide⟩
  | some z => exact hall z (List.mem_of_getLast? h)

/-- The quantum is written for round robin only, so it is of no account elsewhere. -/
theorem strings_fit {params : SchedulingParams} {semid : ℤ} (hsemid : 0 ≤ semid)
    (hquantum : params.algorithm = .RR → 0 < params.quantum) :
    (∀ str ∈ schedulerStrings params.algorithm params.quantum semid, str.Fits) ↔
      semid < 10 ^ 9 ∧ (params.algorithm = .RR → params.quantum < 10 ^ 9) := by
  by_cases hRR : params.algorithm = .RR
  · exact schedulerStrings_fit params.algorithm (hquantum hRR) hsemid
  · have hone : schedulerStrings params.algorithm params.quantum semid =
        schedulerStrings params.algorithm 1 semid := by
      rw [schedulerStrings, schedulerStrings, if_neg hRR, if_neg hRR]
    rw [hone, schedulerStrings_fit params.algorithm (by omega) hsemid]
    exact and_congr_right fun _ => ⟨fun _ h => absurd h hRR, fun _ h => absurd h hRR⟩

/-- Every command line is answered by its options, the last of a kind, and any list of options can
be put on one; what is accepted is what the scheduler then reads from its own arguments, where these
fit in their arrays. -/
theorem parseArgs_honoured (outside : ℤ → ℤ) (hout : ∀ n, FitsInt (outside n)) (semid : ℤ)
    (hsemid : 0 ≤ semid ∧ semid < 2 ^ 31) (program : List Char) :
    (∀ args : List (List Char), 4 ≤ args.length →
      parseArgs outside (program :: args) = answer outside (settings args)) ∧
    (∀ options : List Setting, 2 ≤ options.length →
      parseArgs outside (program :: options.flatMap Setting.words) = answer outside options) ∧
    ∀ args params, parseArgs outside (program :: args) = .ok params →
      let asked := request outside (settings args)
      let strings := schedulerStrings params.algorithm params.quantum semid
      params = asked ∧ asked.filename ≠ none ∧ (asked.algorithm = .RR → 0 < asked.quantum) ∧
        ((∀ str ∈ strings, str.Fits) ↔
          semid < 10 ^ 9 ∧ (asked.algorithm = .RR → asked.quantum < 10 ^ 9)) ∧
        ((∀ str ∈ strings, str.Fits) →
          schedulerMain outside (execl "scheduler".toList strings) = some
            { algorithm := asked.algorithm.code
              quantum := if asked.algorithm = .RR then asked.quantum else 0
              semid }) := by
  refine ⟨fun args hlen => ?_, fun options hlen => ?_, fun args params h => ?_⟩
  · have hfull : 5 ≤ (program :: args).length := by
      rw [List.length_cons]
      omega
    exact parseArgs_eq hfull
  · rw [parseArgs_eq (by rw [List.length_cons, length_words]; omega), List.tail_cons,
      settings_words]
  · intro asked strings
    have hlen : 5 ≤ (program :: args).length := by
      by_contra hlt
      rw [parseArgs, if_pos (by omega)] at h
      cases h
    rw [parseArgs_eq hlen] at h
    obtain ⟨rfl, hfile, hquantum⟩ := answer_ok h
    exact ⟨rfl, hfile, hquantum, strings_fit hsemid.1 hquantum, fun _ =>
      schedulerMain_execl (fitsInt_lastOf_asked hout (settings args)) ⟨by omega, hsemid.2⟩⟩

/-- Twice `-s`, a word that is no option, and a file named like an option. -/
theorem parseArgs_honoured_rr :
    parseArgs (fun _ => 0) ["pg".toList, "-s".toList, "hpf".toList, "-x".toList, "-f".toList,
        "-q".toList, "-q".toList, "3".toList, "-s".toList, "rr".toList] =
      .ok { algorithm := .RR, quantum := 3, filename := some "-q".toList } ∧
    schedulerMain (fun _ => 0) (execl "scheduler".toList (schedulerStrings .RR 3 32768)) =
      some { algorithm := 2, quantum := 3, semid := 32768 } := by
  have hparsed : parseArgs (fun _ => 0) ["pg".toList, "-s".toList, "hpf".toList, "-x".toList,
        "-f".toList, "-q".toList, "-q".toList, "3".toList, "-s".toList, "rr".toList] =
      .ok { algorithm := .RR, quantum := 3, filename := some "-q".toList } := by
    decide +kernel
  obtain ⟨-, -, haccepted⟩ := parseArgs_honoured (fun _ => 0)
    (fun _ => ⟨by omega, by omega⟩) 32768 ⟨by decide, by decide⟩ "pg".toList
  obtain ⟨hasked, -, -, hfits, hread⟩ := haccepted _ _ hparsed
  rw [← hasked] at hfits hread
  exact ⟨hparsed, hread (hfits.mpr ⟨by decide, fun _ => by decide⟩)⟩

end CommandLine
end KernelSim
