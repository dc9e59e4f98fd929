import KernelSim.Library.Formats
import KernelSim.Memory.SlotTable

/-! What can be read back from the text of `memory.log`: who holds which memory. -/
namespace KernelSim
open Decimal Formats Simulation

/-- The line that `log_memory_event` appends to `memory.log`. -/
def MemoryEvent.line (e : MemoryEvent) : List Char :=
  if e.allocate then
    "At time ".toList ++ decimal e.time ++ " allocated ".toList ++ decimal e.bytes ++
      " bytes for process ".toList ++ decimal e.processId ++ " from ".toList ++ decimal e.start ++
      " to ".toList ++ decimal e.stop ++ "\n".toList
  else
    "At time ".toList ++ decimal e.time ++ " freed ".toList ++ decimal e.bytes ++
      " bytes from process ".toList ++ decimal e.processId ++ " from ".toList ++ decimal e.start ++
      " to ".toList ++ decimal e.stop ++ "\n".toList

/-- The text of `memory.log`. -/
def memoryText (log : List MemoryEvent) : List Char := log.flatMap MemoryEvent.line

/-- The lines of `memory.log` as a format: a time, what was done, the bytes, the id, the range. -/
def memoryFormat : Format :=
  .text "At time ".toList (.int (.oneOf [" allocated ".toList, " freed ".toList] fun i =>
    .int (.text ((if i = 0 then " bytes for" else " bytes from") ++ " process ").toList (.int
      (.text " from ".toList (.int (.text " to ".toList (.int (.text "\n".toList .stop)))))))))

namespace MemoryEvent

def fields (e : MemoryEvent) : List Field :=
  [.int e.time, .word (if e.allocate then 0 else 1), .int e.bytes, .int e.processId, .int e.start,
    .int e.stop]

def ofFields : List Field → Option MemoryEvent
  | [.int time, .word i, .int bytes, .int processId, .int start, .int stop] =>
    some { time, allocate := i == 0, bytes, processId, start, stop }
  | _ => none

end MemoryEvent

/-- What a process holds, as `memory.log` tells it. -/
structure Holding where
  processId : ℤ
  bytes : ℤ
  start : ℤ
  stop : ℤ
  deriving DecidableEq, Repr

def LiveBlock.holding (v : LiveBlock) : Holding :=
  { processId := v.idFromFile, bytes := v.allocated, start := v.start, stop := v.stop }

/-- One record played back on what was held before it. -/
def replayEvent (held : List Holding) (e : MemoryEvent) : List Holding :=
  if e.allocate then
    { processId := e.processId, bytes := e.bytes, start := e.start, stop := e.stop } :: held
  else held.filter (·.processId != e.processId)

def replay (log : List MemoryEvent) : List Holding := log.foldl replayEvent []

/-- The records of a text, played back. -/
def holdingsOf (text : List Char) : List Holding :=
  replay ((readAll memoryFormat text).filterMap MemoryEvent.ofFields)

/-- The table holds what its log plays back to, one block an id. -/
structure Replays (table : SlotTable) : Prop where
  held : replay table.log = table.blocks.map LiveBlock.holding
  ids : ∀ v ∈ table.blocks, ∀ w ∈ table.blocks,
    v.idFromFile = w.idFromFile ↔ v.processPid = w.processPid

variable {log : List MemoryEvent} {e : MemoryEvent} {table : SlotTable} {op : MemoryOp}

theorem line_eq (e : MemoryEvent) : e.line = print memoryFormat e.fields := by
  simp only [MemoryEvent.line, MemoryEvent.fields, memoryFormat]
  split <;> simp [print]

theorem unambiguous_memoryFormat : Unambiguous memoryFormat := by decide

theorem fits_fields (e : MemoryEvent) : Conforms memoryFormat e.fields := by
  cases h : e.allocate <;> simp [memoryFormat, MemoryEvent.fields, Conforms, h]

theorem ofFields_fields (e : MemoryEvent) : MemoryEvent.ofFields e.fields = some e := by
  obtain ⟨time, allocate, bytes, processId, start, stop⟩ := e
  cases allocate <;> rfl

/-- The text tells every event. -/
theorem readAll_memoryText (log : List MemoryEvent) :
    (readAll memoryFormat (memoryText log)).filterMap MemoryEvent.ofFields = log := by
  have htext : memoryText log = (log.map MemoryEvent.fields).flatMap (print memoryFormat) := by
    rw [memoryText, List.flatMap_map]
    exact List.flatMap_congr fun e _ => line_eq e
  have hpos : ∀ fields ∈ log.map MemoryEvent.fields, print memoryFormat fields ≠ [] := by
    intro fields hf
    obtain ⟨e, -, rfl⟩ := List.mem_map.mp hf
    simp [memoryFormat, print]
  have hfits : ∀ fields ∈ log.map MemoryEvent.fields, Conforms memoryFormat fields := by
    intro fields hf
    obtain ⟨e, -, rfl⟩ := List.mem_map.mp hf
    exact fits_fields e
  rw [htext, readAll_print unambiguous_memoryFormat hfits hpos rfl, List.filterMap_map]
  simp [ofFields_fields]

theorem replay_snoc (log : List MemoryEvent) (e : MemoryEvent) :
    replay (log ++ [e]) = replayEvent (replay log) e := by
  simp [replay]

theorem replays_request {id size pid : ℤ} (time : ℤ) (h : Replays table)
    (hok : table.Proper (.admission id size pid time)) :
    Replays (table.request id size pid time).1 := by
  unfold SlotTable.request
  dsimp only
  split
  · obtain ⟨-, -, -, -, hfresh⟩ := hok
    constructor
    · simp [replay_snoc, replayEvent, h.held, LiveBlock.holding]
    · intro v hv w hw
      rcases List.mem_cons.mp hv with rfl | hv <;> rcases List.mem_cons.mp hw with rfl | hw
      · simp
      · have := hfresh w hw
        grind
      · have := hfresh v hv
        grind
      · exact h.ids v hv w hw
  · exact h

theorem replays_release (pid time : ℤ) (h : Replays table) :
    Replays (table.release pid time).1 := by
  unfold SlotTable.release
  split
  · rename_i v hv
    have hmem : v ∈ table.blocks := List.mem_of_find?_eq_some hv
    have hpid : v.processPid = pid := by simpa using List.find?_some hv
    constructor
    · simp only [replay_snoc, replayEvent, h.held, Bool.false_eq_true, if_false, List.filter_map]
      congr 1
      apply List.filter_congr
      intro w hw
      have := h.ids w hw v hmem
      rw [hpid] at this
      simp [LiveBlock.holding, bne, this]
    · exact fun w hw u hu => h.ids w (List.mem_filter.mp hw).1 u (List.mem_filter.mp hu).1
  · exact h

theorem replays_step (table : SlotTable) (op : MemoryOp) (h : Replays table)
    (hok : table.Proper op) : Replays (table.step op).1 := by
  cases op with
  | admission id size pid time => exact replays_request time h hok
  | deallocation pid time => exact replays_release pid time h

/-- Whoever reads `memory.log` back and plays it finds each process's id, bytes and range, and
nothing else. -/
theorem memoryLog_tells (ops : List MemoryOp)
    (hok : Allowed SlotTable.Proper SlotTable.step SlotTable.empty ops) (held : Holding) :
    held ∈ holdingsOf (memoryText (after MemoryOp.call initialSegment ops).memoryLog) ↔
      ∃ v ∈ liveBlocks (after MemoryOp.call initialSegment ops), held = v.holding := by
  have hempty : Replays SlotTable.empty := ⟨rfl, by simp [SlotTable.empty]⟩
  have hreplays := hok.invariant replays_step hempty
  obtain ⟨-, himpl⟩ := run_of_allowed call_implements hok Implements.initial
  rw [holdingsOf, readAll_memoryText, himpl.log, hreplays.held, List.mem_map]
  constructor
  · rintro ⟨v, hv, rfl⟩
    exact ⟨v, (himpl.blocks v).mpr hv, rfl⟩
  · rintro ⟨v, hv, rfl⟩
    exact ⟨v, (himpl.blocks v).mp hv, rfl⟩

/-- The log of four processes, one of them gone. -/
theorem memoryLog_tells_four :
    { processId := 4, bytes := 64, start := 128, stop := 191 } ∈
        holdingsOf (memoryText (after MemoryOp.call initialSegment reusedPlace).memoryLog) ↔
      ∃ v ∈ liveBlocks (after MemoryOp.call initialSegment reusedPlace),
        { processId := 4, bytes := 64, start := 128, stop := 191 } = v.holding :=
  memoryLog_tells reusedPlace (by decide) _

end KernelSim
