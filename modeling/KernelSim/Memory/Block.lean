import KernelSim.Headers
import KernelSim.Library.KeyedTree

/-! The buddy tree of `memory_manager.c`: blocks, the search for one, and its release. -/
namespace KernelSim

/-- `struct MemoryBlock` with the address `malloc` gave it. The child pointers are the subtrees
of the tree it sits in. -/
structure MemoryBlock where
  addr : ℕ
  size : ℤ
  allocated : ℤ
  parent : Option ℕ
  processPid : ℤ
  idFromFile : ℤ
  deriving DecidableEq, Repr

/-- The blocks reachable from a `MemoryBlock *`; `nil` is `NULL`. -/
abbrev MemoryTree := BinaryTree MemoryBlock

def MemoryBlock.isAt (block : ℕ) (b : MemoryBlock) : Bool := b.addr == block

/-- One line of `memory.log`. -/
structure MemoryEvent where
  time : ℤ
  allocate : Bool
  bytes : ℤ
  processId : ℤ
  start : ℤ
  stop : ℤ
  deriving DecidableEq, Repr

/-- `Memory_Segment`, the next address `malloc` will return, and `memory.log`. -/
structure Segment where
  root : MemoryTree
  next : ℕ
  memoryLog : List MemoryEvent
  deriving DecidableEq

def blankBlock (addr : ℕ) (size : ℤ) (parent : Option ℕ) : MemoryBlock :=
  { addr, size, allocated := 0, parent, processPid := -1, idFromFile := -1 }

def initializeMemorySegment (totalMemorySize : ℤ) (next : ℕ) : Segment :=
  { root := .node (blankBlock next totalMemorySize none) .nil .nil
    next := next + 1
    memoryLog := [] }

/-- A child pointer of `b` that is about to be followed: a missing child is made first. -/
def createChild (b : MemoryBlock) (child : MemoryTree) (next : ℕ) : MemoryTree × ℕ :=
  match child with
  | .nil => (.node (blankBlock next (b.size.tdiv 2) (some b.addr)) .nil .nil, next + 1)
  | .node c l r => (.node c l r, next)

/-- What a block counts for in `getUsedSpace`. -/
def MemoryBlock.used (b : MemoryBlock) : ℤ := if b.processPid ≠ -1 then b.allocated else 0

/-- The loop along `left_child` pointers. -/
def leftSpineUsed : MemoryTree → ℤ
  | .nil => 0
  | .node b l _ => b.used + leftSpineUsed l

/-- The loop along `right_child` pointers. -/
def rightSpineUsed : MemoryTree → ℤ
  | .nil => 0
  | .node b _ r => b.used + rightSpineUsed r

/-- The sums are not wrapped; `usedSpaceExact_always` says which requests keep them in `int`. -/
def getUsedSpace : MemoryTree → ℤ
  | .nil => 0
  | .node _ l r => leftSpineUsed l + rightSpineUsed r

/-- `while (power < x) power *= 2;`, or `none` when the fuel is spent first. -/
def doublePower : ℕ → ℤ → ℤ → Option ℤ
  | 0, _, _ => none
  | fuel + 1, power, x =>
    if power < x then doublePower fuel (wrap32 (power * 2)) x else some power

/-- After 32 doublings an `int` is 0 and stays 0, so a loop still running then never ends. -/
def highestPowerOf2 (x : ℤ) : Option ℤ := if x ≤ 0 then some 1 else doublePower 33 1 x

/-- The search: the tree it leaves (children are made on the way down), the next free address,
and the block found. `none` when the recursion is deeper than the fuel. -/
def traverseMemorySegment : ℕ → MemoryTree → ℤ → ℕ → Option (MemoryTree × ℕ × Option ℕ)
  | 0, _, _, _ => none
  | _ + 1, .nil, _, next => some (.nil, next, none)
  | fuel + 1, .node b left right, neededMemory, next =>
    if b.size < neededMemory ∨ b.processPid ≠ -1 then some (.node b left right, next, none)
    else if b.size = neededMemory ∧ b.processPid = -1 ∧
        b.size - getUsedSpace (.node b left right) ≥ neededMemory then
      some (.node b left right, next, some b.addr)
    else do
      let (left, next) := createChild b left next
      let (left, next, leftResult) ← traverseMemorySegment fuel left neededMemory next
      if leftResult.isSome then
        return (.node b left right, next, leftResult)
      let (right, next) := createChild b right next
      let (right, next, rightResult) ← traverseMemorySegment fuel right neededMemory next
      return (.node b left right, next, rightResult)

def isInSubtree : MemoryTree → ℕ → Bool
  | .nil, _ => false
  | .node b l r, node => b.addr == node || isInSubtree l node || isInSubtree r node

/-- The loop of `get_block_address`. It only steps into a child that holds the block,
so `current` never becomes `NULL`. -/
def addressLoop (block : ℕ) : MemoryTree → ℤ → ℤ → ℤ × ℤ
  | .nil, _, _ => (-1, -1)
  | .node b l r, size, base =>
    if b.addr = block then (base, base + b.size - 1)
    else
      let size := size.tdiv 2
      if isInSubtree l block then addressLoop block l size base
      else if isInSubtree r block then addressLoop block r size (base + size)
      else (-1, -1)

def getBlockAddress (root : MemoryTree) (block : ℕ) : ℤ × ℤ :=
  match root with
  | .nil => (-1, -1)
  | .node b l r =>
    if b.addr = block then (0, b.size - 1) else addressLoop block (.node b l r) b.size 0

def getProcessMemorySegment : MemoryTree → ℤ → ℤ → Option ℕ
  | .nil, _, _ => none
  | .node b l r, idFromFile, pid =>
    if (idFromFile ≠ -1 ∧ b.idFromFile = idFromFile) ∨ (pid ≠ -1 ∧ b.processPid = pid) then
      some b.addr
    else match getProcessMemorySegment l idFromFile pid with
      | some block => some block
      | none => getProcessMemorySegment r idFromFile pid

namespace Segment

/-- A write through a block pointer. -/
def write (seg : Segment) (block : ℕ) (f : MemoryBlock → MemoryBlock) : Segment :=
  { seg with root := KeyedTree.update (·.isAt block) f seg.root }

def logMemoryEvent (seg : Segment) (event : MemoryEvent) : Segment :=
  { seg with memoryLog := seg.memoryLog ++ [event] }

end Segment

/-- Levels below a block of this size, as fuel for the search. -/
def searchFuel : MemoryTree → ℕ
  | .nil => 1
  | .node b _ _ => b.size.toNat + 1

/-- The first half of `allocate_memory`: the rounding and the search. -/
def findBlock (seg : Segment) (processSize : ℤ) : Option (Segment × Option ℕ) := do
  let memoryNeeded ← highestPowerOf2 processSize
  let (root, next, newBlock) ←
    traverseMemorySegment (searchFuel seg.root) seg.root memoryNeeded seg.next
  return ({ seg with root, next }, newBlock)

/-- The second half of `allocate_memory`: the reservation of the block found. -/
def reserveBlock (seg : Segment) (newBlock : ℕ) (idFromFile processSize time : ℤ) : Segment :=
  let seg := seg.write newBlock fun b => { b with idFromFile, allocated := processSize }
  let (start, stop) := getBlockAddress seg.root newBlock
  seg.logMemoryEvent
    { time, allocate := true, bytes := processSize, processId := idFromFile, start, stop }

def allocateIn (seg : Segment) (idFromFile processSize time : ℤ) : Option (Segment × Bool) := do
  let (seg, newBlock) ← findBlock seg processSize
  match newBlock with
  | some block => return (reserveBlock seg block idFromFile processSize time, true)
  | none => return (seg, false)

/-- `none` when the call never returns, which only `highestPowerOf2` can cause. -/
def allocateMemory (seg : Segment) (idFromFile processSize time : ℤ) : Option (Segment × Bool) :=
  match seg.root with
  | .nil => do
    -- The segment made here is bound to the parameter only: the caller's pointer stays `NULL`.
    let fresh := { initializeMemorySegment 1024 seg.next with memoryLog := seg.memoryLog }
    let (used, result) ← allocateIn fresh idFromFile processSize time
    return ({ seg with next := used.next, memoryLog := used.memoryLog }, result)
  | .node _ _ _ => allocateIn seg idFromFile processSize time

def updateId (seg : Segment) (pidFromFile pid : ℤ) : Segment :=
  match getProcessMemorySegment seg.root pidFromFile (-1) with
  | some found => seg.write found fun b => { b with processPid := pid }
  | none => seg

/-- Comparison of a child pointer with `block`. -/
def pointsTo : MemoryTree → ℕ → Bool
  | .nil, _ => false
  | .node b _ _, block => b.addr == block

def buddyOf (left right : MemoryTree) (block : ℕ) : MemoryTree :=
  if pointsTo left block then right else left

/-- The test on the buddy: it exists, is not allocated and has no children. -/
def canMerge : MemoryTree → Bool
  | .node c .nil .nil => c.allocated == 0
  | _ => false

/-- The climb from `block`; each round frees at least one block, so the number of blocks
bounds it. -/
def mergeBuddyBlocks : ℕ → MemoryTree → ℕ → MemoryTree
  | 0, root, _ => root
  | fuel + 1, root, block =>
    match KeyedTree.subtree (·.isAt block) root with
    | .nil => root
    | .node b _ _ =>
      match b.parent with
      | none => root
      | some parent =>
        match KeyedTree.subtree (·.isAt parent) root with
        | .nil => root
        | .node _ left right =>
          if canMerge (buddyOf left right block) then
            mergeBuddyBlocks fuel (KeyedTree.prune (·.isAt parent) root) parent
          else root

/-- The fields `deallocate_memory` resets. -/
def MemoryBlock.release (b : MemoryBlock) : MemoryBlock :=
  { b with processPid := -1, idFromFile := -1, allocated := 0 }

def deallocateMemory (seg : Segment) (pid time : ℤ) : Segment × Bool :=
  match getProcessMemorySegment seg.root (-1) pid with
  | none => (seg, false)
  | some toDelete =>
    let (start, stop) := getBlockAddress seg.root toDelete
    let seg := match KeyedTree.subtree (·.isAt toDelete) seg.root with
      | .nil => seg
      | .node b _ _ => seg.logMemoryEvent
          { time, allocate := false, bytes := b.allocated, processId := b.idFromFile, start, stop }
    let seg := seg.write toDelete MemoryBlock.release
    ({ seg with root := mergeBuddyBlocks seg.root.numNodes seg.root toDelete }, true)

end KernelSim
