import LinearScan.Routine
import LinearScan.Error
import LinearScan.Total

/-!
# Control flow

`Routine.controlFlow` checks that a routine is well formed and lays out what later steps look up:
a postorder of the blocks, the block of each instruction, the first and the last point of each
block, and how deeply each block is nested in loops.
-/

namespace LinearScan

structure ControlFlow where
  /-- The blocks in the order in which a depth-first walk from the entry leaves them. -/
  postorder : List Nat
  /-- The block of each instruction. -/
  blockOfInstr : Array Nat
  /-- The point before the first instruction of each block. -/
  entryPoint : Array Nat
  /-- The point after the last instruction of each block. -/
  exitPoint : Array Nat
  /-- The loop depth of each block. It is exact if the loops are reducible, the blocks are numbered
  in reverse postorder, and the numbers of each loop have no gap. -/
  loopDepth : Array Nat

namespace ControlFlow

/-- The block containing a point. -/
def blockOf (c : ControlFlow) (p : Nat) : Nat := c.blockOfInstr.getD (Point.instr p) 0

def entryOf (c : ControlFlow) (b : Nat) : Nat := c.entryPoint.getD b 0

def depthOf (c : ControlFlow) (b : Nat) : Nat := c.loopDepth.getD b 0

/-- Is the point the first one of its block? -/
def isBlockStart (c : ControlFlow) (p : Nat) : Bool := c.entryOf (c.blockOf p) == p

def reversePostorder (c : ControlFlow) : List Nat := c.postorder.reverse

end ControlFlow

namespace Routine

variable (f : Routine)

/-! ## Postorder -/

/-- How many successors and blocks the open blocks of a walk still have to go through. -/
def openWork (stack : List (Nat × List Nat)) : Nat :=
  total (stack.map fun entry => entry.2.length + 1)

theorem count_false_set {seen : Array Bool} {s : Nat} (h : seen[s]? = some false) :
    (seen.setIfInBounds s true).toList.count false < seen.toList.count false := by
  obtain ⟨hlt, hv⟩ := Array.getElem?_eq_some_iff.1 h
  have hl : s < seen.toList.length := by simpa using hlt
  have hget : seen.toList[s] = false := by simpa using hv
  have hpos : 0 < seen.toList.count false :=
    List.count_pos_iff.2 (hget ▸ List.getElem_mem hl)
  rw [Array.toList_setIfInBounds, List.count_set hl, hget]
  change seen.toList.count false - 1 + 0 < _
  omega

/-- What stops the check when `b` is not a block. The number of no block cannot be reported. -/
def missingBlock {α : Type} (b : Nat) : Except Stop α := do
  Stop.demand (Index.isSet b) .outOfRange
  Stop.refuse (.badBlock b)

/-- A depth-first walk with an explicit stack of open blocks, each with the successors that it
has not looked at yet. -/
def walk (seen : Array Bool) (stack : List (Nat × List Nat)) (left : Array Nat) :
    Except Stop (List Nat) :=
  match stack with
  | [] => .ok left.toList
  | (b, []) :: rest => walk seen rest (left.push b)
  | (b, s :: more) :: rest =>
    match _h : seen[s]? with
    | none => missingBlock s
    | some true => walk seen ((b, more) :: rest) left
    | some false =>
      walk (seen.setIfInBounds s true) ((s, f.succs s) :: (b, more) :: rest) left
termination_by (seen.toList.count false, openWork stack)
decreasing_by
  · apply Prod.Lex.right
    simp only [openWork, List.map_cons, total_cons, List.length_nil]
    omega
  · apply Prod.Lex.right
    simp only [openWork, List.map_cons, total_cons, List.length_cons]
    omega
  · exact Prod.Lex.left _ _ (count_false_set _h)

/-- The blocks reachable from the entry, in postorder. Fails if the entry or the successor of a
reachable block is not a block. -/
def postorder : Except Stop (List Nat) :=
  if f.entry < f.numBlocks then
    f.walk ((Array.replicate f.numBlocks false).setIfInBounds f.entry true)
      [(f.entry, f.succs f.entry)] #[]
  else missingBlock f.entry

/-! ## Blocks -/

/-- Gives the `n` instructions from `i` on to block `b`. Each must exist and be free, and it ends
the block exactly if it is the last. -/
def claim (b : Nat) : Nat → Nat → Array (Option Nat) → Except Stop (Array (Option Nat))
  | _, 0, owner => .ok owner
  | i, n + 1, owner =>
    match owner[i]? with
    | some none =>
      if f.isTerminator i = (i == f.last b) then
        claim b (i + 1) n (owner.setIfInBounds i (some b))
      else Stop.refuse (.badBlock b)
    | _ => Stop.refuse (.badBlock b)

/-- Does the block lead to a block with several entries? -/
def feedsMerge (b : Nat) : Bool := (f.succs b).any fun s => 1 < f.entries s

/-- Checks that block `b` passes each successor as many arguments as that has parameters. -/
def checkArgs (b : Nat) : Except Stop Unit :=
  (f.succs b).zipIdx.forM fun (s, k) => do
    Stop.demand (f.hasArgs b k) .noArguments
    if (f.branchArgs b k).length ≠ (f.params s).length then
      Stop.refuse (.badBranch (f.last b))

/-- Checks that each way into block `b` leaves a block with no other successor, if there are
several. -/
def checkEntries (b : Nat) : Except Stop Unit :=
  if 1 < f.entries b then
    (f.preds b).forM fun p => do
      Stop.demand (f.hasBlock p) .outOfRange
      if 1 < (f.succs p).length then
        Stop.refuse (.criticalEdge p b)
  else .ok ()

/-- Checks that the branch of block `b` has no operands if it leads to a block with several
entries. -/
def checkBranch (b : Nat) : Except Stop Unit :=
  if f.feedsMerge b then do
    Stop.demand (f.hasInstr (f.last b)) .outOfRange
    if !(f.operands (f.last b)).isEmpty then
      Stop.refuse (.branchOperands (f.last b))
  else .ok ()

/-- Checks block `b` and gives it its instructions. -/
def checkBlock (owner : Array (Option Nat)) (b : Nat) : Except Stop (Array (Option Nat)) := do
  if (f.span b).isEmpty then
    Stop.refuse (.badBlock b)
  Stop.demand (Index.isSet (f.first b) && (f.span b).hasLast) .emptySpan
  let owner ← f.claim b (f.first b) (f.span b).length owner
  f.checkArgs b
  f.checkEntries b
  f.checkBranch b
  return owner

/-! ## Loop depth -/

/-- The edges into `b` from blocks that do not come before it. -/
def backEdgesInto (b : Nat) : Nat :=
  total ((List.range f.numBlocks).map fun x =>
    ((f.succs x).filter fun s => s = b ∧ s ≤ x).length)

/-- The edges from `b` to blocks that do not come after it. -/
def backEdgesFrom (b : Nat) : Nat := ((f.succs b).filter (· ≤ b)).length

/-- Takes back edges off the innermost open loops. A loop closes with its last one. -/
def closeLoops : Nat → List Nat → List Nat
  | 0, loops => loops
  | _ + 1, [] => []
  | n + 1, k :: rest => closeLoops n (if k ≤ 1 then rest else (k - 1) :: rest)

/-- The depths of the listed blocks, given how many back edges each open loop still waits for. -/
def loopDepths : List Nat → List Nat → List Nat
  | [], _ => []
  | b :: rest, loops =>
    let inner := if 0 < f.backEdgesInto b then f.backEdgesInto b :: loops else loops
    inner.length :: loopDepths rest (closeLoops (f.backEdgesFrom b) inner)

/-! ## The whole check -/

def controlFlow : Except Stop ControlFlow := do
  let postorder ← f.postorder
  let blocks := List.range f.numBlocks
  if postorder.length ≠ f.numBlocks then
    let unreached := blocks.find? fun b => !postorder.contains b
    Stop.refuse (.badBlock (unreached.getD 0))
  let owner ← blocks.foldlM f.checkBlock (Array.replicate f.numInstrs none)
  if owner.any Option.isNone then
    Stop.refuse (.badBlock (f.numBlocks - 1))
  return {
    postorder
    blockOfInstr := owner.map (·.getD 0)
    entryPoint := (blocks.map fun b => Point.before (f.first b)).toArray
    exitPoint := (blocks.map fun b => Point.after (f.last b)).toArray
    loopDepth := (f.loopDepths blocks []).toArray }

end Routine

end LinearScan
