import LinearScan.ControlFlow
import LinearScan.Event

/-!
# Liveness

Which values are live into and out of each block: a backward analysis that visits blocks from a
queue until nothing changes. Branch arguments are live out of their block, and block parameters
are not live into theirs.
-/

namespace LinearScan

structure Liveness where
  /-- The values live into each block. -/
  liveIn : Array IndexSet
  /-- The values that some successor of each block needs, branch arguments apart. -/
  liveOut : Array IndexSet

namespace Liveness

def into (l : Liveness) (b : Nat) : IndexSet := l.liveIn.getD b .empty

def outOf (l : Liveness) (b : Nat) : IndexSet := l.liveOut.getD b .empty

end Liveness

namespace Routine

variable (f : Routine)

/-- The values live before an instruction, given those live after it. -/
def liveBefore (i : Nat) (live : IndexSet) : IndexSet :=
  let ops := f.operands i
  let written := (ops.filter Operand.writes).map (·.vreg.num)
  let read := (ops.filter Operand.isUse).map (·.vreg.num)
  (live.eraseMany written).insertMany read

/-- The values live at the end of block `b`, given those that its successors need. -/
def liveAtEnd (b : Nat) (out : IndexSet) : IndexSet :=
  out.insertMany ((f.allBranchArgs b).map VirtReg.num)

/-- The values live into block `b`, given those that its successors need. -/
def liveAtStart (b : Nat) (out : IndexSet) : IndexSet :=
  let live := (f.span b).toList.foldr f.liveBefore (f.liveAtEnd b out)
  live.eraseMany ((f.params b).map VirtReg.num)

/-! ## The queue -/

/-- The analysis under way. -/
structure LiveSearch where
  known : Liveness
  /-- The blocks still to visit. -/
  queue : List Nat
  /-- The blocks visited so far, with what was live into them then. -/
  visits : Array (Nat × IndexSet)

/-- Adds what block `b` needs to one of its predecessors, which has to be visited again if that
is news to it. -/
def tellPred (live : IndexSet) (s : LiveSearch) (p : Nat) : LiveSearch :=
  let out := s.known.outOf p
  { s with
    known := { s.known with liveOut := s.known.liveOut.setIfInBounds p (out.union live) }
    queue := if out.gains live && !s.queue.contains p then s.queue ++ [p] else s.queue }

/-- Visits block `b`, the other blocks of the queue being `rest`. -/
def visitLive (s : LiveSearch) (b : Nat) (rest : List Nat) : LiveSearch :=
  let live := f.liveAtStart b (s.known.outOf b)
  let s := (f.preds b).foldl (tellPred live) { s with queue := rest }
  { s with
    known := { s.known with liveIn := s.known.liveIn.setIfInBounds b live }
    visits := s.visits.push (b, live) }

/-- Visits blocks until the queue is empty, at most the given number of times. -/
def settleLive : Nat → LiveSearch → Option LiveSearch
  | 0, s => if s.queue.isEmpty then some s else none
  | n + 1, s =>
    match s.queue with
    | [] => some s
    | b :: rest => settleLive n (f.visitLive s b rest)

/-- After the first visit of each block, a visit needs a new value live out of the block. -/
def liveBound : Nat := f.numBlocks + f.numBlocks * f.numValues

def searchLive (c : ControlFlow) : Option LiveSearch :=
  let empty := Array.replicate f.numBlocks IndexSet.empty
  f.settleLive f.liveBound ⟨⟨empty, empty⟩, c.postorder, #[]⟩

/-- The liveness of a routine. No value may be live into the entry block. -/
def liveness (c : ControlFlow) : Run Liveness := do
  Run.demand (f.blocks.all fun b => b.preds.all f.hasBlock) .outOfRange
  let some s := f.searchLive c | Run.fault .outOfFuel
  for (b, live) in s.visits do
    Run.emit (.liveIn b live)
  if let some v := (s.known.into f.entry).toList.head? then
    Run.emit (.liveAtEntry v)
    Run.refuse .liveAtEntry
  return s.known

end Routine

end LinearScan
