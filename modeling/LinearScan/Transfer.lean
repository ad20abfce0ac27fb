import LinearScan.Problem

/-!
# Transfers

Where a value has to change its place once all traces are allocated: at a split inside a block,
on an edge between blocks, and for operands that read a copy. Transfers name intervals, since the
stack slots are not known yet.
-/

namespace LinearScan

/-- The order of move groups at one point. -/
inductive TransferRank where
  | inEdge
  | split
  | copy
  | outEdge
deriving DecidableEq

namespace TransferRank

def index : TransferRank → Nat
  | .inEdge => 0
  | .split => 1
  | .copy => 2
  | .outEdge => 3

end TransferRank

/-- Where a transfer takes its value. -/
inductive TransferDest where
  | interval (id : Nat)
  | reg (r : PhysReg)
deriving DecidableEq

structure Transfer where
  pos : Nat
  rank : TransferRank
  /-- The interval that the value comes from. -/
  source : Nat
  dest : TransferDest
  /-- The value that arrives. -/
  vreg : VirtReg
deriving DecidableEq

/-- An edge with the transfers on it. -/
structure EdgePlan where
  source : Nat
  target : Nat
  point : Nat
  transfers : List Transfer
deriving DecidableEq

namespace Assignment

variable (p : Problem) (a : Assignment)

def isSpilled (id : Nat) : Bool := (a.interval? id).any Interval.spilled

def allocOf (id : Nat) : Allocation := ((a.interval? id).map Interval.alloc).getD .none

/-- Do two intervals of one value keep it in the same place? All its stack intervals share one
slot. -/
def samePlace (x y : Nat) : Bool :=
  if a.isSpilled x || a.isSpilled y then a.isSpilled x && a.isSpilled y
  else a.allocOf x == a.allocOf y

/-! ## Splits -/

/-- The transfer into a split-off interval that starts inside a block. At the start of a block the
edges take care of it. -/
def splitTransfer (v : VirtReg) (child : Nat) : Option Transfer := do
  let iv ← a.interval? child
  if p.flow.isBlockStart iv.start then none
  let source ← a.intervalAt p v.num (iv.start - 1)
  if a.samePlace source child then none
  return ⟨iv.start, .split, source, .interval child, v⟩

def splitTransfers : List Transfer :=
  (List.range p.values.size).flatMap fun v =>
    (a.rootsOf v).flatMap fun root =>
      ((a.family root).drop 1).filterMap (a.splitTransfer p (p.value v))

/-! ## Edges -/

/-- Does block `b` take its edge moves at its own start? -/
def takesInEdge (b : Nat) : Bool := (p.routine.preds b).length == 1 && b != p.routine.entry

/-- The transfer of one value over an edge: `src` at the point `exit` becomes `dst` at the point
`entry`. -/
def edgeTransfer (rank : TransferRank) (exit entry pos : Nat) (src dst : VirtReg) :
    Option Transfer := do
  let x ← a.intervalAt p src.num exit
  let y ← a.intervalAt p dst.num entry
  if src = dst then
    if a.samePlace x y then none
  else
    if !a.isSpilled x && a.allocOf x == a.allocOf y then none
  return ⟨pos, rank, x, .interval y, dst⟩

/-- The values that pass the edge from block `s` to block `t`: those live into `t`, and the
arguments with the parameters they become. -/
def edgeValues (s t : Nat) : List (VirtReg × VirtReg) :=
  let live := (p.live.into t).toList.map fun v => (p.value v, p.value v)
  let args := match (p.routine.succs s).idxOf? t with
    | some k => (p.routine.branchArgs s k).zip (p.routine.params t)
    | none => []
  live ++ args

/-- Are the ends of the edge from block `s` to block `t` in the code? It matters only if values pass
the edge. -/
def edgeInRange (s t : Nat) : Bool :=
  (edgeValues p s t).isEmpty ||
    (p.routine.hasInstr (p.routine.last s) && p.routine.hasInstr (p.routine.first t))

def edgePlan (s t : Nat) : EdgePlan :=
  let exit := Point.before (p.routine.last s)
  let entry := Point.before (p.routine.first t)
  let (point, rank) := if takesInEdge p t then (entry, .inEdge) else (exit, .outEdge)
  { source := s, target := t, point
    transfers := (edgeValues p s t).filterMap fun (src, dst) =>
      a.edgeTransfer p rank exit entry point src dst }

/-- All edges, in the order of the traces and of the blocks that they lead to. -/
def edgePlans : List EdgePlan :=
  (List.range p.traces.count).flatMap fun t =>
    (p.traces.blocks t).flatMap fun b =>
      (p.routine.preds b).map fun s => a.edgePlan p s b

/-! ## Copies -/

def copyTransfers : List Transfer :=
  a.copies.toList.filterMap fun c =>
    let pos := Point.before c.instr
    (a.intervalAt p c.vreg.num pos).map fun source => ⟨pos, .copy, source, .reg c.reg, c.vreg⟩

/-! ## Stack ranges -/

/-- The points at which a transfer touches a stack slot outside of the interval's own ranges. -/
def touched (t : Transfer) : List (Nat × LiveRange) :=
  let ends := match t.dest with
    | .interval id => [t.source, id]
    | .reg _ => [t.source]
  ends.filterMap fun id =>
    (a.interval? id).bind fun iv =>
      if iv.spilled && !iv.covers t.pos then some (iv.vreg.num, .point t.pos) else none

/-- For each value, the ranges over which it needs its stack slot. -/
def stackRanges (transfers : List Transfer) : Array (List LiveRange) :=
  let own := a.intervals.toList.flatMap fun iv =>
    if iv.spilled then iv.ranges.map fun r => (iv.vreg.num, r) else []
  (own ++ transfers.flatMap a.touched).foldl
    (fun table (v, r) => table.modify v (· ++ [r])) (Array.replicate p.values.size [])

end Assignment

end LinearScan
