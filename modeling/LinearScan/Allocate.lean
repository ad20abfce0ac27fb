import LinearScan.SingleAssignment
import LinearScan.Scan
import LinearScan.Transfer
import LinearScan.Frame
import LinearScan.Output
import LinearScan.Total

/-!
# Allocation

`allocate` checks a routine, allocates its traces one after another, gives stack slots to what was
spilled, and turns the transfers into moves.
-/

namespace LinearScan

/-- What the caller decides besides the routine and its traces. -/
structure Options where
  /-- Check that every use has a definition before it. -/
  validate : Bool
  /-- Which classes can be copied from one stack slot to another directly. -/
  stackToStack : PerClass Bool

def Options.standard : Options := ⟨false, ⟨false, false, false⟩⟩

namespace Assignment

variable (p : Problem) (a : Assignment)

/-! ## Stack slots -/

/-- Gives a slot to each value that needs one. -/
def chooseSlots (ranges : Array (List LiveRange)) :
    Run (Array SharedSlot × Array (Option Nat)) :=
  (List.range p.values.size).foldlM (fun (slots, choice) v => do
    let needed := ranges.getD v []
    if needed.isEmpty then
      return (slots, choice.push none)
    let vreg := p.value v
    Run.demand vreg.isLegible .illegible
    let needed := LiveRange.normalize needed
    let (k, slots) ← Run.sound
      (SharedSlot.place slots (p.routine.slotSizes.get vreg.cls) needed)
    Run.emit (.slotAssigned vreg k needed)
    return (slots, choice.push (some k))) (#[], #[])

/-- Takes the slots from the frame, in order. -/
def layOutSlots (f : Routine) (slots : List SharedSlot) (frame : Frame) :
    Except Fault (Array SpillSlot × Frame) :=
  slots.foldlM (fun (taken, frame) s => do
    let (slot, frame) ← frame.take f.namedByLast s.size
    return (taken.push slot, frame)) (#[], frame)

/-- The intervals with the spilled ones in the slots of their values. -/
def settle (choice : Array (Option Nat)) (slots : Array SpillSlot) : Assignment :=
  let place (iv : Interval) : Interval :=
    if iv.spilled then
      let slot := (choice.getD iv.vreg.num none).bind (slots[·]?)
      { iv with alloc := (slot.map Allocation.stack).getD .none }
    else iv
  { a with intervals := a.intervals.map place }

def assignSlots (transfers : List Transfer) : Run (Assignment × Frame × Nat) := do
  let (slots, choice) ← chooseSlots p (a.stackRanges p transfers)
  let (taken, frame) ← Run.sound (layOutSlots p.routine slots.toList .empty)
  Run.emit .slotsAssigned
  return (a.settle choice taken, frame, slots.size)

/-! ## Operands -/

/-- The locations of all operands. -/
def operandAllocs : Array (List Allocation) :=
  let blank := p.routine.instrs.map fun i => i.operands.map fun _ => Allocation.none
  let uses := a.intervals.toList.flatMap fun iv =>
    iv.uses.map fun u => (Point.instr u.pos, u.slot, iv.alloc)
  let copies := a.copies.toList.map fun c => (c.instr, c.slot, Allocation.reg c.reg)
  (uses ++ copies).foldl (fun table (i, k, alloc) => table.modify i (·.set k alloc)) blank

/-! ## Moves -/

/-- A transfer with its locations. -/
structure LocatedMove where
  pos : Nat
  rank : TransferRank
  move : Move VirtReg

def destOf : TransferDest → Allocation
  | .interval id => a.allocOf id
  | .reg r => .reg r

def locate (t : Transfer) : LocatedMove :=
  ⟨t.pos, t.rank, ⟨a.allocOf t.source, a.destOf t.dest, t.vreg⟩⟩

def LocatedMove.sameGroup (x y : LocatedMove) : Bool := x.pos == y.pos && x.rank == y.rank

def LocatedMove.notAfter (x y : LocatedMove) : Bool :=
  x.pos < y.pos || (x.pos == y.pos && x.rank.index ≤ y.rank.index)

/-- The first two registers of class `c` that hold nothing at a point and take no part in the moves.
An illegible register never holds anything, so it is one of them if the search gets to it. -/
def freeRegs (c : RegClass) (pos : Nat) (group : List (Move VirtReg)) : List PhysReg :=
  let busy := group.flatMap fun m => m.source.reg?.toList ++ m.dest.reg?.toList
  let here := LiveRange.point pos
  ((p.machine.allocatable c).filter fun r =>
    !busy.contains r && !(a.heldIn r).overlaps here && !(a.reservedIn r).overlaps here).take 2

/-- What is being built from the moves. -/
structure Emission where
  frame : Frame
  edits : Array Edit

/-- Orders the moves of one class at one place and emits them. -/
def emitGroup (pos : Nat) (c : RegClass) (group : List (Move VirtReg)) (e : Emission) :
    Run Emission := do
  let seq ← Run.sound (Move.sequentialize group)
  seq.notes.forM fun n => Run.emit (.move n)
  let free := a.freeRegs p c pos group
  Run.demand (free.all PhysReg.isLegible) .illegible
  let scratch : Scratch := {
    free
    dedicated := p.machine.scratch.get c
    victim := (p.machine.allocatable c).head?
    stackToStackOk := p.stackToStack.get c }
  let routing ← Run.sound (seq.route scratch (e.frame.spare p.routine c))
  routing.notes.forM fun n => Run.emit (.move n)
  let frame ← Run.sound (routing.spares.foldlM (Frame.withSpare p.routine c) e.frame)
  let some moves := routing.moves | Run.refuse (.noScratch c)
  moves.forM fun m => Run.emit (.edit pos m.source m.dest)
  return ⟨frame, e.edits ++ (moves.map fun m => ⟨pos, m.source, m.dest, c⟩).toArray⟩

/-- Emits the moves of one point and rank, class by class. -/
def emitGroups (e : Emission) (group : List LocatedMove) : Run Emission :=
  match group with
  | [] => pure e
  | first :: _ => do
    Run.demand (group.all (·.move.tag.isLegible)) .illegible
    RegClass.all.foldlM (fun e c => do
      let moves := (group.map LocatedMove.move).filter (·.tag.cls = c)
      if moves.isEmpty then return e
      a.emitGroup p first.pos c moves e) e

/-- Emits all moves in the order of their points and ranks. -/
def emitMoves (transfers : List Transfer) (frame : Frame) : Run Emission :=
  let sorted := (transfers.map a.locate).mergeSort LocatedMove.notAfter
  (sorted.splitBy LocatedMove.sameGroup).foldlM (a.emitGroups p) ⟨frame, #[]⟩

/-! ## Records -/

def placements : Array Placement :=
  let all := a.intervals.toList.flatMap fun iv =>
    iv.ranges.map fun range => (⟨iv.vreg, iv.trace, range, iv.alloc⟩ : Placement)
  let notAfter (x y : Placement) : Bool :=
    x.vreg.key < y.vreg.key || (x.vreg.key == y.vreg.key && x.range.start ≤ y.range.start)
  (all.mergeSort notAfter).toArray

def edgeRecord (e : EdgePlan) : EdgeRecord :=
  { source := e.source
    target := e.target
    sourceTrace := p.traces.of e.source
    targetTrace := p.traces.of e.target
    state := .resolved
    point := e.point
    moves := e.transfers.map fun t => (a.allocOf t.source, a.destOf t.dest, t.vreg) }

end Assignment

namespace Problem

/-- Finishes an assignment of all traces. -/
def finish (p : Problem) (a : Assignment) : Run Output := do
  let splits := a.splitTransfers p
  let edges := a.edgePlans p
  for e in edges do
    Run.demand (Assignment.edgeInRange p e.source e.target) .outOfRange
    Run.emit (.edge e.source e.target e.transfers.length e.point)
  let transfers := splits ++ edges.flatMap EdgePlan.transfers ++ a.copyTransfers p
  let (a, frame, slots) ← a.assignSlots p transfers
  let e ← a.emitMoves p transfers frame
  let stats := Stats.ofEvents (← get).toList
  return {
    frameSize := e.frame.size
    allocs := a.operandAllocs p
    edits := e.edits
    locations := a.placements
    edges := edges.map (a.edgeRecord p)
    stats := { stats with
      intervals := a.intervals.size
      reservations := total (a.reserved.toList.map fun s => s.ranges.length)
      slots := slots
      splitMoves := splits.length } }

/-- Allocates every trace. -/
def allocate (p : Problem) : Run Output := do
  let a ← (List.range p.traces.count).foldlM p.allocateTrace (.empty p)
  p.finish a

end Problem

namespace Routine

/-- Checks a routine and analyses it for allocation. -/
def problem (f : Routine) (m : Machine) (ts : Traces) (o : Options) : Run Problem := do
  let flow ← Run.check f.controlFlow
  if o.validate then
    Run.check f.checkSingleAssignment
  let values ← Run.check f.values
  let live ← f.liveness flow
  return {
    routine := f
    machine := m
    traces := ts
    flow := flow
    values := values
    live := live
    stackToStack := o.stackToStack }

/-- Allocates registers for a routine, trace by trace. -/
def allocate (f : Routine) (m : Machine) (ts : Traces) (o : Options) : Run Output := do
  (← f.problem m ts o).allocate

end Routine

end LinearScan
