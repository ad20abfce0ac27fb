import LinearScan.Trace
import LinearScan.Liveness
import LinearScan.Machine
import LinearScan.RangeSet
import LinearScan.Reservation

/-!
# The problem and its solution so far

`Problem` is all that an allocation reads. `Assignment` is what it has decided: the intervals of
the traces done so far with their locations, and which stretches of the registers are taken.
-/

namespace LinearScan

structure Problem where
  routine : Routine
  machine : Machine
  traces : Traces
  flow : ControlFlow
  /-- The values by number. -/
  values : Array VirtReg
  live : Liveness
  /-- Which classes can be copied from one stack slot to another directly. -/
  stackToStack : PerClass Bool

namespace Problem

variable (p : Problem)

def value (v : Nat) : VirtReg := p.values.getD v ⟨v, some .int⟩

/-- A point after every point of the routine. It stands for "never". -/
def horizon : Nat := Point.after p.routine.numInstrs

/-- The trace that a point belongs to. -/
def traceAt (pt : Nat) : Nat := p.traces.of (p.flow.blockOf pt)

end Problem

/-- A copy of a value in a second register, for one operand. -/
structure OperandCopy where
  instr : Nat
  /-- The position of the operand in its instruction. -/
  slot : Nat
  vreg : VirtReg
  reg : PhysReg
deriving DecidableEq

structure Assignment where
  intervals : Array Interval
  /-- For each value, the roots of its intervals in trace order. -/
  roots : Array (List Nat)
  /-- For each register, the ranges of the intervals in it. -/
  held : Array RangeSet
  /-- For each register, its reservations in the traces done so far. -/
  reserved : Array RangeSet
  copies : Array OperandCopy

namespace Assignment

def empty (p : Problem) : Assignment :=
  { intervals := #[]
    roots := Array.replicate p.values.size []
    held := Array.replicate PhysReg.count .empty
    reserved := Array.replicate PhysReg.count .empty
    copies := #[] }

variable (a : Assignment)

def interval? (id : Nat) : Option Interval := a.intervals[id]?

def rootsOf (v : Nat) : List Nat := a.roots.getD v []

/-- An interval and the intervals split off from it. -/
def family (root : Nat) : List Nat :=
  root :: ((a.interval? root).map Interval.children).getD []

/-- The root of value `v` in trace `t`. -/
def rootIn (v t : Nat) : Option Nat :=
  (a.rootsOf v).find? fun id => (a.interval? id).any (·.trace == t)

/-- The interval of value `v` that covers a point. -/
def intervalAt (p : Problem) (v pt : Nat) : Option Nat := do
  let root ← a.rootIn v (p.traceAt pt)
  (a.family root).find? fun id => (a.interval? id).any (·.covers pt)

/-- The register that holds value `v` at a point. -/
def regAt (p : Problem) (v pt : Nat) : Option PhysReg := do
  let id ← a.intervalAt p v pt
  (← a.interval? id).alloc.reg?

def heldIn (r : PhysReg) : RangeSet := a.held.getD r.index .empty

def reservedIn (r : PhysReg) : RangeSet := a.reserved.getD r.index .empty

end Assignment

end LinearScan
