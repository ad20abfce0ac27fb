import LinearScan.Interval
import LinearScan.Routine
import LinearScan.Search
import LinearScan.Stats

/-!
# Results

What an allocation delivers: a location for each operand, moves to insert before instructions,
and records of where each value is and of what happens on each edge.
-/

namespace LinearScan

/-- A move to insert at a point. -/
structure Edit where
  point : Nat
  source : Allocation
  dest : Allocation
  cls : RegClass
deriving DecidableEq

/-- Where a value is over a range of points of a trace. -/
structure Placement where
  vreg : VirtReg
  trace : Nat
  range : LiveRange
  alloc : Allocation
deriving DecidableEq

inductive EdgeState where
  /-- The two sides have not been compared. -/
  | unresolved
  /-- Values change their locations, and the moves are still to be made. -/
  | scheduled
  | resolved
deriving DecidableEq

/-- The moves on one edge. -/
structure EdgeRecord where
  source : Nat
  target : Nat
  sourceTrace : Nat
  targetTrace : Nat
  state : EdgeState
  /-- Where the moves are inserted. -/
  point : Nat
  moves : List (Allocation × Allocation × VirtReg)
deriving DecidableEq

def EdgeRecord.crosses (e : EdgeRecord) : Bool := e.sourceTrace != e.targetTrace

structure Output where
  /-- How many slots the frame has. -/
  frameSize : Nat
  /-- For each instruction, the locations of its operands. -/
  allocs : Array (List Allocation)
  /-- In order of their points. Edits at one point happen in the listed order. -/
  edits : Array Edit
  /-- In order of values and points. -/
  locations : Array Placement
  edges : List EdgeRecord
  stats : Stats

/-- An item of the final code. -/
inductive CodeItem where
  | instr (i : Nat)
  | edit (e : Edit)
deriving DecidableEq

namespace Output

variable (out : Output)

def instrAllocs (i : Nat) : List Allocation := out.allocs.getD i []

/-- Instructions with the edits before each of them. Each instruction takes the edits at the front
whose points are not after it. -/
def interleave : List Nat → List Edit → List CodeItem
  | [], _ => []
  | i :: rest, edits =>
    let here (e : Edit) : Bool := e.point ≤ Point.before i
    (edits.takeWhile here).map .edit ++ .instr i :: interleave rest (edits.dropWhile here)

/-- The listed instructions of a block that starts with instruction `first`, with their edits. -/
def codeFrom (first : Nat) (instrs : List Nat) : List CodeItem :=
  let start := searchFirst (fun e => e.point < Point.before first) out.edits
  interleave instrs (out.edits.toList.drop start)

/-- The instructions and edits of a block in order. -/
def code (f : Routine) (b : Nat) : List CodeItem := out.codeFrom (f.first b) (f.span b).toList

/-- Is the placement over for value `v` at point `pt`? -/
def isPast (v : VirtReg) (pt : Nat) (loc : Placement) : Bool :=
  loc.vreg.key < v.key || (loc.vreg.key == v.key && loc.range.stop ≤ pt)

/-- Where a value is at a point, if it is live there. -/
def locationAt (v : VirtReg) (pt : Nat) : Option Allocation := do
  let loc ← out.locations[searchFirst (isPast v pt) out.locations]?
  if loc.vreg = v ∧ loc.range.start ≤ pt then some loc.alloc else none

end Output

end LinearScan
