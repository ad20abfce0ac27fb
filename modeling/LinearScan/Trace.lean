import LinearScan.ControlFlow
import LinearScan.Event

/-!
# Traces

A trace is a path of blocks that can only be entered at its head: each later block has the block
before it as its only predecessor, and starts after that block's last instruction. A routine is
allocated one trace at a time. `Traces.ofLists` accepts a partition of the blocks into traces,
and `Routine.growTraces` finds one.
-/

namespace LinearScan

/-- A partition of the blocks of a routine into traces. -/
structure Traces where
  lists : Array (List Nat)
  /-- The trace of each block. -/
  traceOf : Array Nat
  /-- The position of each block in its trace. -/
  position : Array Nat
deriving DecidableEq

/-- How to partition a routine. -/
inductive TracePlan where
  /-- Long traces that prefer deep loops. -/
  | grown
  /-- Every block on its own. -/
  | single
  /-- These lists of blocks. -/
  | given (lists : List (List Nat))

namespace Traces

/-! ## Look-ups -/

variable (ts : Traces)

def count : Nat := ts.lists.size

def blocks (t : Nat) : List Nat := ts.lists.getD t []

def head (t : Nat) : Nat := (ts.blocks t).headD 0

def of (b : Nat) : Nat := ts.traceOf.getD b 0

def positionOf (b : Nat) : Nat := ts.position.getD b 0

/-- Is `b` the block right after `a` in the same trace? -/
def isFallthrough (a b : Nat) : Bool :=
  ts.of a == ts.of b && ts.positionOf b == ts.positionOf a + 1

/-- The numbers in increasing order, each once. -/
def increasing (ns : List Nat) : List Nat := (ns.mergeSort (· ≤ ·)).eraseDups

/-- The traces with an edge into the head of trace `t`. -/
def preds (f : Routine) (t : Nat) : List Nat :=
  increasing ((f.preds (ts.head t)).map ts.of)

/-- The traces entered by an edge that leaves trace `t`. -/
def succs (f : Routine) (t : Nat) : List Nat :=
  increasing <| (ts.blocks t).flatMap fun b =>
    ((f.succs b).filter fun s => !ts.isFallthrough b s).map ts.of

/-! ## Accepting a partition -/

/-- The trace and the position of each block, as far as known. -/
abbrev Places := Array (Option (Nat × Nat))

/-- Can `b` follow `a` in a trace? -/
def follows (f : Routine) (a b : Nat) : Bool := f.preds b == [a] && f.last a < f.first b

/-- Have the blocks the instructions that `follows` looks at? -/
def comparable (f : Routine) (a b : Nat) : Bool :=
  f.preds b != [a] || (!(f.span b).isEmpty && (f.span a).hasLast)

/-- Places the blocks of trace `t` from position `pos` on, `prev` being the block before them. -/
def placeBlocks (f : Routine) (t : Nat) (prev : Option Nat) (pos : Nat) :
    List Nat → Places → Except Stop Places
  | [], places => .ok places
  | b :: rest, places => do
    Stop.demand (Index.isSet b) .outOfRange
    match places[b]? with
    | some none =>
      Stop.demand (prev.all (comparable f · b)) .emptySpan
      if prev.all (follows f · b) then
        placeBlocks f t (some b) (pos + 1) rest (places.setIfInBounds b (some (t, pos)))
      else Stop.refuse (.invalidTrace t)
    | _ => Stop.refuse (.invalidTrace t)

/-- Places the blocks of all lists, the first list being trace `t`. -/
def placeLists (f : Routine) : Nat → List (List Nat) → Places → Except Stop Places
  | _, [], places => .ok places
  | t, [] :: _, _ => Stop.refuse (.invalidTrace t)
  | t, (b :: blocks) :: rest, places => do
    placeLists f (t + 1) rest (← placeBlocks f t none 0 (b :: blocks) places)

def place (f : Routine) (lists : List (List Nat)) : Except Stop Places :=
  placeLists f 0 lists (Array.replicate f.numBlocks none)

/-- The first block without a place. -/
def uncovered? (places : Places) : Option Nat := places.findIdx? Option.isNone

/-- Accepts lists that partition the blocks into traces, the entry being in the first. -/
def ofLists (f : Routine) (lists : List (List Nat)) : Except Stop Traces := do
  let places ← place f lists
  if (uncovered? places).isSome then
    Stop.refuse (.invalidTrace lists.length)
  Stop.demand (f.hasBlock f.entry) .outOfRange
  let ts : Traces := {
    lists := lists.toArray
    traceOf := places.map fun p => (p.getD (0, 0)).1
    position := places.map fun p => (p.getD (0, 0)).2 }
  if ts.of f.entry ≠ 0 then
    Stop.refuse (.invalidTrace (ts.of f.entry))
  return ts

/-- What there is to report about the lists. -/
def coverage (f : Routine) (lists : List (List Nat)) : List Event :=
  match place f lists with
  | .ok places => ((uncovered? places).map Event.uncovered).toList
  | .error _ => []

end Traces

namespace Routine

variable (f : Routine)

/-! ## Growing traces -/

/-- The block to go on with after `b`: among those that can follow it and are not covered yet, the
deepest in loops, then the lowest. -/
def nextInTrace (depth : Nat → Nat) (covered : Nat → Bool) (b : Nat) : Option Nat :=
  let able := (f.succs b).filter fun s => !covered s && Traces.follows f b s
  able.foldl (fun best s =>
    match best with
    | none => some s
    | some t => if depth t < depth s || (depth t == depth s && s < t) then some s else some t) none

/-- The trace from `b` on, of at most the given number of blocks, and the blocks covered with it. -/
def growFrom (depth : Nat → Nat) : Nat → Nat → Array Bool → List Nat × Array Bool
  | 0, _, covered => ([], covered)
  | room + 1, b, covered =>
    let covered := covered.setIfInBounds b true
    match f.nextInTrace depth (covered.getD · true) b with
    | none => ([b], covered)
    | some s =>
      let (rest, covered) := growFrom depth room s covered
      (b :: rest, covered)

/-- The traces that start at the first listed block, at the next one not covered yet, and so on. -/
def growAll (depth : Nat → Nat) : List Nat → Array Bool → List (List Nat)
  | [], _ => []
  | b :: rest, covered =>
    if covered.getD b true then growAll depth rest covered
    else
      let (blocks, covered) := f.growFrom depth f.numBlocks b covered
      blocks :: growAll depth rest covered

def growTraces (c : ControlFlow) : List (List Nat) :=
  f.growAll c.depthOf c.reversePostorder (Array.replicate f.numBlocks false)

/-! ## Plans -/

/-- The lists of blocks that a plan asks for. -/
def planned : TracePlan → Except Stop (List (List Nat))
  | .grown => f.controlFlow.map f.growTraces
  | .single => f.controlFlow.map fun c => c.reversePostorder.map fun b => [b]
  | .given lists => .ok lists

def traces (plan : TracePlan) : Except Stop Traces := do
  Traces.ofLists f (← f.planned plan)

/-- The events of partitioning a routine. -/
def traceEvents (plan : TracePlan) : List Event :=
  match f.planned plan with
  | .error _ => []
  | .ok lists =>
    let grown := match plan with
      | .grown => lists.zipIdx.map fun (blocks, t) => Event.grown t blocks
      | _ => []
    grown ++ Traces.coverage f lists

end Routine

end LinearScan
