import LinearScan.Check.State
import LinearScan.Error
import LinearScan.Output
import LinearScan.Total

/-!
# Checking a result

`Output.check` follows the values of a routine symbolically through the allocated code. The states
at the starts of the blocks are found by iteration, and then each use is compared with the state in
front of it. Apart from that, operands must satisfy their constraints, operands that an instruction
needs apart must be apart, and every edge must be resolved.
-/

namespace LinearScan

inductive CheckError where
  | missing (i : Nat) (op : Operand)
  | unknownValue (i : Nat) (op : Operand) (a : Allocation)
  | wrongValues (i : Nat) (op : Operand) (a : Allocation) (actual : List VirtReg)
  | notReg (i : Nat) (op : Operand) (a : Allocation)
  | notFixedReg (i : Nat) (op : Operand) (a : Allocation)
  | notStack (i : Nat) (op : Operand) (a : Allocation)
  | overlap (i : Nat) (op other : Operand) (a : Allocation)
  | unresolvedEdge (source target : Nat)
deriving DecidableEq

def CheckError.kind : CheckError → String
  | .missing .. => "MissingAllocation"
  | .unknownValue .. => "UnknownValueInAllocation"
  | .wrongValues .. => "IncorrectValuesInAllocation"
  | .notReg .. => "AllocationIsNotReg"
  | .notFixedReg .. => "AllocationIsNotFixedReg"
  | .notStack .. => "AllocationIsNotStack"
  | .overlap .. => "OverlappingAllocations"
  | .unresolvedEdge .. => "UnresolvedEdge"

/-! ## Operands -/

namespace Operand

/-- Is `a` a location that the constraint of the operand allows? -/
def constraintError (i : Nat) (op : Operand) (a : Allocation) : Option CheckError :=
  match op.constraint with
  | .any => if a.isNone then some (.missing i op) else none
  | .reg => if a.isReg then none else some (.notReg i op a)
  | .stack => if a.isStack then none else some (.notStack i op a)
  | .fixed hw => if a = .reg ⟨hw, op.vreg.cls?⟩ then none else some (.notFixedReg i op a)

/-- Does the operand write its location as the instruction starts? -/
def writesEarly (op : Operand) : Bool := op.role = .temp || (op.role = .defn && op.timing = .early)

/-- Must two operands of one instruction be in different locations? Two writes must, and a write
and a use unless the use is over before the write. -/
def mustDiffer (x y : Operand) : Bool :=
  match x.writes, y.writes with
  | false, false => false
  | true, true => true
  | true, false => x.writesEarly || y.timing = .late
  | false, true => y.writesEarly || x.timing = .late

/-- The errors of the operands of instruction `i`, each with its location. -/
def errors (i : Nat) : List (Operand × Allocation) → List CheckError
  | [] => []
  | (op, a) :: rest =>
    let clashes := rest.filter fun (other, b) => !a.isNone && a == b && op.mustDiffer other
    (op.constraintError i a).toList ++ (clashes.map fun (other, _) => .overlap i op other a) ++
      errors i rest

end Operand

/-! ## Steps of the code -/

namespace Output

variable (f : Routine) (out : Output)

def step : CodeItem → CheckStep
  | .instr i => .instr i (f.operands i) (out.instrAllocs i) (f.clobbers i)
  | .edit e => .move e.source e.dest

/-- The steps of block `b`. -/
def steps (b : Nat) : List CheckStep := (out.code f b).map (out.step f)

/-- The steps on the edge from block `b` to block `s`: the arguments of each branch of `b` become
the parameters of `s`. -/
def edgeSteps (b s : Nat) : List CheckStep :=
  ((f.span b).toList.filter f.isBranch).flatMap fun i =>
    (f.succs b).zipIdx.filterMap fun (t, k) =>
      let args := f.argsFrom b i k
      if t = s && !args.isEmpty then some (.params ((f.params t).zip args)) else none

/-- What can be said without following values. -/
def staticErrors : List CheckError :=
  let open_ := out.edges.filter fun e => e.state ≠ .resolved
  (open_.map fun e => .unresolvedEdge e.source e.target) ++
    (List.range f.numBlocks).flatMap fun b =>
      (f.span b).toList.flatMap fun i => Operand.errors i ((f.operands i).zip (out.instrAllocs i))

/-! ## States at the starts of blocks -/

/-- A visit of a block: the state at its start then, and the blocks whose states it changed. -/
structure CheckVisit where
  block : Nat
  state : CheckState
  changed : List Nat

structure CheckSearch where
  states : Array CheckState
  queue : List Nat
  visits : Array CheckVisit

/-- Tells block `s` the state at the end of its predecessor `b`. -/
def tellSucc (b : Nat) (state : CheckState) (acc : CheckSearch × List Nat) (s : Nat) :
    CheckSearch × List Nat :=
  let (search, changed) := acc
  let old := search.states.getD s .unreached
  let new := (state.afterAll (edgeSteps f b s)).meet old
  if new.sameAs old then (search, changed)
  else
    ({ search with
        states := search.states.setIfInBounds s new
        queue := if search.queue.contains s then search.queue else search.queue ++ [s] },
      changed ++ [s])

/-- Visits block `b`, the other blocks of the queue being `rest`. -/
def visitCheck (search : CheckSearch) (b : Nat) (rest : List Nat) : CheckSearch :=
  let start := search.states.getD b .unreached
  let state := start.afterAll (out.steps f b)
  let (search, changed) := (f.succs b).foldl (tellSucc f b state) ({ search with queue := rest }, [])
  { search with visits := search.visits.push ⟨b, start, changed⟩ }

/-- Visits blocks until the queue is empty, at most the given number of times. -/
def settleCheck : Nat → CheckSearch → Option CheckSearch
  | 0, search => if search.queue.isEmpty then some search else none
  | n + 1, search =>
    match search.queue with
    | [] => some search
    | b :: rest => settleCheck n (visitCheck f out search b rest)

/-- The state of a block loses a location, or learns which values one holds, or loses one of
those values with every visit but the first. -/
def checkBound : Nat :=
  let locations := total (out.allocs.toList.map List.length) + out.edits.size
  let values := total (f.instrs.toList.map fun i => i.operands.length) +
    total (f.blocks.toList.map fun b => b.params.length)
  1 + f.numBlocks * (1 + locations * (values + 2))

def analyse : Option CheckSearch :=
  let states := (Array.replicate f.numBlocks CheckState.unreached).setIfInBounds f.entry .blank
  settleCheck f out (checkBound f out) ⟨states, [f.entry], #[]⟩

/-! ## Uses -/

/-- Does the location of a use hold its value? -/
def useError (s : CheckState) (i : Nat) (op : Operand) (a : Allocation) : Option CheckError :=
  if a.isNone then some (.missing i op)
  else match s.get a with
    | .unknown => some (.unknownValue i op a)
    | .known vs => if vs.contains op.vreg then none else some (.wrongValues i op a vs)

/-- The uses of a step at one time, with their locations. -/
def usesOf (t : Timing) : CheckStep → List (Nat × Operand × Allocation)
  | .instr i operands allocs _ =>
    ((operands.zip allocs).filter fun (op, _) => op.isUse && op.timing = t).map fun (op, a) =>
      (i, op, a)
  | _ => []

/-- The first error of the uses of a step at one time. -/
def stepError (t : Timing) (s : CheckState) (step : CheckStep) : Option CheckError :=
  (usesOf t step).findSome? fun (i, op, a) => useError s i op a

/-- The errors of steps from a state on. Early uses see the state before the step, late ones the
state after it. -/
def useErrors (s : CheckState) : List CheckStep → List CheckError
  | [] => []
  | step :: rest =>
    (stepError .early s step).toList ++ (stepError .late (s.after step) step).toList ++
      useErrors (s.after step) rest

/-- All errors of a result, in order. The code of a block whose span is reversed has no end. -/
def check : Except Fault (List CheckError) :=
  if f.blocks.any (·.span.isReversed) then .error .outOfRange
  else match analyse f out with
  | none => .error .outOfFuel
  | some search =>
    .ok (staticErrors f out ++ (List.range f.numBlocks).flatMap fun b =>
      useErrors (search.states.getD b .unreached) (out.steps f b))

end Output

end LinearScan
