import LinearScan.Register
import LinearScan.Point

/-!
# Why an allocation stops

`AllocError` lists the reasons to refuse a routine, a partition or a machine. `Fault` lists the
conditions that the allocator relies on and checks as it goes. A run that stops is one or the other.
-/

namespace LinearScan

/-- Reasons why a routine cannot be allocated. -/
inductive AllocError where
  /-- An edge from a block with several successors to a block with several entries. -/
  | criticalEdge (source target : Nat)
  /-- A value defined twice, or used without a definition before it. A value that comes as a
  block parameter has no instruction. -/
  | notSingleAssignment (v : VirtReg) (instr : Option Nat)
  /-- A block that is empty, unreachable, or not closed by its only branch or return. -/
  | badBlock (b : Nat)
  /-- A branch that passes the wrong number of arguments to a successor. -/
  | badBranch (instr : Nat)
  /-- A value is live into the entry block. -/
  | liveAtEntry
  /-- A branch with operands leads to a block with several entries. -/
  | branchOperands (instr : Nat)
  /-- The listed traces do not partition the blocks into paths. -/
  | invalidTrace (t : Nat)
  /-- An operand needs a register of a class that has none. -/
  | noRegisters (c : RegClass)
  /-- A value must be in a register and on the stack at one instruction. -/
  | conflictingConstraints (v : VirtReg) (instr : Nat)
  /-- Two values, or a value and a clobber, need one register at the same time. -/
  | fixedConflict (r : PhysReg) (instr : Nat)
  /-- More operands need registers at once than there are registers. -/
  | tooManyLive
  /-- A move between stack slots has no register to go through. -/
  | noScratch (c : RegClass)
deriving DecidableEq

namespace AllocError

def name : AllocError → String
  | .criticalEdge .. => "CritEdge"
  | .notSingleAssignment .. => "SSA"
  | .badBlock _ => "BB"
  | .badBranch _ => "Branch"
  | .liveAtEntry => "EntryLivein"
  | .branchOperands _ => "DisallowedBranchArg"
  | .invalidTrace _ => "InvalidTrace"
  | .noRegisters _ => "NoRegistersForClass"
  | .conflictingConstraints .. => "ConflictingConstraints"
  | .fixedConflict .. => "FixedRegConflict"
  | .tooManyLive => "TooManyLiveRegs"
  | .noScratch _ => "NoScratch"

/-- Can the error be put in words? Not if it names an illegible value. -/
def isLegible : AllocError → Bool
  | .notSingleAssignment v _ => v.isLegible
  | _ => true

def message (e : AllocError) : String :=
  let args : List String := match e with
    | .criticalEdge a b => [s!"Block({a})", s!"Block({b})"]
    | .notSingleAssignment v i => [v.describe, s!"Inst({i.getD Index.unset})"]
    | .badBlock b => [s!"Block({b})"]
    | .badBranch i => [s!"Inst({i})"]
    | .liveAtEntry => []
    | .branchOperands i => [s!"Inst({i})"]
    | .invalidTrace t => [s!"TraceId({t})"]
    | .noRegisters c => [c.name]
    | .conflictingConstraints v i => [v.describe, s!"Inst({i})"]
    | .fixedConflict r i => [r.describe, s!"Inst({i})"]
    | .tooManyLive => []
    | .noScratch c => [c.name]
  if args.isEmpty then e.name else e.name ++ "(" ++ ", ".intercalate args ++ ")"

end AllocError

/-- Conditions that must never fail. The first ones depend on the routine and the machine alone. -/
inductive Fault where
  /-- The class or the role that a stored word should name is needed, and it names none. -/
  | illegible
  /-- A number that names no block or no instruction is looked up. -/
  | outOfRange
  /-- The first or the last instruction of a span without one is needed. -/
  | emptySpan
  /-- A block keeps no arguments for one of its successors. -/
  | noArguments
  /-- There are more values than value numbers. -/
  | tooManyValues
  /-- A range stops before it starts. -/
  | reversedRange
  /-- A number names no interval. -/
  | unknownInterval
  /-- A split position at or before the start of the interval. -/
  | splitBeforeStart
  /-- No position is left between the two bounds of a split. -/
  | emptySplitWindow
  /-- An interval with a use that needs a register goes to the stack. -/
  | spillNeedsRegister
  /-- A dead definition loses its register. -/
  | evictedDeadDef
  /-- A range is added to a set that it overlaps. -/
  | rangeTaken
  /-- An interval is in no register and on no slot after its trace. -/
  | leftUnassigned
  /-- Two intervals share a register at one point. -/
  | registerShared
  /-- An interval is in a register that another value has reserved. -/
  | reservationIgnored
  /-- Two moves of one group write the same location. -/
  | destinationClash
  /-- The source of a move that has to be parked is the scratch location itself. -/
  | parkedTwice
  /-- The scratch location is one of the locations moved. -/
  | scratchInUse
  /-- A slot size that is not a power of two. -/
  | slotSize
  /-- The frame has no slot numbers left. -/
  | frameFull
  /-- A loop ran longer than its bound. -/
  | outOfFuel
deriving DecidableEq

/-- How a run stops without a result. -/
inductive Stop where
  | refused (e : AllocError)
  | fault (f : Fault)
deriving DecidableEq

namespace Stop

variable {α : Type}

def refuse (e : AllocError) : Except Stop α := .error (.refused e)

/-- Goes on only if the condition holds. -/
def demand (ok : Bool) (f : Fault) : Except Stop Unit := if ok then .ok () else .error (.fault f)

end Stop

end LinearScan
