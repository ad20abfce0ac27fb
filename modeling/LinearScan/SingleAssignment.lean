import LinearScan.Routine
import LinearScan.Error

/-!
# Single assignment

Every value has one definition: as a block parameter, or by an operand that writes it.
`Routine.values` checks that no value has two and collects the values with their classes.
`Routine.checkSingleAssignment` also looks at the uses: each needs a definition, and one in the
block of the definition comes after it. Other blocks are left to liveness: a value that is read on
a path without its definition is live into the entry.
-/

namespace LinearScan

/-- Where a value is defined. A block parameter has no instruction. -/
structure Definition where
  block : Nat
  instr : Option Nat
deriving DecidableEq

/-- Does the definition serve a use by instruction `i` of block `b`? -/
def Definition.serves (d : Definition) (b i : Nat) : Bool :=
  d.block ≠ b || d.instr.all (· < i)

namespace Routine

variable (f : Routine)

/-! ## Definitions -/

abbrev Definitions := Array (Option Definition)

/-- Records a definition of a value that has none yet. -/
def define (b : Nat) (i : Option Nat) (defs : Definitions) (v : VirtReg) :
    Except Stop Definitions :=
  match defs[v.num]? with
  | some none => .ok (defs.setIfInBounds v.num (some ⟨b, i⟩))
  | _ => Stop.refuse (.notSingleAssignment v i)

/-- Records what an operand of instruction `i` defines. -/
def defineOperand (b i : Nat) (defs : Definitions) (op : Operand) : Except Stop Definitions := do
  Stop.demand op.role?.isSome .illegible
  if op.isUse then return defs
  Stop.demand op.vreg.isLegible .illegible
  define b (some i) defs op.vreg

def defineBlock (defs : Definitions) (b : Nat) : Except Stop Definitions := do
  let defs ← (f.params b).foldlM (define b none) defs
  (f.span b).toList.foldlM (fun defs i => (f.operands i).foldlM (defineOperand b i) defs) defs

/-- The numbers of all values that may have a definition. -/
def definable : List Nat :=
  (f.blocks.toList.flatMap Block.params).map VirtReg.num ++
    (f.instrs.toList.flatMap Instr.operands).map (·.vreg.num)

/-- The definitions by value number. There is no room for numbers that never occur. -/
def definitions : Except Stop Definitions := do
  Stop.demand (f.numValues ≤ VirtReg.wordCount) .tooManyValues
  (List.range f.numBlocks).foldlM f.defineBlock
    (Array.replicate (min f.numValues (countFrom f.definable)) none)

/-! ## Uses -/

def checkUse (defs : Definitions) (b i : Nat) (v : VirtReg) : Except Stop Unit :=
  match defs.getD v.num none with
  | some d => if d.serves b i then .ok () else Stop.refuse (.notSingleAssignment v (some i))
  | none => Stop.refuse (.notSingleAssignment v (some i))

def checkArg (defs : Definitions) (i : Nat) (v : VirtReg) : Except Stop Unit :=
  if (defs.getD v.num none).isSome then .ok () else Stop.refuse (.notSingleAssignment v (some i))

/-- Checks the uses in block `b`. -/
def checkUses (defs : Definitions) (b : Nat) : Except Stop Unit := do
  for i in (f.span b).toList do
    for op in (f.operands i).filter Operand.isUse do
      Stop.demand op.vreg.isLegible .illegible
      checkUse defs b i op.vreg
  for v in f.allBranchArgs b do
    checkArg defs (f.last b) v

def checkSingleAssignment : Except Stop Unit := do
  let defs ← f.definitions
  for b in List.range f.numBlocks do
    f.checkUses defs b

/-! ## Values -/

/-- Values with the class of their latest mention, and which of them are defined. -/
structure ValueTable where
  vregs : Array VirtReg
  defined : Array Bool

namespace ValueTable

def define (i : Option Nat) (t : ValueTable) (v : VirtReg) : Except Stop ValueTable :=
  match t.defined[v.num]? with
  | some false => .ok { t with defined := t.defined.setIfInBounds v.num true }
  | _ => Stop.refuse (.notSingleAssignment v i)

def note (t : ValueTable) (v : VirtReg) : ValueTable :=
  { t with vregs := t.vregs.setIfInBounds v.num v }

def addParam (t : ValueTable) (v : VirtReg) : Except Stop ValueTable := do
  return (← t.define none v).note v

def addOperand (i : Nat) (t : ValueTable) (op : Operand) : Except Stop ValueTable := do
  Stop.demand op.vreg.isLegible .illegible
  if t.vregs.size ≤ op.vreg.num then
    Stop.refuse (.notSingleAssignment op.vreg (some i))
  Stop.demand op.role?.isSome .illegible
  let t ← if op.writes then t.define (some i) op.vreg else pure t
  return t.note op.vreg

end ValueTable

def addBlockValues (t : ValueTable) (b : Nat) : Except Stop ValueTable := do
  let t ← (f.params b).foldlM ValueTable.addParam t
  let t ← (f.span b).toList.foldlM
    (fun t i => (f.operands i).foldlM (ValueTable.addOperand i) t) t
  match (f.allBranchArgs b).find? fun v => f.numValues ≤ v.num with
  | some v => Stop.refuse (.notSingleAssignment v (some (f.last b)))
  | none => return t

/-- The values of the routine, by number. Afterwards every operand is known to be legible. -/
def values : Except Stop (Array VirtReg) := do
  Stop.demand (f.numValues ≤ VirtReg.maxNum + 1) .tooManyValues
  let start : ValueTable :=
    ⟨(Array.range f.numValues).map fun n => ⟨n, some .int⟩, Array.replicate f.numValues false⟩
  let t ← (List.range f.numBlocks).foldlM f.addBlockValues start
  return t.vregs

end Routine

end LinearScan
