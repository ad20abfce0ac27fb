import LinearScan.Operand
import LinearScan.Register.Set

/-!
# Routines

The code to allocate: blocks of instructions with their control-flow edges, parameters and
branch arguments. A routine is data as its producer describes it, so that the lists of
predecessors and successors, the spans of the blocks and the argument lists need not fit
together; `Routine.controlFlow` checks what has to fit. A number outside the routine has no
instructions, edges, parameters or operands.
-/

namespace LinearScan

inductive InstrKind where
  | op
  | branch
  | ret
deriving DecidableEq, Inhabited

namespace InstrKind

def isTerminator : InstrKind → Bool
  | .op => false
  | .branch | .ret => true

def mnemonic : InstrKind → String
  | .op => "op"
  | .branch => "branch"
  | .ret => "ret"

def name : InstrKind → String
  | .op => "Op"
  | .branch => "Branch"
  | .ret => "Ret"

end InstrKind

structure Instr where
  kind : InstrKind
  operands : List Operand
  /-- Registers that the instruction overwrites without naming them as operands. -/
  clobbers : RegSet
  /-- The arguments passed to each successor, by successor index. -/
  args : List (List VirtReg)
deriving DecidableEq

instance : Inhabited Instr := ⟨⟨.op, [], .empty, []⟩⟩

structure Block where
  span : Span
  preds : List Nat
  succs : List Nat
  params : List VirtReg
  /-- The arguments passed to each successor, if the block keeps them itself. Otherwise its branches
  do. -/
  args? : Option (List (List VirtReg)) := none
deriving DecidableEq, Inhabited

structure Routine where
  instrs : Array Instr
  blocks : Array Block
  entry : Nat
  /-- Values are numbered below this. -/
  numValues : Nat
  /-- How many frame slots a value of each class takes. -/
  slotSizes : PerClass Nat
  /-- Is a value of several slots named by its last slot? -/
  namedByLast : Bool
deriving DecidableEq

namespace Routine

variable (f : Routine)

def numInstrs : Nat := f.instrs.size

def numBlocks : Nat := f.blocks.size

def block (b : Nat) : Block := f.blocks.getD b default

def instr (i : Nat) : Instr := f.instrs.getD i default

def span (b : Nat) : Span := (f.block b).span

def succs (b : Nat) : List Nat := (f.block b).succs

def preds (b : Nat) : List Nat := (f.block b).preds

def params (b : Nat) : List VirtReg := (f.block b).params

def operands (i : Nat) : List Operand := (f.instr i).operands

def clobbers (i : Nat) : RegSet := (f.instr i).clobbers

def isBranch (i : Nat) : Bool := (f.instr i).kind == .branch

def isRet (i : Nat) : Bool := (f.instr i).kind == .ret

def isTerminator (i : Nat) : Bool := (f.instr i).kind.isTerminator

def first (b : Nat) : Nat := (f.span b).first

def last (b : Nat) : Nat := (f.span b).last

/-- The arguments that instruction `i` of block `b` passes to successor number `k`. -/
def argsFrom (b i k : Nat) : List VirtReg := ((f.block b).args?.getD (f.instr i).args).getD k []

/-- Has block `b` arguments for its successor number `k`? Branches pass none where they list none,
but a block that keeps its arguments itself must keep some for each successor. -/
def hasArgs (b k : Nat) : Bool := (f.block b).args?.all fun rows => k < rows.length

/-- The arguments that block `b` passes to its successor number `k`. -/
def branchArgs (b k : Nat) : List VirtReg := f.argsFrom b (f.last b) k

/-- All arguments that block `b` passes to its successors, in order. -/
def allBranchArgs (b : Nat) : List VirtReg :=
  (List.range (f.succs b).length).flatMap (f.branchArgs b)

/-- Is there a block with this number? -/
def hasBlock (b : Nat) : Bool := b < f.numBlocks

/-- Is there an instruction with this number? -/
def hasInstr (i : Nat) : Bool := i < f.numInstrs

/-- How many ways lead into a block: its predecessors, and the entry. -/
def entries (b : Nat) : Nat := (f.preds b).length + if b = f.entry then 1 else 0

end Routine

/-- One more than the largest of the numbers, or zero. -/
def countFrom (ns : List Nat) : Nat := ns.foldl (fun n k => max n (k + 1)) 0

end LinearScan
