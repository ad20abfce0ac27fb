import LinearScan.Routine

/-!
# Routines as text

A routine block by block, with one line per instruction.
-/

namespace LinearScan

private def inBrackets (items : List String) : String := "[" ++ ", ".intercalate items ++ "]"

private def blockNumbers (ns : List Nat) : String := inBrackets (ns.map fun n => toString n)

def Instr.line (i : Nat) (instr : Instr) : String :=
  let clobbers :=
    if instr.clobbers.isEmpty then ""
    else " clobbers:" ++ inBrackets (instr.clobbers.toList.map PhysReg.describe)
  let args :=
    if instr.args.isEmpty then ""
    else " args:" ++ inBrackets (instr.args.map fun vs => inBrackets (vs.map VirtReg.describe))
  s!"    inst{i}: {instr.kind.name} ops:" ++ inBrackets (instr.operands.map Operand.label) ++
    clobbers ++ args

namespace Routine

variable (f : Routine)

def printBlock (b : Nat) : List String :=
  let params := ", ".intercalate ((f.params b).map VirtReg.label)
  s!"  block{b}({params}): # succs:{blockNumbers (f.succs b)} preds:{blockNumbers (f.preds b)}" ::
    (f.span b).toList.map fun i => (f.instr i).line i

def print : String :=
  let lines := "\x7b" :: (List.range f.numBlocks).flatMap f.printBlock ++ ["\x7d"]
  String.join (lines.map (· ++ "\n"))

end Routine

end LinearScan
