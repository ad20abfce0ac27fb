import LinearScan.Snapshot

/-!
# Snapshots as text

A listing with the machine and the traces as a header and one line per instruction. It ends where
something is illegible, or where a number names no block or instruction.
-/

namespace LinearScan

namespace Snapshot

private def blockNames (ws : List UInt32) : String :=
  " ".intercalate (ws.map fun w => s!"block{w.toNat}")

private def valueNames (vs : List VirtReg) : String :=
  ", ".intercalate (vs.map VirtReg.label)

/-- Are all words numbers of blocks, whether there are such blocks or not? -/
private def areBlocks (ws : List UInt32) : Bool := ws.all fun w => Index.isSet w.toNat

private def operandPiece (op : Operand) : Option String := Printout.piece op.isLegible op.label

/-- The line of instruction `i`. -/
def instrPrintout (i : Nat) (instr : Instr) : Printout :=
  let operands := match instr.operands with
    | [] => []
    | ops => some " " :: Printout.separated ", " (ops.map operandPiece)
  let regs := instr.clobbers.toList
  let clobbers :=
    if regs.isEmpty then ""
    else " clobbers \x7b" ++ " ".intercalate (regs.map PhysReg.label) ++ "\x7d"
  some s!"  inst{i} {instr.kind.mnemonic}" :: operands ++ Printout.line clobbers

/-- The lines of a span of instructions, up to the first number that names none. -/
def spanPrintout (f : Routine) (span : Span) : Printout :=
  let inCode : Span := ⟨span.first, min span.stop f.numInstrs⟩
  if Index.isSet span.first && Index.isSet span.stop then
    inCode.toList.flatMap (fun i => instrPrintout i (f.instr i)) ++
      if span.first < span.stop && f.numInstrs < span.stop then [none] else []
  else [none]

/-- The lines of block `b`. -/
def blockPrintout (f : Routine) (b : Nat) (w : BlockWords) : Printout :=
  let block := w.toBlock
  let entry := if b = f.entry then " entry" else ""
  let head := s!"block{b}({valueNames block.params}){entry} preds [{blockNames w.preds}] " ++
    s!"succs [{blockNames w.succs}]\n"
  let args := (block.succs.zip (block.args?.getD [])).flatMap fun (t, vs) =>
    if vs.isEmpty then [] else Printout.line s!"  -> block{t}({valueNames vs})"
  Printout.piece (areBlocks w.preds && areBlocks w.succs) head ::
    spanPrintout f block.span ++ args

/-- The whole listing. -/
def printout (s : Snapshot) : Printout :=
  let f := s.routine
  let sizes := RegClass.all.flatMap fun c =>
    Printout.line s!"slot size {c.name} = {f.slotSizes.get c}"
  let naming := if s.namedByLast then Printout.line "multi-slot values named by their last slot" else []
  let traces := s.traces.zipIdx.map fun (ws, t) =>
    Printout.piece (areBlocks ws) s!"trace{t}: {blockNames ws}\n"
  let blocks := s.blocks.zipIdx.flatMap fun (w, b) => blockPrintout f b w
  some "env " :: s.toMachine.printout ++ sizes ++ naming ++ traces ++ blocks

end Snapshot

end LinearScan
