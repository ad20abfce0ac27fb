import LinearScan.Routine

/-!
# Assembling routines

A routine laid out from descriptions of its blocks, one after another: instructions are numbered
through all blocks, and what a description leaves open is filled in from the rest.
-/

namespace LinearScan

/-- A block to be laid out. -/
structure BlockSpec where
  instrs : List Instr
  succs : List Nat
  params : List VirtReg
  /-- The predecessors, if they are not those that the edges give. -/
  preds? : Option (List Nat) := none
  /-- The instructions of the block, if they are not its own. -/
  span? : Option Span := none

/-- The values that an instruction mentions. -/
def Instr.values (i : Instr) : List VirtReg := i.operands.map Operand.vreg ++ i.args.flatten

/-- The instruction without what its kind has no use for: only plain instructions have clobbers,
and only branches have arguments. -/
def Instr.plain (i : Instr) : Instr :=
  match i.kind with
  | .op => { i with args := [] }
  | .branch => { i with clobbers := .empty }
  | .ret => { i with clobbers := .empty, args := [] }

namespace BlockSpec

def values (b : BlockSpec) : List VirtReg := b.instrs.flatMap Instr.values ++ b.params

/-- The edges of listed blocks, block by block. -/
def edges (blocks : List BlockSpec) : List (Nat × Nat) :=
  blocks.zipIdx.flatMap fun (b, n) => b.succs.map fun s => (n, s)

/-- The spans of blocks laid out one after another from instruction `i` on. -/
def spans : Nat → List BlockSpec → List Span
  | _, [] => []
  | i, b :: rest => ⟨i, i + b.instrs.length⟩ :: spans (i + b.instrs.length) rest

end BlockSpec

namespace Routine

/-- The sources of the edges into block `b`, in edge order. -/
def predsOf (edges : List (Nat × Nat)) (b : Nat) : List Nat :=
  (edges.filter fun e => e.2 = b).map Prod.fst

def standardSlotSizes : PerClass Nat := ⟨1, 2, 4⟩

/-- Lays out blocks with the given edges. -/
def layOut (blocks : List BlockSpec) (edges : List (Nat × Nat)) : Routine :=
  { instrs := (blocks.flatMap BlockSpec.instrs).toArray
    blocks := ((blocks.zip (BlockSpec.spans 0 blocks)).zipIdx.map fun ((b, span), n) =>
      { span := b.span?.getD span
        preds := b.preds?.getD (predsOf edges n)
        succs := b.succs
        params := b.params : Block }).toArray
    entry := 0
    numValues := countFrom ((blocks.flatMap BlockSpec.values).map VirtReg.num)
    slotSizes := standardSlotSizes
    namedByLast := false }

/-- Lays out blocks whose edges come in block order. -/
def assemble (blocks : List BlockSpec) : Routine := layOut blocks (BlockSpec.edges blocks)

/-- Lays out blocks after reducing them to what a block builder records. -/
def build (blocks : List BlockSpec) : Routine :=
  assemble <| blocks.map fun b =>
    { instrs := b.instrs.map Instr.plain, succs := b.succs, params := b.params }

end Routine

end LinearScan
