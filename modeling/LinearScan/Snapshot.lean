import LinearScan.Encoding.Packed
import LinearScan.Machine
import LinearScan.Trace

/-!
# Snapshots

A self-contained allocation problem: a routine, a machine and a partition into traces, in the
packed words in which they are stored. `Snapshot.record` makes one, and `routine` and `toMachine`
read it back. Every word can be read, but registers, values and operands may turn out illegible.
-/

namespace LinearScan

structure MachineWords where
  preferred : PerClass (List UInt8)
  nonPreferred : PerClass (List UInt8)
  scratch : PerClass (Option UInt8)
deriving DecidableEq

structure InstrWords where
  kind : InstrKind
  operands : List UInt32
  clobbers : PerClass UInt64
deriving DecidableEq

structure BlockWords where
  first : UInt32
  stop : UInt32
  preds : List UInt32
  succs : List UInt32
  params : List UInt32
  /-- The arguments passed to each successor. -/
  args : List (List UInt32)
deriving DecidableEq

structure Snapshot where
  machine : MachineWords
  entry : UInt32
  instrs : List InstrWords
  blocks : List BlockWords
  numValues : UInt64
  slotSizes : PerClass UInt64
  namedByLast : Bool
  /-- The blocks of each trace. -/
  traces : List (List UInt32)
deriving DecidableEq

/-! ## Recording -/

namespace MachineWords

def ofMachine (m : Machine) : MachineWords :=
  { preferred := m.preferred.map (·.map PhysReg.toByte)
    nonPreferred := m.nonPreferred.map (·.map PhysReg.toByte)
    scratch := m.scratch.map (·.map PhysReg.toByte) }

def toMachine (w : MachineWords) : Machine :=
  { preferred := w.preferred.map (·.map PhysReg.ofByte)
    nonPreferred := w.nonPreferred.map (·.map PhysReg.ofByte)
    scratch := w.scratch.map (·.map PhysReg.ofByte) }

end MachineWords

namespace InstrWords

def ofInstr (i : Instr) : InstrWords :=
  { kind := i.kind
    operands := i.operands.map Operand.toWord
    clobbers := i.clobbers.words.map fun w => ⟨w⟩ }

def clobberSet (w : InstrWords) : RegSet := ⟨w.clobbers.map UInt64.toBitVec⟩

def toInstr (w : InstrWords) : Instr :=
  { kind := w.kind
    operands := w.operands.map Operand.ofWord
    clobbers := w.clobberSet
    args := [] }

end InstrWords

namespace BlockWords

private def numbers (ws : List UInt32) : List Nat := ws.map UInt32.toNat

def span (w : BlockWords) : Span := ⟨w.first.toNat, w.stop.toNat⟩

def toBlock (w : BlockWords) : Block :=
  { span := w.span
    preds := numbers w.preds
    succs := numbers w.succs
    params := w.params.map VirtReg.ofWord
    args? := some (w.args.map (·.map VirtReg.ofWord)) }

end BlockWords

namespace Snapshot

private def words (ns : List Nat) : List UInt32 := ns.map UInt32.ofNat

def recordBlock (f : Routine) (b : Nat) : BlockWords :=
  { first := .ofNat (f.span b).first
    stop := .ofNat (f.span b).stop
    preds := words (f.preds b)
    succs := words (f.succs b)
    params := (f.params b).map VirtReg.toWord
    args := (List.range (f.succs b).length).map fun k => (f.branchArgs b k).map VirtReg.toWord }

/-- Records a routine with the machine and the traces it is allocated with. -/
def record (f : Routine) (m : Machine) (ts : Traces) : Snapshot :=
  { machine := .ofMachine m
    entry := .ofNat f.entry
    instrs := f.instrs.toList.map .ofInstr
    blocks := (List.range f.numBlocks).map (recordBlock f)
    numValues := .ofNat f.numValues
    slotSizes := f.slotSizes.map UInt64.ofNat
    namedByLast := f.namedByLast
    traces := ts.lists.toList.map words }

/-! ## Reading back -/

variable (s : Snapshot)

def toMachine : Machine := s.machine.toMachine

def routine : Routine :=
  { instrs := (s.instrs.map InstrWords.toInstr).toArray
    blocks := (s.blocks.map BlockWords.toBlock).toArray
    entry := s.entry.toNat
    numValues := s.numValues.toNat
    slotSizes := s.slotSizes.map UInt64.toNat
    namedByLast := s.namedByLast }

/-- The recorded lists of blocks. -/
def plan : TracePlan := .given (s.traces.map (·.map UInt32.toNat))

end Snapshot

end LinearScan
