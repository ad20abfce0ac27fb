import LinearScan.Document
import LinearScan.Snapshot

/-!
# Snapshots as documents

Packed registers, values, operands and register sets are records with a single field `bits`.
-/

namespace LinearScan

namespace Document

variable {α : Type}

def ofPerClass (write : α → Document) (t : PerClass α) : Document := .list (t.toList.map write)

def perClass? (read : Document → Option α) (d : Document) : Option (PerClass α) := do
  PerClass.ofList? (← d.listOf? read)

def ofBits (d : Document) : Document := .record [("bits", d)]

def bits? (read : Document → Option α) (d : Document) : Option α := do
  match ← d.fields? ["bits"] with
  | [bits] => read bits
  | _ => none

def ofByte (b : UInt8) : Document := ofBits (.nat b.toNat)

def ofWord (w : UInt32) : Document := .nat w.toNat

def ofPacked (w : UInt32) : Document := ofBits (ofWord w)

def ofWords (ws : List UInt32) : Document := .list (ws.map ofWord)

end Document

open Document

namespace MachineWords

def toDocument (m : MachineWords) : Document :=
  let regs (bs : List UInt8) : Document := .list (bs.map ofByte)
  .record [
    ("preferred_regs_by_class", ofPerClass regs m.preferred),
    ("non_preferred_regs_by_class", ofPerClass regs m.nonPreferred),
    ("scratch_by_class", ofPerClass (fun b => (b.map ofByte).getD .null) m.scratch)]

def ofDocument? (d : Document) : Option MachineWords := do
  match ← d.fields? ["preferred_regs_by_class", "non_preferred_regs_by_class",
      "scratch_by_class"] with
  | [p, n, s] =>
    let reg := bits? byte?
    return ⟨← p.perClass? (listOf? reg), ← n.perClass? (listOf? reg), ← s.perClass? (orNull? reg)⟩
  | _ => none

end MachineWords

def InstrKind.ofName? : String → Option InstrKind
  | "Op" => some .op
  | "Ret" => some .ret
  | "Branch" => some .branch
  | _ => none

namespace InstrWords

def toDocument (i : InstrWords) : Document :=
  .record [
    ("kind", .text i.kind.name),
    ("operands", .list (i.operands.map ofPacked)),
    ("clobbers", ofBits (ofPerClass (fun w => .nat w.toNat) i.clobbers))]

def ofDocument? (d : Document) : Option InstrWords := do
  match ← d.fields? ["kind", "operands", "clobbers"] with
  | [k, o, c] =>
    return ⟨← InstrKind.ofName? (← k.name?), ← o.listOf? (bits? word?),
      ← c.bits? (perClass? long?)⟩
  | _ => none

end InstrWords

namespace BlockWords

def toDocument (b : BlockWords) : Document :=
  let values (vs : List UInt32) : Document := .list (vs.map ofPacked)
  .record [
    ("insts", ofWords [b.first, b.stop]),
    ("preds", ofWords b.preds),
    ("succs", ofWords b.succs),
    ("params", values b.params),
    ("branch_args", .list (b.args.map values))]

def ofDocument? (d : Document) : Option BlockWords := do
  match ← d.fields? ["insts", "preds", "succs", "params", "branch_args"] with
  | [i, p, s, ps, args] =>
    match ← i.listOf? word? with
    | [first, stop] =>
      let values := listOf? (bits? word?)
      return ⟨first, stop, ← p.listOf? word?, ← s.listOf? word?, ← values ps,
        ← args.listOf? values⟩
    | _ => none
  | _ => none

end BlockWords

namespace Snapshot

def toDocument (s : Snapshot) : Document :=
  .record [
    ("machine_env", s.machine.toDocument),
    ("entry", ofWord s.entry),
    ("insts", .list (s.instrs.map InstrWords.toDocument)),
    ("blocks", .list (s.blocks.map BlockWords.toDocument)),
    ("num_vregs", .nat s.numValues.toNat),
    ("slot_sizes", ofPerClass (fun w => .nat w.toNat) s.slotSizes),
    ("slots_named_by_last", .bool s.namedByLast),
    ("traces", .list (s.traces.map ofWords))]

def ofDocument? (d : Document) : Option Snapshot := do
  match ← d.fields? ["machine_env", "entry", "insts", "blocks", "num_vregs", "slot_sizes",
      "slots_named_by_last", "traces"] with
  | [m, e, is, bs, n, sizes, last, ts] =>
    return {
      machine := ← MachineWords.ofDocument? m
      entry := ← e.word?
      instrs := ← is.listOf? InstrWords.ofDocument?
      blocks := ← bs.listOf? BlockWords.ofDocument?
      numValues := ← n.long?
      slotSizes := ← sizes.perClass? long?
      namedByLast := ← last.bool?
      traces := ← ts.listOf? (listOf? word?) }
  | _ => none

end Snapshot

end LinearScan
