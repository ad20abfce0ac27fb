import LinearScan.Codec
import LinearScan.Snapshot

/-!
# Snapshots as bytes

The fields of a snapshot one after another.
-/

namespace LinearScan

open Codec

def InstrKind.code : InstrKind → Nat
  | .op => 0
  | .ret => 1
  | .branch => 2

def InstrKind.ofCode? : Nat → Option InstrKind
  | 0 => some .op
  | 1 => some .ret
  | 2 => some .branch
  | _ => none

/-- One value for each class. -/
def PerClass.codec {α : Type} (c : Codec α) : Codec (PerClass α) :=
  (pair c (pair c c)).imap (fun (a, b, c) => ⟨a, b, c⟩) fun t => (t.int, t.float, t.vector)

def MachineWords.codec : Codec MachineWords :=
  (pair (PerClass.codec (list byte))
    (pair (PerClass.codec (list byte)) (PerClass.codec (option byte)))).imap
    (fun (p, n, s) => ⟨p, n, s⟩) fun m => (m.preferred, m.nonPreferred, m.scratch)

def InstrKind.codec : Codec InstrKind := (number 4).filterMap InstrKind.ofCode? InstrKind.code

def InstrWords.codec : Codec InstrWords :=
  (pair InstrKind.codec (pair (list word) (PerClass.codec long))).imap
    (fun (k, o, c) => ⟨k, o, c⟩) fun i => (i.kind, i.operands, i.clobbers)

def BlockWords.codec : Codec BlockWords :=
  (pair word (pair word (pair (list word) (pair (list word)
    (pair (list word) (list (list word))))))).imap
    (fun (a, b, p, s, ps, args) => ⟨a, b, p, s, ps, args⟩)
    fun b => (b.first, b.stop, b.preds, b.succs, b.params, b.args)

def Snapshot.codec : Codec Snapshot :=
  (pair MachineWords.codec (pair word (pair (list InstrWords.codec) (pair (list BlockWords.codec)
    (pair long (pair (PerClass.codec long) (pair flag (list (list word))))))))).imap
    (fun (m, e, is, bs, n, sizes, last, ts) => ⟨m, e, is, bs, n, sizes, last, ts⟩)
    fun s => (s.machine, s.entry, s.instrs, s.blocks, s.numValues, s.slotSizes, s.namedByLast,
      s.traces)

namespace Snapshot

def toBytes (s : Snapshot) : List UInt8 := codec.encode s

/-- Reads a snapshot from the front of the bytes. -/
def ofBytes? (bytes : List UInt8) : Option Snapshot := (codec.decode bytes).map Prod.fst

end Snapshot

end LinearScan
