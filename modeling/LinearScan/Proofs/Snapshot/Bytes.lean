import LinearScan.Proofs.Codec
import LinearScan.Snapshot.Binary

/-!
# Snapshots and their bytes

The bytes of a snapshot give the snapshot back, whatever stands behind them, and bytes that hold a snapshot
begin with just the bytes that are written for it.
-/

namespace LinearScan

open Codec

/-- The length of the list fits in the eight bytes in front of it. -/
def Short {α : Type} (l : List α) : Prop := l.length < 2 ^ 64

/-! ## Snapshots that can be written -/

structure MachineWords.Short (m : MachineWords) : Prop where
  preferred : ∀ c, LinearScan.Short (m.preferred.get c)
  nonPreferred : ∀ c, LinearScan.Short (m.nonPreferred.get c)

def InstrWords.Short (i : InstrWords) : Prop := LinearScan.Short i.operands

structure BlockWords.Short (b : BlockWords) : Prop where
  preds : LinearScan.Short b.preds
  succs : LinearScan.Short b.succs
  params : LinearScan.Short b.params
  args : LinearScan.Short b.args
  row : ∀ vs ∈ b.args, LinearScan.Short vs

/-- All lists in the snapshot have lengths that can be written. -/
structure Snapshot.Short (s : Snapshot) : Prop where
  machine : s.machine.Short
  instrs : LinearScan.Short s.instrs
  instr : ∀ i ∈ s.instrs, i.Short
  blocks : LinearScan.Short s.blocks
  block : ∀ b ∈ s.blocks, b.Short
  traces : LinearScan.Short s.traces
  trace : ∀ bs ∈ s.traces, LinearScan.Short bs

/-! ## Codecs of the parts -/

theorem exact_shortList {α : Type} {c : Codec α} (h : Exact c fun _ => True) : Exact (list c) Short :=
  h.list.congr fun _ => ⟨fun hl => hl.1, fun hl => ⟨hl, fun _ _ => trivial⟩⟩

theorem PerClass.exact_codec {α : Type} {c : Codec α} {fits : α → Prop} (h : Exact c fits) :
    Exact (PerClass.codec c) fun t => ∀ k, fits (t.get k) := by
  refine ((h.pair (h.pair h)).imap (fun _ => rfl) fun _ _ => rfl).congr fun t => ?_
  constructor
  · rintro ⟨hint, hfloat, hvector⟩ k
    cases k
    · exact hint
    · exact hfloat
    · exact hvector
  · intro ht
    exact ⟨ht .int, ht .float, ht .vector⟩

theorem MachineWords.exact_codec : Exact codec Short := by
  have hregs := PerClass.exact_codec (exact_shortList exact_byte)
  have hscratch := PerClass.exact_codec exact_byte.option
  refine ((hregs.pair (hregs.pair hscratch)).imap (fun _ => rfl) fun _ _ => rfl).congr fun m => ?_
  constructor
  · rintro ⟨hp, hn, -⟩
    exact ⟨hp, hn⟩
  · intro hm
    exact ⟨hm.preferred, hm.nonPreferred, fun _ _ _ => trivial⟩

theorem InstrKind.exact_codec : Exact codec fun _ => True := by
  refine (exact_number 4).filterMap (fun k _ => ?_) fun n k _ => ?_
  · cases k <;> decide
  · rw [true_and]
    constructor
    · intro h
      unfold ofCode? at h
      split at h <;> cases h <;> rfl
    · rintro rfl
      cases k <;> rfl

theorem InstrWords.exact_codec : Exact codec Short := by
  have hparts := InstrKind.exact_codec.pair ((exact_shortList exact_word).pair (PerClass.exact_codec exact_long))
  refine (hparts.imap (fun _ => rfl) fun _ _ => rfl).congr fun i => ?_
  constructor
  · rintro ⟨-, ho, -⟩
    exact ho
  · intro ho
    exact ⟨trivial, ho, fun _ => trivial⟩

theorem BlockWords.exact_codec : Exact codec Short := by
  have hwords := exact_shortList exact_word
  have hparts := exact_word.pair (exact_word.pair (hwords.pair (hwords.pair (hwords.pair hwords.list))))
  refine (hparts.imap (fun _ => rfl) fun _ _ => rfl).congr fun b => ?_
  constructor
  · rintro ⟨-, -, hp, hs, hps, ha, hrow⟩
    exact ⟨hp, hs, hps, ha, hrow⟩
  · intro hb
    exact ⟨trivial, trivial, hb.preds, hb.succs, hb.params, hb.args, hb.row⟩

theorem Snapshot.exact_codec : Exact codec Short := by
  have hparts := MachineWords.exact_codec.pair (exact_word.pair (InstrWords.exact_codec.list.pair
    (BlockWords.exact_codec.list.pair (exact_long.pair ((PerClass.exact_codec exact_long).pair
      (exact_flag.pair (exact_shortList exact_word).list))))))
  refine (hparts.imap (fun _ => rfl) fun _ _ => rfl).congr fun s => ?_
  constructor
  · rintro ⟨hm, -, ⟨his, hi⟩, ⟨hbs, hb⟩, -, -, -, hts, ht⟩
    exact ⟨hm, his, hi, hbs, hb, hts, ht⟩
  · intro hs
    exact ⟨hs.machine, trivial, ⟨hs.instrs, hs.instr⟩, ⟨hs.blocks, hs.block⟩, trivial, fun _ => trivial, trivial,
      hs.traces, hs.trace⟩

/-! ## The whole snapshot -/

theorem Snapshot.ofBytes?_eq_some_iff {bytes : List UInt8} {s : Snapshot} :
    ofBytes? bytes = some s ↔ s.Short ∧ s.toBytes <+: bytes := by
  simp only [ofBytes?, Option.map_eq_some_iff, Prod.exists, exists_and_right, exists_eq_right]
  constructor
  · rintro ⟨rest, h⟩
    obtain ⟨hs, rfl⟩ := (exact_codec _ _ _).1 h
    exact ⟨hs, rest, rfl⟩
  · rintro ⟨hs, rest, rfl⟩
    exact ⟨rest, (exact_codec _ _ _).2 ⟨hs, rfl⟩⟩

/-- Bytes lose nothing of a snapshot, and a snapshot has one form in bytes. -/
theorem Snapshot.bytes_faithful :
    (∀ s : Snapshot, s.Short → ∀ rest, ofBytes? (s.toBytes ++ rest) = some s) ∧
      ∀ bytes s, ofBytes? bytes = some s → s.toBytes <+: bytes :=
  ⟨fun _ hs rest => ofBytes?_eq_some_iff.2 ⟨hs, rest, rfl⟩, fun _ _ h => (ofBytes?_eq_some_iff.1 h).2⟩

/-- A snapshot with something in every field: a value is passed to a second block, and its definition clobbers a
register of another class. -/
def Snapshot.passing : Snapshot where
  machine := ⟨⟨[0, 1], [], []⟩, ⟨[2], [64], []⟩, ⟨some 3, none, none⟩⟩
  entry := 0
  instrs := [⟨.op, [1207959552], ⟨0, 6, 0⟩⟩, ⟨.branch, [], ⟨0, 0, 0⟩⟩, ⟨.ret, [1342177281], ⟨0, 0, 0⟩⟩]
  blocks := [⟨0, 2, [], [1], [], [[0]]⟩, ⟨2, 3, [0], [], [4], []⟩]
  numValues := 2
  slotSizes := ⟨1, 2, 4⟩
  namedByLast := true
  traces := [[0, 1]]

theorem Snapshot.passing_short : passing.Short where
  machine := ⟨by rintro ⟨⟩ <;> simp [passing, PerClass.get, LinearScan.Short],
    by rintro ⟨⟩ <;> simp [passing, PerClass.get, LinearScan.Short]⟩
  instrs := by simp [passing, LinearScan.Short]
  instr := by simp [passing, InstrWords.Short, LinearScan.Short]
  blocks := by simp [passing, LinearScan.Short]
  block := by
    simp only [passing, List.forall_mem_cons, List.not_mem_nil, false_implies, implies_true, and_true]
    constructor <;> constructor <;> simp [LinearScan.Short]
  traces := by simp [passing, LinearScan.Short]
  trace := by simp [passing, LinearScan.Short]

/-- The bytes of the snapshot before other bytes hold it, and they begin with its bytes. -/
theorem Snapshot.bytes_faithful_passing :
    passing.Short ∧ ofBytes? (passing.toBytes ++ [7, 255]) = some passing ∧
      passing.toBytes <+: passing.toBytes ++ [7, 255] :=
  have h := bytes_faithful.1 passing passing_short [7, 255]
  ⟨passing_short, h, bytes_faithful.2 _ _ h⟩

end LinearScan
