import LinearScan.Snapshot
import LinearScan.Proofs.Alike.Allocate
import LinearScan.Proofs.Alike.Check
import LinearScan.Proofs.Edges
import LinearScan.Proofs.Encoding.Packed

/-!
# A snapshot replays like its routine

A snapshot keeps the arguments of a branch with its block, but what is read back from it answers as the recorded
routine does. So it can be partitioned into the same traces, is allocated in the same way and gets the same verdict.
-/

namespace LinearScan

open Routine

/-! ## Words -/

/-- The numbers of a routine fit the words that a snapshot keeps them in. -/
structure Routine.Fits (f : Routine) : Prop where
  numBlocks : f.numBlocks ≤ UInt32.size
  numValues : f.numValues < UInt64.size
  slotSizes : ∀ c, f.slotSizes.get c < UInt64.size
  operands : ∀ i < f.numInstrs, ∀ op ∈ f.operands i, op.vreg.num ≤ VirtReg.maxNum
  span : ∀ b < f.numBlocks, (f.span b).first < UInt32.size ∧ (f.span b).stop < UInt32.size
  edges : ∀ b < f.numBlocks, ∀ s ∈ f.preds b ++ f.succs b, s < UInt32.size
  values : ∀ b < f.numBlocks, ∀ v ∈ f.params b ++ f.allBranchArgs b, v.key < UInt32.size

theorem map_read_written {α β : Type} {read : β → α} {write : α → β} {l : List α} (h : ∀ a ∈ l, read (write a) = a) :
    (l.map write).map read = l := by
  rw [List.map_map]
  exact (List.map_congr_left h).trans (List.map_id l)

theorem words_read {ns : List Nat} (h : ∀ n ∈ ns, n < UInt32.size) : (ns.map UInt32.ofNat).map UInt32.toNat = ns :=
  map_read_written fun n hn => UInt32.toNat_ofNat_of_lt' (h n hn)

theorem values_read {vs : List VirtReg} (h : ∀ v ∈ vs, v.key < UInt32.size) :
    (vs.map VirtReg.toWord).map VirtReg.ofWord = vs :=
  map_read_written fun v hv => VirtReg.ofWord_toWord (h v hv)

theorem sizes_read {sizes : PerClass Nat} (h : ∀ c, sizes.get c < UInt64.size) :
    (sizes.map UInt64.ofNat).map UInt64.toNat = sizes := by
  have hint : sizes.int < UInt64.size := h .int
  have hfloat : sizes.float < UInt64.size := h .float
  have hvector : sizes.vector < UInt64.size := h .vector
  simp only [PerClass.map, UInt64.toNat_ofNat_of_lt' hint, UInt64.toNat_ofNat_of_lt' hfloat,
    UInt64.toNat_ofNat_of_lt' hvector]

theorem MachineWords.toMachine_ofMachine (m : Machine) : (ofMachine m).toMachine = m := by
  have hlist (rs : List PhysReg) : (rs.map PhysReg.toByte).map PhysReg.ofByte = rs :=
    map_read_written fun r _ => r.ofByte_toByte
  have hoption (r : Option PhysReg) : (r.map PhysReg.toByte).map PhysReg.ofByte = r := by
    cases r with
    | none => rfl
    | some r => exact congrArg some r.ofByte_toByte
  obtain ⟨preferred, nonPreferred, scratch⟩ := m
  simp only [ofMachine, toMachine, PerClass.map, hlist, hoption]

theorem InstrWords.toInstr_ofInstr {i : Instr} (h : ∀ op ∈ i.operands, op.vreg.num ≤ VirtReg.maxNum) :
    (ofInstr i).toInstr = { i with args := [] } := by
  have hops : (i.operands.map Operand.toWord).map Operand.ofWord = i.operands :=
    map_read_written fun op hop => Operand.ofWord_toWord (h op hop)
  simp only [ofInstr, toInstr, hops]
  rfl

namespace Snapshot

variable {f : Routine} {m : Machine} {ts : Traces} {c : ControlFlow} {b i : Nat}

theorem toBlock_recordBlock (hf : f.Fits) (hb : b < f.numBlocks) : (recordBlock f b).toBlock =
    { f.block b with args? := some ((List.range (f.succs b).length).map (f.branchArgs b)) } := by
  obtain ⟨hpreds, hsuccs⟩ := List.forall_mem_append.1 (hf.edges b hb)
  obtain ⟨hparams, hargs⟩ := List.forall_mem_append.1 (hf.values b hb)
  have hspan : (recordBlock f b).span = f.span b := by
    obtain ⟨hfirst, hstop⟩ := hf.span b hb
    simp only [recordBlock, BlockWords.span, UInt32.toNat_ofNat_of_lt' hfirst, UInt32.toNat_ofNat_of_lt' hstop]
  have hrows : ((List.range (f.succs b).length).map fun k => (f.branchArgs b k).map VirtReg.toWord).map
      (·.map VirtReg.ofWord) = (List.range (f.succs b).length).map (f.branchArgs b) := by
    rw [List.map_map]
    exact List.map_congr_left fun k hk => values_read fun v hv => hargs v (List.mem_flatMap.2 ⟨k, hk, hv⟩)
  calc (recordBlock f b).toBlock
      = ⟨(recordBlock f b).span, ((f.preds b).map UInt32.ofNat).map UInt32.toNat,
          ((f.succs b).map UInt32.ofNat).map UInt32.toNat, ((f.params b).map VirtReg.toWord).map VirtReg.ofWord,
          some (((List.range (f.succs b).length).map fun k => (f.branchArgs b k).map VirtReg.toWord).map
            (·.map VirtReg.ofWord))⟩ := rfl
    _ = _ := by
      rw [hspan, words_read hpreds, words_read hsuccs, values_read hparams, hrows]
      rfl

theorem instr_record (hf : f.Fits) (i : Nat) : (record f m ts).routine.instr i = { f.instr i with args := [] } := by
  rcases Nat.lt_or_ge i f.numInstrs with hi | hi
  · have hread := InstrWords.toInstr_ofInstr (i := f.instr i) (hf.operands i hi)
    have hlt : i < f.instrs.size := hi
    rw [← hread]
    simp [Routine.instr, routine, record, hlt]
  · have hge : ¬ i < f.instrs.size := Nat.not_lt.2 hi
    have hnone : (record f m ts).routine.instr i = default := by simp [Routine.instr, routine, record, hge]
    rw [hnone, instr_of_ge hi]
    rfl

theorem block_record (hf : f.Fits) (hb : b < f.numBlocks) : (record f m ts).routine.block b =
    { f.block b with args? := some ((List.range (f.succs b).length).map (f.branchArgs b)) } := by
  rw [← toBlock_recordBlock hf hb]
  simp [Routine.block, routine, record, hb]

theorem block_record_of_ge (hb : f.numBlocks ≤ b) : (record f m ts).routine.block b = default := by
  have hge : ¬ b < f.numBlocks := Nat.not_lt.2 hb
  simp [Routine.block, routine, record, hge]

theorem alike_record (hf : f.Fits) (hc : f.controlFlow = .ok c) : f.Alike (record f m ts).routine := by
  -- What a block is asked for besides its arguments.
  have hblock {α : Type} (ask : Block → α) (hask : ∀ (x : Block) args, ask { x with args? := args } = ask x) (b : Nat) :
      ask ((record f m ts).routine.block b) = ask (f.block b) := by
    rcases Nat.lt_or_ge b f.numBlocks with hb | hb
    · rw [block_record hf hb, hask]
    · rw [block_record_of_ge hb, block_of_ge hb]
  have hlt {b k : Nat} (hk : k < (f.succs b).length) : b < f.numBlocks := lt_of_mem_succs (List.getElem_mem hk)
  exact {
    numInstrs := by simp [numInstrs, routine, record]
    numBlocks := by simp [Routine.numBlocks, routine, record]
    entry := UInt32.toNat_ofNat_of_lt' (Nat.lt_of_lt_of_le (flows_of_controlFlow hc).entry_lt hf.numBlocks)
    numValues := UInt64.toNat_ofNat_of_lt' hf.numValues
    slotSizes := sizes_read hf.slotSizes
    namedByLast := rfl
    isBranch := funext fun i => by rw [isBranch, instr_record hf, isBranch]
    isTerminator := funext fun i => by rw [isTerminator, instr_record hf, isTerminator]
    operands := funext fun i => by rw [operands, instr_record hf, operands]
    clobbers := funext fun i => by rw [clobbers, instr_record hf, clobbers]
    span := funext (hblock Block.span fun _ _ => rfl)
    preds := funext (hblock Block.preds fun _ _ => rfl)
    succs := funext (hblock Block.succs fun _ _ => rfl)
    params := funext (hblock Block.params fun _ _ => rfl)
    hasArgs := fun b k hk => by
      rw [hasArgs_of_controlFlow hc hk, hasArgs, block_record hf (hlt hk)]
      simpa using hk
    branchArgs := fun b k hk => by
      rw [branchArgs, argsFrom, block_record hf (hlt hk)]
      simp [hk] }

theorem plan_record (hf : f.Fits) (hts : Traces.Partition f ts) : (record f m ts).plan = .given ts.lists.toList := by
  have hlists : (ts.lists.toList.map fun bs => bs.map UInt32.ofNat).map (·.map UInt32.toNat) = ts.lists.toList := by
    refine map_read_written fun bs hbs => words_read fun b hb => ?_
    obtain ⟨t, ht⟩ := List.mem_iff_getElem?.1 hbs
    have hmem : b ∈ ts.blocks t := by
      rw [Array.getElem?_toList] at ht
      simpa [Traces.blocks, ht] using hb
    exact Nat.lt_of_lt_of_le (hts.lt t b hmem) hf.numBlocks
  exact congrArg TracePlan.given hlists

/-- A snapshot of a routine whose control flow is accepted replays like the routine: its lists give the same traces, on
its machine the allocation ends in the same way, after the same events, and every result gets the same verdict. -/
theorem record_replays {plan : TracePlan} (hf : f.Fits) (hc : f.controlFlow = .ok c) (hts : f.traces plan = .ok ts)
    (m : Machine) :
    (record f m ts).routine.traces (record f m ts).plan = .ok ts ∧
    (∀ o, (record f m ts).routine.allocate (record f m ts).toMachine ts o = f.allocate m ts o) ∧
    ∀ out : Output, out.check (record f m ts).routine = out.check f := by
  have halike : f.Alike (record f m ts).routine := alike_record hf hc
  refine ⟨?_, fun o => ?_, halike.check (flows_of_controlFlow hc)⟩
  · obtain ⟨lists, -, hlists⟩ := Except.bind_ok hts
    have heq := Traces.lists_of_ofLists hlists
    rw [plan_record hf (Traces.partition_of_lists hlists), heq]
    change Traces.ofLists (record f m ts).routine lists = .ok ts
    rw [halike.ofLists, hlists]
  · have hmachine : (record f m ts).toMachine = m := MachineWords.toMachine_ofMachine m
    rw [hmachine, halike.allocate]

/-- The arguments of `handOver` move from its branches to its blocks. -/
theorem record_replays_handOver :
    (record handOver (.ints 3) handOverTraces).routine ≠ handOver ∧
    (record handOver (.ints 3) handOverTraces).routine.traces (record handOver (.ints 3) handOverTraces).plan =
      .ok handOverTraces ∧
    (∀ o, (record handOver (.ints 3) handOverTraces).routine.allocate
      (record handOver (.ints 3) handOverTraces).toMachine handOverTraces o =
        handOver.allocate (.ints 3) handOverTraces o) ∧
    ∀ out : Output, out.check (record handOver (.ints 3) handOverTraces).routine = out.check handOver := by
  have hf : handOver.Fits := {
    numBlocks := by decide
    numValues := by decide
    slotSizes := fun c => by cases c <;> decide
    operands := by decide
    span := by decide
    edges := by decide
    values := by decide }
  obtain ⟨out, hout, -⟩ := handOver_returns
  obtain ⟨p, hp, -⟩ := hout.bind
  obtain ⟨c, hc, -⟩ := hp.bind
  exact ⟨by decide, record_replays hf hc.of_check handOver_traces (.ints 3)⟩

end Snapshot

end LinearScan
