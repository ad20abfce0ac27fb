import LinearScan.Check
import LinearScan.Proofs.Alike
import LinearScan.Proofs.ControlFlow

/-!
# Routines that answer alike are checked alike

The checker asks each branch for its arguments, not each block. In a routine that has passed the check of its control
flow, only the last instruction of a block is a branch.
-/

namespace LinearScan

namespace Routine

variable {f g : Routine} {c : ControlFlow} {b i : Nat}

theorem Flows.eq_last_of_isBranch (hf : f.Flows c) (hi : i ∈ (f.span b).toList) (h : f.isBranch i = true) :
    i = f.last b := by
  have hlt : b < f.numBlocks := by
    refine Nat.lt_of_not_le fun hge => ?_
    rw [span, block_of_ge hge] at hi
    cases hi
  have hterm : f.isTerminator i = true := by
    rw [isBranch, beq_iff_eq] at h
    rw [isTerminator, h]
    rfl
  simpa [hterm] using (hf.block b hlt).terminator i hi

namespace Alike

theorem argsFrom_last (h : f.Alike g) (b : Nat) {k : Nat} (hk : k < (f.succs b).length) :
    g.argsFrom b (f.last b) k = f.argsFrom b (f.last b) k := by
  rw [← h.last]
  exact (h.branchArgs b k hk).trans (by rw [Routine.branchArgs, h.last])

theorem edgeSteps (h : f.Alike g) (hf : f.Flows c) : Output.edgeSteps g = Output.edgeSteps f := by
  funext b s
  unfold Output.edgeSteps
  rw [h.span, h.isBranch, h.succs, h.params]
  refine List.flatMap_congr fun i hi => List.filterMap_congr fun x hx => ?_
  obtain ⟨hi, hbranch⟩ := List.mem_filter.1 hi
  obtain rfl := hf.eq_last_of_isBranch hi hbranch
  have hlt : x.2 < (f.succs b).length := by
    have := List.mem_zipIdx hx
    omega
  dsimp only
  rw [h.argsFrom_last b hlt]

theorem steps (h : f.Alike g) (out : Output) : out.steps g = out.steps f := by
  have hstep : out.step g = out.step f := by
    unfold Output.step
    rw [h.operands, h.clobbers]
  unfold Output.steps Output.code
  rw [hstep, h.first, h.span]

theorem settleCheck (h : f.Alike g) (hf : f.Flows c) (out : Output) : out.settleCheck g = out.settleCheck f := by
  have hvisit : out.visitCheck g = out.visitCheck f := by
    unfold Output.visitCheck Output.tellSucc
    rw [h.steps, h.succs, h.edgeSteps hf]
  funext n
  induction n with
  | zero => rfl
  | succ n ih =>
      funext search
      unfold Output.settleCheck
      rw [hvisit, ih]

theorem checkBound (h : f.Alike g) (out : Output) : out.checkBound g = out.checkBound f := by
  have hinstrs (f : Routine) : (f.instrs.toList.map fun i => i.operands.length) =
      (List.range f.numInstrs).map fun i => (f.operands i).length := by
    rw [instrs_eq, List.map_map]
    rfl
  have hblocks (f : Routine) : (f.blocks.toList.map fun b => b.params.length) =
      (List.range f.numBlocks).map fun b => (f.params b).length := by
    rw [blocks_eq, List.map_map]
    rfl
  unfold Output.checkBound
  rw [hinstrs, hinstrs, hblocks, hblocks, h.numInstrs, h.numBlocks, h.operands, h.params]

theorem check (h : f.Alike g) (hf : f.Flows c) (out : Output) : out.check g = out.check f := by
  have hreversed (f : Routine) : (f.blocks.any fun b => b.span.isReversed) =
      (List.range f.numBlocks).any fun b => (f.span b).isReversed := by
    conv_lhs => rw [blocks_eq]
    simp [Routine.span, Function.comp_def]
  have hstatic : out.staticErrors g = out.staticErrors f := by
    unfold Output.staticErrors
    rw [h.numBlocks, h.span, h.operands]
  have hanalyse : out.analyse g = out.analyse f := by
    unfold Output.analyse
    rw [h.settleCheck hf, h.checkBound, h.numBlocks, h.entry]
  unfold Output.check
  rw [hreversed, hreversed, hstatic, hanalyse, h.numBlocks, h.span, h.steps]

end Alike

end Routine

end LinearScan
