import LinearScan.Routine
import Mathlib.Data.List.Basic

/-!
# Numbers outside a routine

A number that names no block or instruction of the routine stands for an empty one.
-/

namespace LinearScan.Routine

variable {f : Routine}

theorem block_of_ge {b : Nat} (h : f.numBlocks ≤ b) : f.block b = default := by
  have hb : ¬ b < f.blocks.size := Nat.not_lt.2 h
  simp [block, hb]

theorem instr_of_ge {i : Nat} (h : f.numInstrs ≤ i) : f.instr i = default := by
  have hi : ¬ i < f.instrs.size := Nat.not_lt.2 h
  simp [instr, hi]

theorem operands_of_ge {i : Nat} (h : f.numInstrs ≤ i) : f.operands i = [] := by
  rw [operands, instr_of_ge h]
  rfl

theorem succs_of_ge {b : Nat} (h : f.numBlocks ≤ b) : f.succs b = [] := by
  rw [succs, block_of_ge h]
  rfl

theorem preds_of_ge {b : Nat} (h : f.numBlocks ≤ b) : f.preds b = [] := by
  rw [preds, block_of_ge h]
  rfl

theorem forward_of_blocks (h : ∀ b < f.numBlocks, (f.span b).first ≤ (f.span b).stop) (b : Nat) :
    (f.span b).first ≤ (f.span b).stop := by
  rcases Nat.lt_or_ge b f.numBlocks with hb | hb
  · exact h b hb
  · rw [span, block_of_ge hb]
    exact Nat.le_refl _

theorem lt_of_mem_succs {b s : Nat} (h : s ∈ f.succs b) : b < f.numBlocks := by
  refine Nat.lt_of_not_le fun hge => ?_
  rw [succs_of_ge hge] at h
  cases h

theorem lt_of_mem_operands {i : Nat} {op : Operand} (h : op ∈ f.operands i) : i < f.numInstrs := by
  refine Nat.lt_of_not_le fun hge => ?_
  rw [operands_of_ge hge] at h
  cases h

end LinearScan.Routine
