import LinearScan.Proofs.ControlFlow.Exact

/-!
# Routines whose blocks follow one another

A routine is admissible if it is well formed, its edges lead from block to block, and its spans run forward to
instructions it has.
-/

namespace LinearScan

namespace Routine

variable {f : Routine} {b : Nat}

/-- What is asked of a routine that is put together block by block. -/
structure Admissible (f : Routine) : Prop where
  entry : f.entry < f.numBlocks
  preds : ∀ b, ∀ q ∈ f.preds b, q < f.numBlocks
  succs : ∀ b, ∀ s ∈ f.succs b, s < f.numBlocks
  reached : ∀ b < f.numBlocks, Reachable f b
  block : ∀ b < f.numBlocks, BlockOk f b
  hasArgs : ∀ b < f.numBlocks, ∀ k < (f.succs b).length, f.hasArgs b k = true
  forward : ∀ b < f.numBlocks, (f.span b).first ≤ (f.span b).stop
  inRange : ∀ b < f.numBlocks, (f.span b).stop ≤ f.numInstrs
  owner : ∀ i < f.numInstrs, ∃ b < f.numBlocks, i ∈ (f.span b).toList
  apart : ∀ b < f.numBlocks, ∀ b' < f.numBlocks, ∀ i ∈ (f.span b).toList, i ∈ (f.span b').toList → b = b'
  instrs : f.numInstrs < Index.unset

namespace Admissible

variable (h : f.Admissible)

include h

theorem last_lt (hb : b < f.numBlocks) : f.last b < f.numInstrs := by
  have hne := (h.block b hb).nonempty
  have hle := h.forward b hb
  have hin := h.inRange b hb
  simp only [last, Span.last]
  omega

theorem wellFormed : f.WellFormed := by
  refine ⟨h.entry, h.succs, h.reached, fun b hb => ?_, fun b hb i hi => ?_, fun i hi => ?_, h.block, h.hasArgs,
    fun b hb _ => h.last_lt hb⟩
  · have hne := (h.block b hb).nonempty
    have hle := h.forward b hb
    have hin := h.inRange b hb
    have hsmall := h.instrs
    simp only [Index.isSet, Span.hasLast, Span.isEmpty, first, Bool.and_eq_true, bne_iff_ne, ne_eq,
      Bool.not_eq_eq_eq_not]
    exact ⟨by omega, ⟨by simpa using hne, by omega⟩, by omega⟩
  · exact Nat.lt_of_lt_of_le (Span.mem_toList.1 hi).2 (h.inRange b hb)
  · obtain ⟨b, hb, hmem⟩ := h.owner i hi
    exact ⟨b, ⟨hb, hmem⟩, fun b' hb' => h.apart b' hb'.1 b hb i hb'.2 hmem⟩

theorem exists_controlFlow : ∃ c, f.controlFlow = .ok c := h.wellFormed.exists_controlFlow fun b _ => h.preds b

end Admissible

end Routine

end LinearScan
