import LinearScan.Proofs.Liveness

/-!
# Values that are needed

A value is needed where some way on reads it before anything writes it. Sets that satisfy the equations of liveness
have every value that is needed.
-/

namespace LinearScan

namespace Routine

/-- Value `v` is needed before instruction `i` of block `b`, or at its end: some way on from there reads
the value before anything writes it. -/
inductive Needed (f : Routine) (v : Nat) : Nat → Nat → Prop where
  | read {b i : Nat} {op : Operand} : i ∈ (f.span b).toList → op ∈ f.operands i → op.isUse = true →
      op.vreg.num = v → Needed f v b i
  | pass {b i : Nat} : i ∈ (f.span b).toList → (∀ op ∈ f.operands i, op.writes = true → op.vreg.num ≠ v) →
      Needed f v b (i + 1) → Needed f v b i
  | argument {b : Nat} {w : VirtReg} : w ∈ f.allBranchArgs b → w.num = v → Needed f v b (f.span b).stop
  | edge {b s : Nat} : b ∈ f.preds s → (∀ w ∈ f.params s, w.num ≠ v) → Needed f v s (f.first s) →
      Needed f v b (f.span b).stop

/-- Value `v` is live into block `b`: it is needed there, and is no parameter of the block. -/
def LiveInto (f : Routine) (v b : Nat) : Prop := f.Needed v b (f.first b) ∧ ∀ w ∈ f.params b, w.num ≠ v

variable {f : Routine} {l : Liveness} {b i v : Nat}

/-! ## The equations inside a block -/

/-- The values live before instruction `i` of block `b`. -/
def liveFrom (f : Routine) (l : Liveness) (b i : Nat) : IndexSet :=
  (List.range' i ((f.span b).stop - i)).foldr f.liveBefore (f.liveAtEnd b (l.outOf b))

theorem liveFrom_stop_iff : (f.liveFrom l b (f.span b).stop).get v = true ↔
    (∃ w ∈ f.allBranchArgs b, w.num = v) ∨ (l.outOf b).get v = true := by
  simp only [liveFrom, Nat.sub_self, List.range'_zero, List.foldr_nil, liveAtEnd, IndexSet.get_insertMany,
    Bool.or_eq_true, decide_eq_true_eq, List.mem_map]

theorem liveFrom_iff (h : i < (f.span b).stop) : (f.liveFrom l b i).get v = true ↔
    (∃ op ∈ f.operands i, op.isUse = true ∧ op.vreg.num = v) ∨
      (∀ op ∈ f.operands i, op.writes = true → op.vreg.num ≠ v) ∧ (f.liveFrom l b (i + 1)).get v = true := by
  obtain ⟨n, hn⟩ : ∃ n, (f.span b).stop - i = n + 1 := ⟨(f.span b).stop - i - 1, by omega⟩
  have hn' : (f.span b).stop - (i + 1) = n := by omega
  simp only [liveFrom, hn, hn', List.range'_succ, List.foldr_cons, liveBefore, IndexSet.get_insertMany,
    IndexSet.get_eraseMany, Bool.or_eq_true, Bool.and_eq_true, Bool.not_eq_true', decide_eq_true_eq,
    decide_eq_false_iff_not, List.mem_map, List.mem_filter, not_exists, not_and, and_assoc]

theorem liveAtStart_iff : (f.liveAtStart b (l.outOf b)).get v = true ↔
    (f.liveFrom l b (f.first b)).get v = true ∧ ∀ w ∈ f.params b, w.num ≠ v := by
  have hstart : f.liveFrom l b (f.first b) =
      (f.span b).toList.foldr f.liveBefore (f.liveAtEnd b (l.outOf b)) := rfl
  rw [liveAtStart, IndexSet.get_eraseMany, hstart, and_comm]
  simp only [Bool.and_eq_true, Bool.not_eq_true', decide_eq_false_iff_not, List.mem_map, not_exists, not_and]

/-! ## What is needed is live -/

theorem liveFrom_of_needed
    (hinto : ∀ b < f.numBlocks, ∀ v, (l.into b).get v = (f.liveAtStart b (l.outOf b)).get v)
    (hout : ∀ b < f.numBlocks, ∀ q ∈ f.preds b, ∀ v, (l.into b).get v = true → (l.outOf q).get v = true)
    (h : f.Needed v b i) : (f.liveFrom l b i).get v = true := by
  induction h with
  | read hi hop huse hv => exact (liveFrom_iff (Span.mem_toList.1 hi).2).2 (.inl ⟨_, hop, huse, hv⟩)
  | pass hi hkeep _ ih => exact (liveFrom_iff (Span.mem_toList.1 hi).2).2 (.inr ⟨hkeep, ih⟩)
  | argument hw hv => exact liveFrom_stop_iff.2 (.inl ⟨_, hw, hv⟩)
  | @edge b s hs hkeep _ ih =>
      have hslt : s < f.numBlocks := by
        refine Nat.lt_of_not_le fun hge => ?_
        rw [preds_of_ge hge] at hs
        cases hs
      have hstart : (l.into s).get v = true := by
        rw [hinto s hslt v]
        exact liveAtStart_iff.2 ⟨ih, hkeep⟩
      exact liveFrom_stop_iff.2 (.inr (hout s hslt b hs v hstart))

end Routine

end LinearScan
