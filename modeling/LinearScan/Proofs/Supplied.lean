import LinearScan.Proofs.Admissible
import LinearScan.Proofs.Liveness.Paths

/-!
# Values that are there when they are needed

A routine in which every value is defined once, and in which every read finds a definition before it in its block or in
a block that all ways to it come through, passes the checks on its values.
-/

namespace LinearScan

open Run

namespace Routine

variable {f : Routine} {n b i v : Nat} {ms : List (VirtReg × Bool)} {t : ValueTable}

/-! ## Values -/

/-- All values have numbers and classes, and no value is defined twice. -/
structure DefinesOnce (f : Routine) : Prop where
  values : f.numValues ≤ VirtReg.maxNum + 1
  operand : ∀ b < f.numBlocks, ∀ i ∈ (f.span b).toList, ∀ op ∈ f.operands i, op.isLegible = true
  mention : ∀ b < f.numBlocks, ∀ m ∈ f.mentionsIn b, m.1.num < f.numValues
  arg : ∀ b < f.numBlocks, ∀ v ∈ f.allBranchArgs b, v.num < f.numValues
  once : (definedBy ((List.range f.numBlocks).flatMap f.mentionsIn)).Nodup

theorem Noted.exists_define (h : Noted n ms t) {w : VirtReg} (hlt : w.num < n)
    (hnew : (definedBy (ms ++ [(w, true)])).Nodup) (i : Option Nat) : ∃ t', t.define i w = .ok t' := by
  have hfree : w.num ∉ definedBy ms := fun hmem => by
    rw [definedBy_append, List.nodup_append] at hnew
    exact hnew.2.2 w.num hmem w.num (by simp [definedBy]) rfl
  have hflag : t.defined[w.num]? = some false := by
    rw [h.defined w.num hlt]
    simpa using hfree
  exact ⟨_, by rw [ValueTable.define, hflag]⟩

theorem Noted.exists_addParam (h : Noted n ms t) {w : VirtReg} (hlt : w.num < n)
    (hnew : (definedBy (ms ++ [(w, true)])).Nodup) : ∃ t', t.addParam w = .ok t' ∧ Noted n (ms ++ [(w, true)]) t' := by
  obtain ⟨t', hdefine⟩ := h.exists_define hlt hnew none
  have hadd : t.addParam w = .ok (t'.note w) := by
    rw [ValueTable.addParam, hdefine]
    rfl
  exact ⟨_, hadd, h.addParam hadd⟩

theorem Noted.exists_addOperand (h : Noted n ms t) {op : Operand} (hlt : op.vreg.num < n) (hlegible : op.isLegible = true)
    (hnew : (definedBy (ms ++ [(op.vreg, op.writes)])).Nodup) :
    ∃ t', t.addOperand i op = .ok t' ∧ Noted n (ms ++ [(op.vreg, op.writes)]) t' := by
  obtain ⟨hrole, hvreg⟩ := (Bool.and_eq_true _ _).mp hlegible
  have hsize : ¬ t.vregs.size ≤ op.vreg.num := by
    rw [h.size]
    omega
  obtain ⟨t', hadd⟩ : ∃ t', t.addOperand i op = .ok t' := by
    cases hw : op.writes with
    | true =>
        rw [hw] at hnew
        obtain ⟨t', hdefine⟩ := h.exists_define hlt hnew (some i)
        refine ⟨t'.note op.vreg, ?_⟩
        simp only [ValueTable.addOperand, Stop.demand, hvreg, hrole, hsize, hw, if_true, if_false, hdefine, bind,
          Except.bind]
        rfl
    | false =>
        refine ⟨t.note op.vreg, ?_⟩
        simp only [ValueTable.addOperand, Stop.demand, hvreg, hrole, hsize, hw, if_true, if_false, bind, Except.bind]
        rfl
  exact ⟨t', hadd, (h.addOperand hadd).1⟩

theorem Noted.exists_foldlM {α : Type} {l : List α} {g : ValueTable → α → Except Stop ValueTable}
    (mentions : α → List (VirtReg × Bool))
    (hstep : ∀ x ∈ l, ∀ ms t, Noted n ms t → (definedBy (ms ++ mentions x)).Nodup →
      ∃ t', g t x = .ok t' ∧ Noted n (ms ++ mentions x) t')
    (h : Noted n ms t) (honce : (definedBy (ms ++ l.flatMap mentions)).Nodup) :
    ∃ t', l.foldlM g t = .ok t' ∧ Noted n (ms ++ l.flatMap mentions) t' := by
  refine Except.exists_foldlM (I := fun done t => Noted n (ms ++ done.flatMap mentions) t) (by simpa using h)
    fun done x rest t hl hd => ?_
  have hsub : (ms ++ done.flatMap mentions ++ mentions x).Sublist (ms ++ l.flatMap mentions) := by
    simp [hl]
  obtain ⟨t', hx, hnoted⟩ := hstep x (by simp [hl]) _ t hd ((definedBy_sublist hsub).nodup honce)
  exact ⟨t', hx, by simpa using hnoted⟩

theorem DefinesOnce.exists_addBlockValues (h : f.DefinesOnce) (hb : b < f.numBlocks) (hn : Noted f.numValues ms t)
    (honce : (definedBy (ms ++ f.mentionsIn b)).Nodup) :
    ∃ t', f.addBlockValues t b = .ok t' ∧ Noted f.numValues (ms ++ f.mentionsIn b) t' := by
  have hparams : f.mentionsIn b = (f.params b).flatMap (fun w => [(w, true)]) ++ (f.span b).toList.flatMap f.mentionsAt := by
    rw [mentionsIn, ← List.map_eq_flatMap]
  have hat (i : Nat) : f.mentionsAt i = (f.operands i).flatMap fun op => [(op.vreg, op.writes)] := by
    rw [mentionsAt, ← List.map_eq_flatMap]
  have hlt := h.mention b hb
  rw [hparams] at honce hlt
  obtain ⟨t1, ht1, hn1⟩ : ∃ t', (f.params b).foldlM ValueTable.addParam t = .ok t' ∧
      Noted f.numValues (ms ++ (f.params b).flatMap fun w => [(w, true)]) t' :=
    hn.exists_foldlM _ (fun w hw ms t hn honce => hn.exists_addParam (hlt (w, true) (by simp [hw])) honce)
      ((definedBy_sublist (by simp)).nodup honce)
  obtain ⟨t2, ht2, hn2⟩ : ∃ t', (f.span b).toList.foldlM (fun t i => (f.operands i).foldlM (ValueTable.addOperand i) t) t1 =
      .ok t' ∧ Noted f.numValues (ms ++ (f.params b).flatMap (fun w => [(w, true)]) ++
        (f.span b).toList.flatMap f.mentionsAt) t' := by
    refine hn1.exists_foldlM _ (fun i hi ms t hn honce => ?_) (by simpa using honce)
    rw [hat] at honce ⊢
    refine hn.exists_foldlM _ (fun op hop ms t hn honce => hn.exists_addOperand ?_ (h.operand b hb i hi op hop) honce) honce
    refine hlt (op.vreg, op.writes) (List.mem_append_right _ (List.mem_flatMap.2 ⟨i, hi, ?_⟩))
    exact List.mem_map.2 ⟨op, hop, rfl⟩
  have hargs : (f.allBranchArgs b).find? (fun v => decide (f.numValues ≤ v.num)) = none := by
    refine List.find?_eq_none.2 fun w hw => ?_
    simpa using h.arg b hb w hw
  refine ⟨t2, ?_, ?_⟩
  · rw [addBlockValues, ht1]
    simp only [bind, Except.bind, ht2, hargs]
    rfl
  · rw [hparams, ← List.append_assoc]
    exact hn2

theorem DefinesOnce.exists_values (h : f.DefinesOnce) : ∃ vs, f.values = .ok vs := by
  obtain ⟨t, ht, -⟩ := (noted_nil f.numValues).exists_foldlM (l := List.range f.numBlocks) (g := f.addBlockValues) _
    (fun b hb ms t hn honce => h.exists_addBlockValues (List.mem_range.1 hb) hn honce) (by simpa using h.once)
  refine ⟨t.vregs, ?_⟩
  rw [Routine.values]
  simp only [Stop.demand, h.values, decide_true, if_true, bind, Except.bind, ht]
  rfl

/-! ## Reads -/

/-- Block `d` defines value `v`. -/
def DefinedIn (f : Routine) (v d : Nat) : Prop :=
  (∃ w ∈ f.params d, w.num = v) ∨ ∃ j ∈ (f.span d).toList, ∃ op ∈ f.operands j, op.writes = true ∧ op.vreg.num = v

/-- Before instruction `i` of block `b` value `v` is there: the block has defined it, or a block above it does. -/
def Supply (f : Routine) (above : Nat → Nat → Prop) (v b i : Nat) : Prop :=
  (∃ w ∈ f.params b, w.num = v) ∨
    (∃ j ∈ (f.span b).toList, j < i ∧ ∃ op ∈ f.operands j, op.writes = true ∧ op.vreg.num = v) ∨
    ∃ d, above d b ∧ f.DefinedIn v d

/-- Every read finds its value. A block is above another if all ways to the other come through it. -/
structure Supplied (f : Routine) (above : Nat → Nat → Prop) : Prop where
  entry : ∀ d, ¬ above d f.entry
  pred : ∀ d b, above d b → ∀ q ∈ f.preds b, q = d ∨ above d q
  read : ∀ b, ∀ i ∈ (f.span b).toList, ∀ op ∈ f.operands i, op.isUse = true → f.Supply above op.vreg.num b i
  arg : ∀ b, ∀ w ∈ f.allBranchArgs b, f.Supply above w.num b (f.span b).stop

variable {above : Nat → Nat → Prop}

theorem Supplied.of_needed (h : f.Supplied above) (hn : f.Needed v b i) : f.Supply above v b i := by
  induction hn with
  | read hi hop huse hv => exact hv ▸ h.read _ _ hi _ hop huse
  | @pass b i hi hkeep _ ih =>
      refine ih.imp_right (Or.imp_left ?_)
      rintro ⟨j, hj, hlt, op, hop, hw, hv⟩
      refine ⟨j, hj, Nat.lt_of_le_of_ne (Nat.lt_succ_iff.1 hlt) ?_, op, hop, hw, hv⟩
      rintro rfl
      exact hkeep op hop hw hv
  | argument hw hv => exact hv ▸ h.arg _ _ hw
  | @edge q b hq hparams _ ih =>
      rcases ih with ⟨w, hw, hv⟩ | ⟨j, hj, hlt, -⟩ | ⟨d, hd, hin⟩
      · exact absurd hv (hparams w hw)
      · exact absurd (Span.mem_toList.1 hj).1 (Nat.not_le.2 hlt)
      · rcases h.pred d b hd q hq with rfl | hd
        · refine hin.imp_right fun hin => .inl ?_
          obtain ⟨j, hj, hwrites⟩ := hin
          exact ⟨j, hj, (Span.mem_toList.1 hj).2, hwrites⟩
        · exact .inr (.inr ⟨d, hd, hin⟩)

theorem Supplied.not_liveInto (h : f.Supplied above) : ¬ f.LiveInto v f.entry := by
  rintro ⟨hneeded, hparams⟩
  rcases h.of_needed hneeded with ⟨w, hw, hv⟩ | ⟨j, hj, hlt, -⟩ | ⟨d, hd, -⟩
  · exact hparams w hw hv
  · exact absurd (Span.mem_toList.1 hj).1 (Nat.not_le.2 hlt)
  · exact h.entry d hd

theorem Supplied.liveness_not_stops (h : f.Supplied above) {c : ControlFlow} {vs : Array VirtReg} (hf : Flows f c)
    (hvs : f.Valued vs) (hspan : ∀ b, (f.span b).first ≤ (f.span b).stop)
    (hpreds : ∀ b, ∀ q ∈ f.preds b, q < f.numBlocks) (e : Stop) : ¬ Stops (f.liveness c) e := by
  intro hstops
  obtain ⟨s, hs⟩ := exists_searchLive hf hvs hpreds
  obtain ⟨-, v, hv⟩ := eq_of_stops_liveness hpreds hs hstops
  exact h.not_liveInto ((into_iff_liveInto hf hvs hspan hpreds hs hf.entry_lt).1 hv)

end Routine

end LinearScan
