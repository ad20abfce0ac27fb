import LinearScan.Proofs.Check.Knowledge
import LinearScan.Proofs.Operands

/-!
# The check of one block

Where the locations of live values are known at the start of a block, they are known all along its code: the
edits take the values to the operands, the uses find them, and an instruction overwrites none that is still
needed. At the end the values that pass an edge are known where the successor expects them.
-/

namespace LinearScan

open LiveRange Run

namespace Problem.Solution

open Layout

variable {p : Problem} {out : Output} {S : Solution p out} {v b i t : Nat} {A B : Allocation} {s : CheckState}
  {op : Operand}

/-! ## States along a block -/

/-- Every live value is known where it is when the edits in front of instruction `i` begin. -/
def Entering (S : Solution p out) (b i : Nat) (s : CheckState) : Prop :=
  ∀ v A, (p.liveAt b i).get v = true → S.Comes b i v A → s.Knows A (p.value v)

/-- Every live value is known in its location at instruction `i`, and so are the copies. -/
structure Ready (S : Solution p out) (b i : Nat) (s : CheckState) : Prop where
  live : ∀ v A, (p.liveAt b i).get v = true → S.At v (Point.before i) A → s.Knows A (p.value v)
  copies : ∀ c ∈ S.a.copies, c.instr = i → s.Knows (.reg c.reg) c.vreg

/-- Every live value is known where it is after instruction `i`. -/
def Left (S : Solution p out) (b i : Nat) (s : CheckState) : Prop :=
  ∀ v A, (p.liveAt b (i + 1)).get v = true → S.At v (Point.after i) A → s.Knows A (p.value v)

/-- The moves of the edits in front of instruction `i`. -/
def moveSteps (out : Output) (i : Nat) : List CheckStep :=
  (out.editsBefore i).map fun e => .move e.source e.dest

theorem knows_moveSteps (h : Edit.performAll (out.editsBefore i) s.get B = s.get A) {u : VirtReg} (hA : s.Knows A u) :
    (s.afterAll (moveSteps out i)).Knows B u := by
  rw [CheckState.Knows, moveSteps, CheckState.get_edits, h]
  exact hA

theorem live_of_use (hi : i ∈ (p.routine.span b).toList) (hop : op ∈ p.routine.operands i) (huse : op.isUse = true) :
    (p.liveAt b i).get op.vreg.num = true :=
  (liveAt_iff (Span.mem_toList.1 hi).2).2 (.inl ⟨op, hop, huse, rfl⟩)

theorem value_operand (S : Solution p out) (hr : p.Regular) (hb : b < p.routine.numBlocks)
    (hi : i ∈ (p.routine.span b).toList) (hop : op ∈ p.routine.operands i) : p.value op.vreg.num = op.vreg :=
  S.posed.value_eq hr.routine.mirrored hr.routine.oneClass (Routine.occurs_of_operand hb hi hop)

theorem Entering.ready (hr : p.Regular) (hb : b < p.routine.numBlocks) (hi : i ∈ (p.routine.span b).toList)
    (hstay : ¬ p.HandsOver b i) (h : S.Entering b i s) : S.Ready b i (s.afterAll (moveSteps out i)) where
  live v B hv hB := by
    obtain ⟨A, hA⟩ := S.exists_comes hr hb hi hv
    exact knows_moveSteps (hA.arrives_at hr hb hi hstay hB) (h v A hv hA)
  copies c hc hinstr := by
    subst hinstr
    obtain ⟨b', hb', hi', op, hop, huse, hvreg, -⟩ := copy_spec hc
    have hmem := List.mem_of_getElem? hop
    have hv : (p.liveAt b c.instr).get c.vreg.num = true := hvreg ▸ live_of_use hi hmem huse
    have hvalue : p.value c.vreg.num = c.vreg := hvreg ▸ S.value_operand hr hb hi hmem
    obtain ⟨A, hA⟩ := S.exists_comes hr hb hi hv
    obtain ⟨B, hB⟩ := S.at_before_of_live hb hi hv
    exact knows_moveSteps (hA.arrives_at_copy hr hb hi hstay hc hB) (hvalue ▸ h _ A hv hA)

/-! ## An instruction -/

/-- The operands that an instruction writes, with their locations. -/
def written (p : Problem) (out : Output) (i : Nat) : List (Operand × Allocation) :=
  ((p.routine.operands i).zip (out.instrAllocs i)).filter (·.1.writes)

theorem of_mem_written (S : Solution p out) (hb : b < p.routine.numBlocks) (hi : i ∈ (p.routine.span b).toList)
    {w : Operand × Allocation} (hw : w ∈ written p out i) :
    w.1 ∈ p.routine.operands i ∧ w.1.writes = true ∧ S.At w.1.vreg.num (Point.after i) w.2 := by
  obtain ⟨hmem, hwrites⟩ := List.mem_filter.1 hw
  have hop := (List.of_mem_zip hmem).1
  exact ⟨hop, hwrites, (S.located_of_mem hb hi hmem).1.written hb hi hop hwrites⟩

theorem written_apart (S : Solution p out) (hb : b < p.routine.numBlocks) (hi : i ∈ (p.routine.span b).toList) :
    (written p out i).Pairwise fun x y => y.1.vreg ≠ x.1.vreg ∧ y.2 ≠ x.2 := by
  have hfst : ((p.routine.operands i).zip (out.instrAllocs i)).map Prod.fst = p.routine.operands i :=
    List.map_fst_zip (by rw [S.length_instrAllocs])
  have hapart := S.posed.valued.writes_apart hb hi
  rw [← hfst, List.pairwise_map] at hapart
  have hnums : (written p out i).Pairwise fun x y => x.1.vreg.num ≠ y.1.vreg.num := List.pairwise_filter.2 hapart
  refine hnums.imp_of_mem fun {x y} hx hy hne => ⟨fun heq => hne (by rw [heq]), fun heq => hne ?_⟩
  exact (S.of_mem_written hb hi hx).2.2.value_unique (heq ▸ (S.of_mem_written hb hi hy).2.2)

theorem not_clobbered {r : PhysReg} (hb : b < p.routine.numBlocks) (hi : i ∈ (p.routine.span b).toList)
    (hat : S.At v (Point.after i) (.reg r)) (hkeep : ∀ op ∈ p.routine.operands i, op.writes = true → op.vreg.num ≠ v) :
    (p.routine.clobbers i).contains r = false := by
  have hinstr : Point.instr (Point.after i) = i := by simp [Point.instr, Point.after, Nat.mul_add_div]
  have hserved := (S.allocated.trace _ (S.posed.partition.of_lt b hb)).rooted.served
  have hin : p.InstrIn (p.traces.of b) i := ⟨b, S.posed.partition.mem_of b hb, hi⟩
  by_contra hcon
  rw [Bool.not_eq_false] at hcon
  by_cases hout : ∀ op ∈ p.routine.operands i, op.writes = true → op.fixedReg? ≠ some r
  · cases hat.owner_eq hb hi hinstr (hserved.kept_clobber hin hcon hout)
  · simp only [not_forall, not_not] at hout
    obtain ⟨op, hop, hw, hreg⟩ := hout
    have hnotuse : ¬ op.isUse = true := by simp [InstrSite.isUse_eq_not_writes, hw]
    obtain ⟨o, ho, hkept⟩ := hserved.kept_of_operand hin hop hreg
    obtain ⟨h1, h2, -⟩ := Operand.after_mem_occupied (i := i) fun huse => absurd huse hnotuse
    have howner := hat.owner_eq hb hi hinstr (hkept _ h1 h2)
    rcases ho with rfl | ⟨-, huse⟩
    · refine hkeep op hop hw ?_
      rw [Option.some.inj howner, S.posed.num]
    · exact hnotuse huse

theorem knows_after (hb : b < p.routine.numBlocks) (hi : i ∈ (p.routine.span b).toList) (h : s.Knows A (p.value v))
    (hat : S.At v (Point.after i) A) (hkeep : ∀ op ∈ p.routine.operands i, op.writes = true → op.vreg.num ≠ v) :
    (s.after (out.step p.routine (.instr i))).Knows A (p.value v) := by
  refine h.instr (fun r hr => not_clobbered hb hi (hr ▸ hat) hkeep) fun w hw => ?_
  obtain ⟨hop, hwrites, hw⟩ := S.of_mem_written hb hi hw
  have hne := hkeep w.1 hop hwrites
  refine ⟨fun heq => hne ?_, fun heq => hne (hw.value_unique (heq ▸ hat))⟩
  rw [heq, S.posed.num]

theorem Ready.knows_used (hr : p.Regular) (hb : b < p.routine.numBlocks) (hi : i ∈ (p.routine.span b).toList)
    (h : S.Ready b i s) (hop : op ∈ p.routine.operands i) (huse : op.isUse = true)
    (hat : S.At op.vreg.num (Point.after i) A) : (s.after (out.step p.routine (.instr i))).Knows A op.vreg := by
  have hv := live_of_use hi hop huse
  obtain ⟨B, hB⟩ := S.at_before_of_live hb hi hv
  obtain rfl := hB.after_eq hat
  have hknown := knows_after hb hi (h.live _ _ hv hB) hat fun op' hop' hw => (S.num_ne hr.routine.oneClass hb hi hop hop' huse hw).symm
  rwa [S.value_operand hr hb hi hop] at hknown

theorem stepError_eq_none {timing : Timing} {allocs : List Allocation} {operands : List Operand} {clobbers : RegSet}
    (h : ∀ e ∈ operands.zip allocs, e.1.isUse = true → e.1.timing = timing → e.2 ≠ .none ∧ s.Knows e.2 e.1.vreg) :
    Output.stepError timing s (.instr i operands allocs clobbers) = none := by
  refine List.findSome?_eq_none_iff.2 fun x hx => ?_
  obtain ⟨e, he, rfl⟩ := List.mem_map.1 hx
  obtain ⟨he, hcond⟩ := List.mem_filter.1 he
  simp only [Bool.and_eq_true, decide_eq_true_eq] at hcond
  obtain ⟨hne, hknown⟩ := h e he hcond.1 hcond.2
  exact Output.useError_of_knows hne hknown

theorem Located.ne_none (h : S.Located i op A) : A ≠ .none := by
  cases h with
  | copy _ _ _ _ _ _ heq => simp [heq]
  | own hat => exact hat.ne_none

section

variable (hr : p.Regular) (hb : b < p.routine.numBlocks) (hi : i ∈ (p.routine.span b).toList) (h : S.Ready b i s)

include hr hb hi h

theorem Ready.early : Output.stepError .early s (out.step p.routine (.instr i)) = none := by
  refine stepError_eq_none fun e he huse htime => ?_
  have hop := (List.of_mem_zip he).1
  have hloc := (S.located_of_mem hb hi he).1
  refine ⟨hloc.ne_none, ?_⟩
  cases hloc with
  | @copy c hc hinstr _ hvreg _ _ heq =>
      rw [heq, hvreg]
      exact h.copies c hc hinstr
  | own hat =>
      rw [Operand.point_of_use _ huse, if_neg (by simp [htime])] at hat
      have hknown := h.live _ _ (live_of_use hi hop huse) hat
      rwa [S.value_operand hr hb hi hop] at hknown

/-- Late uses find their values after what the instruction overwrites. -/
theorem Ready.late :
    Output.stepError .late (s.after (out.step p.routine (.instr i))) (out.step p.routine (.instr i)) = none := by
  refine stepError_eq_none fun e he huse htime => ?_
  have hop := (List.of_mem_zip he).1
  have hloc := (S.located_of_mem hb hi he).1
  refine ⟨hloc.ne_none, ?_⟩
  cases hloc with
  | @copy c hc hinstr _ hvreg hclob hfree heq =>
      obtain ⟨hlo, hhi, -⟩ := Operand.after_mem_occupied (i := i) fun _ : e.1.isUse = true => htime
      rw [heq, hvreg]
      refine (h.copies c hc hinstr).instr (fun r hreg => ?_) fun w hw => ?_
      · rw [← Allocation.reg.inj hreg]
        exact hclob htime
      · obtain ⟨hwop, hwrites, hwat⟩ := S.of_mem_written hb hi hw
        refine ⟨fun hsame => S.num_ne hr.routine.oneClass hb hi hop hwop huse hwrites ?_, fun hsame => hfree _ hlo hhi _ (hsame ▸ hwat)⟩
        rw [hvreg, hsame]
  | own hat =>
      rw [Operand.point_of_use _ huse, if_pos htime] at hat
      exact h.knows_used hr hb hi hop huse hat

theorem Ready.left : S.Left b i (s.after (out.step p.routine (.instr i))) := by
  intro v A hv hat
  by_cases hwritten : ∃ op ∈ p.routine.operands i, op.writes = true ∧ op.vreg.num = v
  · obtain ⟨op, hop, hw, rfl⟩ := hwritten
    obtain ⟨k, hk⟩ := List.mem_iff_getElem?.1 hop
    obtain ⟨B, hB, hloc, -⟩ := S.exists_located hb hi hk
    obtain rfl := (hloc.written hb hi hop hw).unique hat
    have hmem : (op, B) ∈ written p out i := List.mem_filter.2
      ⟨List.mem_of_getElem? (List.getElem?_zip_eq_some.2 ⟨hk, hB⟩), hw⟩
    rw [S.value_operand hr hb hi hop]
    exact CheckState.knows_instr hmem (S.written_apart hb hi)
  · have hkeep : ∀ op ∈ p.routine.operands i, op.writes = true → op.vreg.num ≠ v := fun op hop hw heq =>
      hwritten ⟨op, hop, hw, heq⟩
    have hlive : (p.liveAt b i).get v = true :=
      (liveAt_iff (Span.mem_toList.1 hi).2).2 (.inr ⟨hkeep, hv⟩)
    obtain ⟨B, hB⟩ := S.at_before_of_live hb hi hlive
    obtain rfl := hB.after_eq hat
    exact knows_after hb hi (h.live _ _ hlive hB) hat hkeep

end

/-! ## From one instruction to the next -/

/-- The steps of instruction `i`, the edits in front of it included. -/
def stepsAt (p : Problem) (out : Output) (i : Nat) : List CheckStep :=
  moveSteps out i ++ [out.step p.routine (.instr i)]

theorem steps_eq (S : Solution p out) (b : Nat) :
    out.steps p.routine b = (p.routine.span b).toList.flatMap (stepsAt p out) := by
  rw [Output.steps, Output.code_eq_program S.editsPlaced, Output.program, List.map_flatMap]
  refine List.flatMap_congr fun i _ => ?_
  simp only [stepsAt, moveSteps, List.map_append, List.map_map, List.map_cons, List.map_nil]
  rfl

theorem afterAll_stepsAt : s.afterAll (stepsAt p out i) =
    (s.afterAll (moveSteps out i)).after (out.step p.routine (.instr i)) := by
  simp only [CheckState.afterAll, stepsAt, List.foldl_append, List.foldl_cons, List.foldl_nil]

theorem useErrors_stepsAt (hearly : Output.stepError .early (s.afterAll (moveSteps out i)) (out.step p.routine (.instr i)) = none)
    (hlate : Output.stepError .late (s.afterAll (stepsAt p out i)) (out.step p.routine (.instr i)) = none) :
    Output.useErrors s (stepsAt p out i) = [] := by
  rw [afterAll_stepsAt] at hlate
  have hmoves : Output.useErrors s (moveSteps out i) = [] := Output.useErrors_edits _
  rw [stepsAt, Output.useErrors_append, hmoves, Output.useErrors, hearly, hlate]
  rfl

theorem Entering.step (hr : p.Regular) (hb : b < p.routine.numBlocks) (hi : i ∈ (p.routine.span b).toList)
    (hstay : ¬ p.HandsOver b i) (h : S.Entering b i s) :
    Output.useErrors s (stepsAt p out i) = [] ∧ S.Left b i (s.afterAll (stepsAt p out i)) := by
  have hready := h.ready hr hb hi hstay
  refine ⟨useErrors_stepsAt (hready.early hr hb hi) ?_, ?_⟩
  · rw [afterAll_stepsAt]
    exact hready.late hr hb hi
  · rw [afterAll_stepsAt]
    exact hready.left hr hb hi

theorem Left.entering (hi : i ∈ (p.routine.span b).toList) (h : S.Left b i s) : S.Entering b (i + 1) s := by
  intro v A hv hcomes
  have hne : i + 1 ≠ p.routine.first b := Nat.ne_of_gt (Nat.lt_succ_of_le (Span.mem_toList.1 hi).1)
  cases hcomes with
  | inside _ hat => exact h v A hv hat
  | start hfirst => exact absurd hfirst hne
  | edge hfirst => exact absurd hfirst hne

/-! ## The end of a block -/

/-- Location `A` is where a value is when it passes the edge from block `b` to block `t`: still where block `b`
has it, if block `t` makes the moves, and where block `t` wants it otherwise. -/
inductive Passes (S : Solution p out) (b t : Nat) (src dst : VirtReg) (A : Allocation) : Prop where
  | held : Assignment.takesInEdge p t = true → S.At src.num (Point.before (p.routine.last b)) A → Passes S b t src dst A
  | moved : Assignment.takesInEdge p t = false → S.At dst.num (Point.before (p.routine.first t)) A → Passes S b t src dst A

/-- Every value that passes the edge from block `b` to block `t` is known where it does. -/
def Offers (S : Solution p out) (b t : Nat) (s : CheckState) : Prop :=
  ∀ src dst A, (src, dst) ∈ Assignment.edgeValues p b t → S.Passes b t src dst A → s.Knows A src

theorem Left.offers (hr : p.Regular) (ht : t ∈ p.routine.succs b) (hin : Assignment.takesInEdge p t = true)
    (h : S.Left b (p.routine.last b) s) : S.Offers b t s := by
  intro src dst A hpair hpasses
  have hs := hr.routine.mirrored.mem_iff.2 ht
  obtain ⟨hlive, C, hbefore, hafter⟩ := S.exists_exit hr hs hpair
  rw [← (S.posed.span_mem (Routine.lt_of_mem_succs ht)).2.2] at hlive
  cases hpasses with
  | held _ hat =>
      obtain rfl := hbefore.unique hat
      have hknown := h _ _ hlive hafter
      rwa [(edgeValues_spec S.posed hr.coherent.routine hpair).1] at hknown
  | moved hout => simp [hin] at hout

theorem Entering.handOver (hr : p.Regular) (ht : t ∈ p.routine.succs b) (hout : Assignment.takesInEdge p t = false)
    (h : S.Entering b (p.routine.last b) s) : Output.useErrors s (stepsAt p out (p.routine.last b)) = [] ∧
      S.Offers b t (s.afterAll (stepsAt p out (p.routine.last b))) := by
  have hs := hr.routine.mirrored.mem_iff.2 ht
  have hb := Routine.lt_of_mem_succs ht
  have hentries := entries_of_not_takesInEdge hs hout
  have hops := (S.posed.only_succ hr.routine.mirrored ht hentries).2
  have hnone {timing : Timing} {s : CheckState} :
      Output.stepError timing s (out.step p.routine (.instr (p.routine.last b))) = none := by
    refine stepError_eq_none fun e he => ?_
    rw [hops] at he
    cases he
  refine ⟨useErrors_stepsAt hnone hnone, fun src dst B hpair hpasses => ?_⟩
  cases hpasses with
  | held hin => simp [hout] at hin
  | moved _ hB =>
      obtain ⟨hlive, C, hC, -⟩ := S.exists_exit hr hs hpair
      rw [← (S.posed.span_mem hb).2.2] at hlive
      have hlast := (S.posed.span_mem hb).2.1
      have hlive' : (p.liveAt b (p.routine.last b)).get src.num = true :=
        (liveAt_iff (Span.mem_toList.1 hlast).2).2 (.inr ⟨by simp [hops], hlive⟩)
      obtain ⟨A, hA⟩ := S.exists_comes hr hb hlast hlive'
      have hknown := h _ _ hlive' hA
      rw [(edgeValues_spec S.posed hr.coherent.routine hpair).1] at hknown
      rw [afterAll_stepsAt]
      refine (knows_moveSteps (hA.arrives_over hr hs hout hpair hB) hknown).instr
        (fun r _ => hr.routine.clobbers b t ht hentries r) fun w hw => ?_
      rw [hops] at hw
      cases hw

theorem Entering.finish (hr : p.Regular) (hb : b < p.routine.numBlocks) (h : S.Entering b (p.routine.last b) s) :
    Output.useErrors s (stepsAt p out (p.routine.last b)) = [] ∧
      ∀ t ∈ p.routine.succs b, S.Offers b t (s.afterAll (stepsAt p out (p.routine.last b))) := by
  by_cases hover : p.HandsOver b (p.routine.last b)
  · obtain ⟨-, t, ht, hout⟩ := hover
    obtain ⟨herrors, hoffers⟩ := h.handOver hr ht hout
    have honly := (S.posed.only_succ hr.routine.mirrored ht
      (entries_of_not_takesInEdge (hr.routine.mirrored.mem_iff.2 ht) hout)).1
    refine ⟨herrors, fun t' ht' => ?_⟩
    rw [honly, List.mem_singleton] at ht'
    rw [ht']
    exact hoffers
  · obtain ⟨herrors, hleft⟩ := h.step hr hb (S.posed.span_mem hb).2.1 hover
    refine ⟨herrors, fun t ht => hleft.offers hr ht ?_⟩
    by_contra hout
    exact hover ⟨rfl, t, ht, Bool.eq_false_iff.2 hout⟩

/-- From any instruction on, the code of a block has no errors in its uses, and offers its values at the end. -/
theorem Entering.run (hr : p.Regular) (hb : b < p.routine.numBlocks) {n : Nat} (hi : p.routine.first b ≤ i)
    (hn : i + n = p.routine.last b) (h : S.Entering b i s) :
    Output.useErrors s ((List.range' i (n + 1)).flatMap (stepsAt p out)) = [] ∧
      ∀ t ∈ p.routine.succs b, S.Offers b t (s.afterAll ((List.range' i (n + 1)).flatMap (stepsAt p out))) := by
  induction n generalizing i s with
  | zero =>
      obtain rfl : i = p.routine.last b := hn
      simpa using h.finish hr hb
  | succ n ih =>
      have hstop := (S.posed.span_mem hb).2.2
      have hmem : i ∈ (p.routine.span b).toList := Span.mem_toList.2 ⟨hi, by omega⟩
      obtain ⟨herrors, hleft⟩ := h.step hr hb hmem fun hover => by
        have := hover.1
        omega
      obtain ⟨hrest, hoffers⟩ := ih (by omega) (by omega) (hleft.entering hmem)
      have hafter : s.afterAll ((List.range' i (n + 1 + 1)).flatMap (stepsAt p out)) =
          (s.afterAll (stepsAt p out i)).afterAll ((List.range' (i + 1) (n + 1)).flatMap (stepsAt p out)) := by
        rw [List.range'_succ, List.flatMap_cons, CheckState.afterAll, List.foldl_append]
        rfl
      refine ⟨?_, fun t ht => ?_⟩
      · rw [List.range'_succ, List.flatMap_cons, Output.useErrors_append, herrors, hrest]
        rfl
      · rw [hafter]
        exact hoffers t ht

/-- The check of a block finds nothing and ends with what the successors want to know. -/
theorem Entering.block (hr : p.Regular) (hb : b < p.routine.numBlocks) (h : S.Entering b (p.routine.first b) s) :
    Output.useErrors s (out.steps p.routine b) = [] ∧
      ∀ t ∈ p.routine.succs b, S.Offers b t (s.afterAll (out.steps p.routine b)) := by
  have hlen : (p.routine.span b).length = (p.routine.last b - p.routine.first b) + 1 := by
    have := S.posed.forward b hb
    simp only [Span.length, Routine.last, Span.last, Routine.first]
    omega
  rw [S.steps_eq, Span.toList, hlen]
  refine h.run hr hb (Nat.le_refl _) ?_
  have := (Span.mem_toList.1 (S.posed.span_mem hb).2.1).1
  simp only [Routine.first]
  omega

end Problem.Solution

end LinearScan
