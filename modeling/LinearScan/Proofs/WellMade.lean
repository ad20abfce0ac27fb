import LinearScan.Proofs.Admissible
import LinearScan.Proofs.Liveness.Paths
import LinearScan.Proofs.Room

/-!
# Checks that break no assertion

A routine as its producer builds it may be refused by the checks before the allocation, but no check finds
anything that it relies on to be wrong.
-/

namespace LinearScan

open Run

namespace Routine

/-- What the producer of a routine keeps to. -/
structure WellMade (f : Routine) : Prop where
  mirrored : f.Mirrored
  oneClass : f.OneClass
  legible : ∀ v ∈ f.occurrences, v.isLegible = true
  roles : ∀ i < f.numInstrs, ∀ op ∈ f.operands i, op.role?.isSome = true
  /-- A block has arguments for each of its successors, if only an empty list. -/
  args : ∀ b < f.numBlocks, ∀ k < (f.succs b).length, f.hasArgs b k = true
  forward : ∀ b < f.numBlocks, (f.span b).first ≤ (f.span b).stop
  instrs : ∀ b < f.numBlocks, (f.span b).stop < Index.unset
  values : f.numValues ≤ VirtReg.maxNum + 1
  sizes : ∀ c, Frame.isPowerOfTwo (f.slotSizes.get c) = true
  /-- There are slot numbers for all values and for two spare slots of each class. -/
  room : ∀ c, (f.numValues + 6) * f.slotSizes.get c ≤ SpillSlot.maxIndex + 1

variable {f : Routine} {b : Nat}

theorem Mirrored.succ_lt (h : f.Mirrored) {s : Nat} (hs : s ∈ f.succs b) : s < f.numBlocks :=
  lt_of_mem_preds (h.mem_iff.2 hs)

theorem Mirrored.pred_lt (h : f.Mirrored) {q : Nat} (hq : q ∈ f.preds b) : q < f.numBlocks :=
  lt_of_mem_succs (h.mem_iff.1 hq)

theorem WellMade.legible_operand (h : f.WellMade) (hb : b < f.numBlocks) {i : Nat} (hi : i ∈ (f.span b).toList)
    {op : Operand} (hop : op ∈ f.operands i) : op.vreg.isLegible = true :=
  h.legible _ (occurs_of_operand hb hi hop)

theorem WellMade.role (h : f.WellMade) {i : Nat} {op : Operand} (hop : op ∈ f.operands i) : op.role?.isSome = true :=
  h.roles i (lt_of_mem_operands hop) op hop

end Routine

/-! ## Why checks stop -/

namespace Except

variable {α β : Type} {S : Stop → Prop} {l : List α} {g : β → α → Except Stop β} {b : β} {x : Except Stop α}

/-- If the check stops, then for a reason that satisfies `S`. -/
def StopsFor (x : Except Stop α) (S : Stop → Prop) : Prop := ∀ s, x = .error s → S s

namespace StopsFor

theorem ok {a : α} : StopsFor (.ok a) S := fun _ h => by cases h

theorem refuse {e : AllocError} (h : S (.refused e)) : StopsFor (Stop.refuse e : Except Stop α) S := fun _ hs => by
  cases hs
  exact h

theorem ite {c : Prop} [Decidable c] {y : Except Stop α} (hx : StopsFor x S) (hy : StopsFor y S) :
    StopsFor (if c then x else y) S := by
  split
  · exact hx
  · exact hy

theorem bind {g : α → Except Stop β} (hx : StopsFor x S) (hg : ∀ a, x = .ok a → StopsFor (g a) S) :
    StopsFor (x >>= g) S := by
  intro s h
  rcases bind_error h with h | ⟨a, ha, h⟩
  · exact hx s h
  · exact hg a ha s h

theorem foldlM_append (hg : ∀ done x rest b', l = done ++ x :: rest → done.foldlM g b = .ok b' → StopsFor (g b' x) S) :
    StopsFor (l.foldlM g b) S := by
  intro s h
  obtain ⟨done, x, rest, b', hl, hdone, h⟩ := foldlM_error h
  exact hg done x rest b' hl hdone s h

theorem foldlM (hg : ∀ b, ∀ x ∈ l, StopsFor (g b x) S) : StopsFor (l.foldlM g b) S :=
  foldlM_append fun _ x _ b' hl _ => hg b' x (by simp [hl])

theorem forM {g : α → Except Stop Unit} (hg : ∀ x ∈ l, StopsFor (g x) S) : StopsFor (l.forM g) S := by
  intro s h
  obtain ⟨x, hx, h⟩ := forM_error h
  exact hg x hx s h

theorem forIn {g : α → Unit → Except Stop (ForInStep Unit)} (hg : ∀ x ∈ l, StopsFor (g x ()) S) :
    StopsFor (ForIn.forIn l () g) S := by
  intro s h
  obtain ⟨x, hx, h⟩ := forIn_error h
  exact hg x hx s h

end StopsFor

end Except

/-- What the checks before the allocation find. -/
def AllocError.OfChecks : AllocError → Prop
  | .badBlock _ | .badBranch _ | .criticalEdge .. | .branchOperands _ | .notSingleAssignment .. | .liveAtEntry => True
  | _ => False

namespace Routine

variable {f : Routine} {b i : Nat} {defs : Definitions} {op : Operand} {owner : Array (Option Nat)} {e : AllocError}

/-- A check of the routine stops with what it has found, or because the routine is not well made. -/
def Stopped (f : Routine) : Stop → Prop
  | .refused e => e.OfChecks
  | .fault _ => ¬ (f.WellMade ∧ f.entry < f.numBlocks)

theorem demand_stops {ok : Bool} {e : Fault} (h : f.WellMade → ok = true) :
    Except.StopsFor (Stop.demand ok e) f.Stopped := by
  intro s hs
  obtain ⟨hno, rfl⟩ := Stop.demand_error hs
  rintro ⟨hf, -⟩
  cases hno.symm.trans (h hf)

/-! ## Control flow -/

theorem missingBlock_refuses {α : Type} (h : (missingBlock b : Except Stop α) = .error (.refused e)) :
    e.OfChecks := by
  rcases Except.bind_error h with h | ⟨_, -, h⟩
  · cases (Stop.demand_error h).2
  · cases h
    trivial

theorem walk_refuses {seen : Array Bool} {stack : List (Nat × List Nat)} {left : Array Nat}
    (h : f.walk seen stack left = .error (.refused e)) : e.OfChecks := by
  fun_induction walk f seen stack left with
  | case1 => cases h
  | case2 _ _ _ _ ih => exact ih h
  | case3 => exact missingBlock_refuses h
  | case4 _ _ _ _ _ _ _ ih => exact ih h
  | case5 _ _ _ _ _ _ _ ih => exact ih h

theorem postorder_stops : Except.StopsFor f.postorder f.Stopped := by
  intro s h
  cases s with
  | refused e =>
      unfold postorder at h
      split at h
      · exact walk_refuses h
      · exact missingBlock_refuses h
  | fault e =>
      rintro ⟨hf, hentry⟩
      obtain ⟨order, horder⟩ := exists_postorder (fun b s hs => hf.mirrored.succ_lt hs) hentry
      cases horder.symm.trans h

theorem claim_stops {n : Nat} : Except.StopsFor (f.claim b i n owner) f.Stopped := by
  fun_induction claim f b i n owner with
  | case1 => exact .ok
  | case2 _ _ _ _ _ ih => exact ih
  | case3 => exact .refuse trivial
  | case4 => exact .refuse trivial

theorem checkArgs_stops (hb : b < f.numBlocks) : Except.StopsFor (f.checkArgs b) f.Stopped := by
  refine .forM fun x hx => (demand_stops fun hf => hf.args b hb x.2 ?_).bind fun _ _ => .ite (.refuse trivial) .ok
  exact (List.getElem?_eq_some_iff.1 (List.mem_zipIdx_iff_getElem?.1 hx)).1

theorem checkEntries_stops : Except.StopsFor (f.checkEntries b) f.Stopped := by
  refine .ite (.forM fun q hq => (demand_stops fun hf => ?_).bind fun _ _ => .ite (.refuse trivial) .ok) .ok
  simpa [hasBlock] using hf.mirrored.pred_lt hq

theorem checkBranch_stops (hlast : f.WellMade → f.last b < f.numInstrs) :
    Except.StopsFor (f.checkBranch b) f.Stopped := by
  refine .ite ((demand_stops fun hf => ?_).bind fun _ _ => .ite (.refuse trivial) .ok) .ok
  simpa [hasInstr] using hlast hf

theorem checkBlock_stops (hb : b < f.numBlocks) (hsize : owner.size = f.numInstrs) :
    Except.StopsFor (f.checkBlock owner b) f.Stopped := by
  unfold checkBlock
  split
  · exact (Except.StopsFor.refuse trivial).bind fun _ h => by cases h
  rename_i hempty
  have hne : (f.span b).first ≠ (f.span b).stop := by simpa [Span.isEmpty] using hempty
  refine (demand_stops fun hf => ?_).bind fun _ _ => claim_stops.bind fun _ hclaim => (checkArgs_stops hb).bind fun _ _ =>
    checkEntries_stops.bind fun _ _ => (checkBranch_stops fun hf => ?_).bind fun _ _ => .ok
  · have hforward := hf.forward b hb
    have hstop := hf.instrs b hb
    simp only [Index.isSet, Span.hasLast, first, Bool.and_eq_true, bne_iff_ne, ne_eq]
    exact ⟨by omega, ⟨by simpa using hempty, by omega⟩, by omega⟩
  · -- the last instruction has been claimed, and so it is there
    have hforward := hf.forward b hb
    have hfree := ((claim_spec hclaim).2.1 (f.last b) (by simp only [first, last, Span.last]; omega)
      (by simp only [first, last, Span.last, Span.length]; omega)).1
    exact hsize ▸ (Array.getElem?_eq_some_iff.1 hfree).1

theorem controlFlow_stops : Except.StopsFor f.controlFlow f.Stopped := by
  refine postorder_stops.bind fun order _ => ?_
  dsimp only
  split
  · exact (Except.StopsFor.refuse trivial).bind fun _ h => by cases h
  refine (Except.StopsFor.foldlM_append fun done b rest owner hl hdone => ?_).bind fun owner _ => ?_
  · have hb : b ∈ List.range f.numBlocks := by simp [hl]
    exact checkBlock_stops (List.mem_range.1 hb) (claimed_of_checkBlocks hdone).size
  · split
    · exact (Except.StopsFor.refuse trivial).bind fun _ h => by cases h
    · exact .ok

/-! ## Single assignment -/

theorem define_stops {i : Option Nat} {v : VirtReg} : Except.StopsFor (define b i defs v) f.Stopped := by
  unfold define
  split
  · exact .ok
  · exact .refuse trivial

theorem defineBlock_stops (hb : b < f.numBlocks) : Except.StopsFor (f.defineBlock defs b) f.Stopped := by
  refine (Except.StopsFor.foldlM fun _ _ _ => define_stops).bind fun _ _ => .foldlM fun _ i hi => .foldlM fun _ op hop => ?_
  refine (demand_stops fun hf => hf.role hop).bind fun _ _ => ?_
  split
  · exact .ok
  · exact (demand_stops fun hf => hf.legible_operand hb hi hop).bind fun _ _ => define_stops

theorem checkUses_stops (hb : b < f.numBlocks) : Except.StopsFor (f.checkUses defs b) f.Stopped := by
  refine (Except.StopsFor.forIn fun i hi => (Except.StopsFor.forIn fun op hop => ?_).bind fun _ _ => .ok).bind fun _ _ =>
    (Except.StopsFor.forIn fun v _ => Except.StopsFor.bind (.ite .ok (.refuse trivial)) fun _ _ => .ok).bind fun _ _ => .ok
  refine (demand_stops fun hf => hf.legible_operand hb hi (List.mem_filter.1 hop).1).bind fun _ _ =>
    Except.StopsFor.bind ?_ fun _ _ => .ok
  unfold checkUse
  split
  · exact .ite .ok (.refuse trivial)
  · exact .refuse trivial

theorem checkSingleAssignment_stops : Except.StopsFor f.checkSingleAssignment f.Stopped := by
  refine Except.StopsFor.bind ((demand_stops fun hf => ?_).bind fun _ _ => .foldlM fun _ b hb =>
    defineBlock_stops (List.mem_range.1 hb)) fun defs _ => ?_
  · exact decide_eq_true (Nat.le_trans hf.values (by decide))
  · exact (Except.StopsFor.forIn fun b hb => (checkUses_stops (List.mem_range.1 hb)).bind fun _ _ => .ok).bind fun _ _ => .ok

/-! ## Values -/

theorem tableDefine_stops {i : Option Nat} {t : ValueTable} {v : VirtReg} :
    Except.StopsFor (t.define i v) f.Stopped := by
  unfold ValueTable.define
  split
  · exact .ok
  · exact .refuse trivial

theorem addOperand_stops (hb : b < f.numBlocks) (hi : i ∈ (f.span b).toList)
    (hop : op ∈ f.operands i) {t : ValueTable} : Except.StopsFor (t.addOperand i op) f.Stopped := by
  refine (demand_stops fun hf => hf.legible_operand hb hi hop).bind fun _ _ => ?_
  dsimp only
  split
  · exact (Except.StopsFor.refuse trivial).bind fun _ h => by cases h
  · refine (demand_stops fun hf => hf.role hop).bind fun _ _ => ?_
    split
    · exact tableDefine_stops.bind fun _ _ => .ok
    · exact .ok

theorem values_stops : Except.StopsFor f.values f.Stopped := by
  refine (demand_stops fun hf => decide_eq_true hf.values).bind fun _ _ =>
    (Except.StopsFor.foldlM fun _ b hb => ?_).bind fun _ _ => .ok
  refine (Except.StopsFor.foldlM fun _ _ _ => tableDefine_stops.bind fun _ _ => .ok).bind fun _ _ =>
    (Except.StopsFor.foldlM fun _ i hi => .foldlM fun _ op hop => ?_).bind fun _ _ => ?_
  · exact addOperand_stops (List.mem_range.1 hb) hi hop
  · split
    · exact .refuse trivial
    · exact .ok

/-! ## The whole analysis -/

end Routine

/-- A number that is never mentioned stands for a value of the first class. -/
theorem Problem.value_cases {p : Problem} (hvalued : p.routine.Valued p.values) (v : Nat) :
    p.value v = ⟨v, some .int⟩ ∨ p.value v ∈ p.routine.occurrences := by
  simp only [Problem.value, Array.getD_eq_getD_getElem?]
  cases hv : p.values[v]? with
  | none => exact .inl rfl
  | some w =>
      refine (hvalued.origin v w hv).imp_right ?_
      rintro ⟨b, hb, m, hm, rfl⟩
      exact Routine.mem_occurrences.2 ⟨b, hb, .inl ⟨m, hm, rfl⟩⟩

theorem Problem.value_legible {p : Problem} (hlegible : ∀ v ∈ p.routine.occurrences, v.isLegible = true)
    (hvalued : p.routine.Valued p.values) (v : Nat) : (p.value v).isLegible = true := by
  rcases value_cases hvalued v with hv | hv
  · rw [hv]
    rfl
  · exact hlegible _ hv

namespace Routine

variable {f : Routine}

theorem WellMade.safe_liveness (h : f.WellMade) {c : ControlFlow} {vs : Array VirtReg} (hf : Flows f c)
    (hvs : f.Valued vs) : Safe (f.liveness c) fun _ => True := by
  have hpreds : ∀ b, ∀ q ∈ f.preds b, q < f.numBlocks := fun _ _ => h.mirrored.pred_lt
  obtain ⟨s, hs⟩ := exists_searchLive hf hvs hpreds
  refine ⟨fun e hstop => ?_, fun _ _ => trivial⟩
  cases (eq_of_stops_liveness hpreds hs hstop).1

theorem WellMade.safe_problem (h : f.WellMade) {m : Machine} {ts : Traces} {o : Options} (hentry : f.entry < f.numBlocks) :
    Safe (f.problem m ts o) fun p => ∀ v, (p.value v).isLegible = true := by
  refine (Safe.check fun e he => controlFlow_stops _ he ⟨h, hentry⟩).bind fun c _ hc => ?_
  have hflows := flows_of_controlFlow hc
  have hvalues : Safe (Run.check f.values >>= fun values => f.liveness c >>= fun live => pure (
      { routine := f, machine := m, traces := ts, flow := c, values, live, stackToStack := o.stackToStack } : Problem))
      fun p => ∀ v, (p.value v).isLegible = true := by
    refine (Safe.check fun e he => values_stops _ he ⟨h, hentry⟩).bind fun vs _ hvs => ?_
    have hvalued := valued_of_values hvs
    exact (h.safe_liveness hflows hvalued).bind fun live _ _ => Safe.pure (Problem.value_legible h.legible hvalued)
  dsimp only
  split
  · exact (Safe.check fun e he => checkSingleAssignment_stops _ he ⟨h, hentry⟩).bind fun _ _ _ => hvalues
  · exact hvalues

end Routine

end LinearScan
