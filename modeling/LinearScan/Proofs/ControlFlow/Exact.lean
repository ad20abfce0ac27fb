import LinearScan.Proofs.ControlFlow.Postorder
import LinearScan.Proofs.Safe

/-!
# Exactly which routines the control-flow check accepts

A routine is accepted if all its blocks can be reached, if they divide the instructions between them, and if each of
them is in order. The check goes from block to block and gives each its instructions, so what the blocks before have
been given (`Claimed`) is what the next one is checked against.
-/

namespace LinearScan

theorem Except.forM_eq_ok {ε α : Type} {l : List α} {g : α → Except ε Unit} (h : ∀ x ∈ l, g x = .ok ()) : l.forM g = .ok () := by
  induction l with
  | nil => rfl
  | cons x l ih =>
      obtain ⟨hx, hl⟩ := List.forall_mem_cons.1 h
      change (g x >>= fun _ => l.forM g) = .ok ()
      rw [hx]
      exact ih hl

namespace Routine

variable {f : Routine} {c : ControlFlow} {b : Nat}

theorem exists_postorder (hsuccs : ∀ b, ∀ s ∈ f.succs b, s < f.numBlocks) (hentry : f.entry < f.numBlocks) :
    ∃ order, f.postorder = .ok order := by
  refine (postorder_cases hentry).resolve_right ?_
  rintro ⟨b, s, -, hs, hge, -⟩
  exact Nat.not_le.2 (hsuccs b s hs) hge

/-- What the control-flow check asks of a routine: all blocks can be reached, they divide the instructions between
them, and each of them is in order. A span that runs backwards has no instructions, but it has ends. -/
structure WellFormed (f : Routine) : Prop where
  entry : f.entry < f.numBlocks
  succs : ∀ b, ∀ s ∈ f.succs b, s < f.numBlocks
  reached : ∀ b < f.numBlocks, Reachable f b
  bounds : ∀ b < f.numBlocks, Index.isSet (f.first b) = true ∧ (f.span b).hasLast = true
  inside : ∀ b < f.numBlocks, ∀ i ∈ (f.span b).toList, i < f.numInstrs
  owned : ∀ i < f.numInstrs, ∃! b, b < f.numBlocks ∧ i ∈ (f.span b).toList
  block : ∀ b < f.numBlocks, BlockOk f b
  hasArgs : ∀ b < f.numBlocks, ∀ k < (f.succs b).length, f.hasArgs b k = true
  hasBranch : ∀ b < f.numBlocks, f.feedsMerge b = true → f.last b < f.numInstrs

/-! ## What is accepted is well formed -/

theorem wellFormed_of_controlFlow (h : f.controlFlow = .ok c) : f.WellFormed := by
  have hflows := flows_of_controlFlow h
  refine ⟨hflows.entry_lt, fun b s hs => ?_, fun b hb => hflows.reachable hb, fun b hb => ?_, hflows.inRange,
    fun i hi => ?_, hflows.block, fun b _ k hk => hasArgs_of_controlFlow h hk, fun b hb hm => ?_⟩
  · exact succ_lt_of_postorder hflows.postorder (hflows.mem_postorder (lt_of_mem_succs hs)) hs
  · obtain ⟨owner, owner', hchecked⟩ := exists_checked h hb
    exact ⟨hchecked.first, hchecked.last⟩
  · obtain ⟨b, hb, hmem⟩ := hflows.owner i hi
    refine ⟨b, ⟨hb, hmem⟩, fun b' hb' => ?_⟩
    exact Option.some.inj ((hflows.owned b' hb'.1 i hb'.2).symm.trans (hflows.owned b hb i hmem))
  · obtain ⟨owner, owner', hchecked⟩ := exists_checked h hb
    exact hasInstr_of_checkBranch hchecked.branch hm

/-! ## What is well formed is accepted -/

theorem exists_claim {i n : Nat} {owner : Array (Option Nat)}
    (h : ∀ j, i ≤ j → j < i + n → owner[j]? = some none ∧ f.isTerminator j = (j == f.last b)) :
    ∃ owner', f.claim b i n owner = .ok owner' := by
  induction n generalizing i owner with
  | zero => exact ⟨owner, rfl⟩
  | succ n ih =>
      obtain ⟨hfree, hend⟩ := h i (Nat.le_refl _) (by omega)
      have hrest : ∃ owner', f.claim b (i + 1) n (owner.setIfInBounds i (some b)) = .ok owner' := by
        refine ih fun j hlo hhi => ?_
        have hne : i ≠ j := by omega
        obtain ⟨hj, hj'⟩ := h j (by omega) (by omega)
        exact ⟨by rw [Array.getElem?_setIfInBounds, if_neg hne, hj], hj'⟩
      rw [claim, hfree]
      simpa only [hend, if_true] using hrest

namespace WellFormed

variable (h : f.WellFormed)

include h

theorem apart {b' i : Nat} (hb : b < f.numBlocks) (hb' : b' < f.numBlocks) (hi : i ∈ (f.span b).toList)
    (hi' : i ∈ (f.span b').toList) : b = b' :=
  (h.owned i (h.inside b hb i hi)).unique ⟨hb, hi⟩ ⟨hb', hi'⟩

theorem checkArgs_eq (hb : b < f.numBlocks) : f.checkArgs b = .ok () := by
  refine Except.forM_eq_ok fun x hx => ?_
  obtain ⟨s, k⟩ := x
  have hk := List.mem_zipIdx_iff_getElem?.1 hx
  have hlt := (List.getElem?_eq_some_iff.1 hk).1
  simp [Stop.demand, h.hasArgs b hb k hlt, (h.block b hb).args k s hk]

theorem checkEntries_eq (hpreds : ∀ q ∈ f.preds b, q < f.numBlocks) (hb : b < f.numBlocks) : f.checkEntries b = .ok () := by
  unfold checkEntries
  split
  · rename_i hmerge
    refine Except.forM_eq_ok fun q hq => ?_
    have hblock : f.hasBlock q = true := by simpa [hasBlock] using hpreds q hq
    simp [Stop.demand, hblock, Nat.not_lt.2 ((h.block b hb).entries hmerge q hq)]
  · rfl

theorem checkBranch_eq (hb : b < f.numBlocks) : f.checkBranch b = .ok () := by
  unfold checkBranch
  split
  · rename_i hmerge
    have hinstr : f.hasInstr (f.last b) = true := by simpa [hasInstr] using h.hasBranch b hb hmerge
    simp [Stop.demand, hinstr, (h.block b hb).branch hmerge]
  · rfl

theorem exists_claimed {done : List Nat} {owner : Array (Option Nat)} (hdone : ∀ a ∈ done, a < f.numBlocks)
    (hclaimed : Claimed f done owner) (hb : b < f.numBlocks) (hnew : b ∉ done) :
    ∃ owner', f.claim b (f.first b) (f.span b).length owner = .ok owner' := by
  refine exists_claim fun j hlo hhi => ?_
  have hj : j ∈ (f.span b).toList := List.mem_range'_1.2 ⟨hlo, hhi⟩
  have hlt : j < owner.size := hclaimed.size ▸ h.inside b hb j hj
  refine ⟨?_, (h.block b hb).terminator j hj⟩
  obtain ⟨o, ho⟩ : ∃ o, owner[j]? = some o := ⟨_, Array.getElem?_eq_getElem hlt⟩
  cases o with
  | none => exact ho
  | some a =>
      obtain ⟨ha, hja⟩ := hclaimed.owner j a ho
      exact absurd (h.apart hb (hdone a ha) hj hja ▸ ha) hnew

theorem exists_checkBlock {done : List Nat} {owner : Array (Option Nat)} (hpreds : ∀ q ∈ f.preds b, q < f.numBlocks)
    (hdone : ∀ a ∈ done, a < f.numBlocks) (hclaimed : Claimed f done owner) (hb : b < f.numBlocks) (hnew : b ∉ done) :
    ∃ owner', f.checkBlock owner b = .ok owner' := by
  obtain ⟨owner', hclaim⟩ := h.exists_claimed hdone hclaimed hb hnew
  have hempty : (f.span b).isEmpty = false := by simpa [Span.isEmpty] using (h.block b hb).nonempty
  have hspan : (Index.isSet (f.first b) && (f.span b).hasLast) = true := Bool.and_eq_true_iff.2 (h.bounds b hb)
  refine ⟨owner', ?_⟩
  rw [checkBlock, hempty, hspan, hclaim, h.checkArgs_eq hb, h.checkEntries_eq hpreds hb, h.checkBranch_eq hb]
  rfl

theorem length_postorder {order : List Nat} (horder : f.postorder = .ok order) : order.length = f.numBlocks := by
  obtain ⟨hnodup, hlt⟩ := postorder_spec horder
  have hperm : order.Perm (List.range f.numBlocks) := by
    refine (List.perm_ext_iff_of_nodup hnodup List.nodup_range).2 fun b => ?_
    rw [List.mem_range]
    exact ⟨fun hb => (hlt b hb).1, fun hb => mem_postorder_of_reachable horder (h.reached b hb)⟩
  simpa using hperm.length_eq

theorem exists_checkBlocks (hpreds : ∀ b < f.numBlocks, ∀ q ∈ f.preds b, q < f.numBlocks) :
    ∃ owner, (List.range f.numBlocks).foldlM f.checkBlock (Array.replicate f.numInstrs none) = .ok owner ∧
      Claimed f (List.range f.numBlocks) owner := by
  refine Except.exists_foldlM (I := Claimed f) claimed_nil fun done b rest owner hl hclaimed => ?_
  have hb : b < f.numBlocks := List.mem_range.1 (hl ▸ by simp)
  have hnew : b ∉ done := fun hmem => by
    have hnodup := hl ▸ List.nodup_range (n := f.numBlocks)
    exact (List.nodup_append.1 hnodup).2.2 b hmem b List.mem_cons_self rfl
  obtain ⟨owner', howner'⟩ :=
    h.exists_checkBlock (hpreds b hb) (fun a ha => List.mem_range.1 (hl ▸ by simp [ha])) hclaimed hb hnew
  exact ⟨owner', howner', hclaimed.checkBlock howner'⟩

theorem exists_controlFlow (hpreds : ∀ b < f.numBlocks, ∀ q ∈ f.preds b, q < f.numBlocks) : ∃ c, f.controlFlow = .ok c := by
  obtain ⟨order, horder⟩ := exists_postorder h.succs h.entry
  obtain ⟨owner, howner, hclaimed⟩ := h.exists_checkBlocks hpreds
  have hall : owner.any Option.isNone = false := by
    refine Bool.eq_false_iff.2 fun hany => ?_
    obtain ⟨i, hi, hnone⟩ := Array.any_eq_true.1 hany
    obtain ⟨b, ⟨hb, hmem⟩, -⟩ := h.owned i (hclaimed.size ▸ hi)
    have howned := hclaimed.owned b (List.mem_range.2 hb) i hmem
    rw [Array.getElem?_eq_getElem hi] at howned
    rw [Option.some.inj howned] at hnone
    cases hnone
  unfold controlFlow
  simp only [horder, h.length_postorder horder, howner, hall, bind, Except.bind, ne_eq, not_true_eq_false, if_false,
    Bool.false_eq_true]
  exact ⟨_, rfl⟩

end WellFormed

/-- The check accepts exactly the well-formed routines, and lays out the block of each instruction and the points at
which each block begins and ends. -/
theorem controlFlow_exact (hpreds : ∀ b < f.numBlocks, ∀ q ∈ f.preds b, q < f.numBlocks) :
    ((∃ c, f.controlFlow = .ok c) ↔ f.WellFormed) ∧
    ∀ c, f.controlFlow = .ok c →
      (∀ b < f.numBlocks, ∀ i ∈ (f.span b).toList, c.blockOfInstr[i]? = some b) ∧
      ∀ b < f.numBlocks, c.entryPoint[b]? = some (Point.before (f.first b)) ∧
        c.exitPoint[b]? = some (Point.after (f.last b)) := by
  refine ⟨⟨?_, fun h => h.exists_controlFlow hpreds⟩, fun c hc => ?_⟩
  · rintro ⟨c, hc⟩
    exact wellFormed_of_controlFlow hc
  obtain ⟨owner, hlaid⟩ := exists_laidOut hc
  refine ⟨(flows_of_controlFlow hc).owned, fun b hb => ⟨?_, ?_⟩⟩
  · simp [hlaid.entryPoint, hb]
  · simp [hlaid.exitPoint, hb]

/-- A loop that passes a value along on both ways into its header. -/
def loopWithArgs : Routine :=
  let jump (succs : List Nat) (args : List (List VirtReg)) : BlockSpec :=
    { instrs := [⟨.op, [], .empty, []⟩, ⟨.branch, [], .empty, args⟩], succs, params := [] }
  .assemble [jump [1] [[⟨0, some .int⟩]], { jump [2, 3] [[], []] with params := [⟨1, some .int⟩] },
    jump [1] [[⟨1, some .int⟩]], { instrs := [⟨.ret, [], .empty, []⟩], succs := [], params := [] }]

theorem controlFlow_exact_loopWithArgs :
    (∀ b < loopWithArgs.numBlocks, ∀ q ∈ loopWithArgs.preds b, q < loopWithArgs.numBlocks) ∧ loopWithArgs.WellFormed ∧
      ∃ c, loopWithArgs.controlFlow = .ok c ∧ c.blockOfInstr[4]? = some 2 ∧ c.entryPoint[2]? = some (Point.before 4) ∧
        c.exitPoint[2]? = some (Point.after 5) := by
  have hpreds : ∀ b < loopWithArgs.numBlocks, ∀ q ∈ loopWithArgs.preds b, q < loopWithArgs.numBlocks := by decide
  have hwalk : loopWithArgs.postorder = .ok [2, 3, 1, 0] := by cbv
  have hc : loopWithArgs.controlFlow =
      .ok ⟨[2, 3, 1, 0], #[0, 0, 1, 1, 2, 2, 3], #[0, 4, 8, 12], #[3, 7, 11, 13], #[0, 1, 1, 0]⟩ := by
    rw [controlFlow, hwalk]
    with_unfolding_all rfl
  obtain ⟨hiff, hlaid⟩ := controlFlow_exact hpreds
  obtain ⟨howned, hpoints⟩ := hlaid _ hc
  obtain ⟨hfirst, hlast⟩ := hpoints 2 (by decide)
  exact ⟨hpreds, hiff.1 ⟨_, hc⟩, _, hc, howned 2 (by decide) 4 (by decide), hfirst, hlast⟩

/-- The last block leads nowhere, and is said to come before itself. -/
def strayPred : Routine :=
  .assemble [{ instrs := [⟨.branch, [], .empty, []⟩], succs := [1], params := [] },
    { instrs := [⟨.ret, [], .empty, []⟩], succs := [], params := [], preds? := some [0, 1] }]

/-- A predecessor of a block with several entries may have no successor at all. -/
theorem strayPred_accepted :
    (∀ b < strayPred.numBlocks, ∀ q ∈ strayPred.preds b, q < strayPred.numBlocks) ∧ (∃ c, strayPred.controlFlow = .ok c) ∧
      1 < strayPred.entries 1 ∧ 1 ∈ strayPred.preds 1 ∧ strayPred.succs 1 = [] := by
  have hwalk : strayPred.postorder = .ok [1, 0] := by cbv
  have hc : strayPred.controlFlow = .ok ⟨[1, 0], #[0, 1], #[0, 2], #[1, 3], #[0, 0]⟩ := by
    rw [controlFlow, hwalk]
    with_unfolding_all rfl
  exact ⟨by decide, ⟨_, hc⟩, by decide, by decide, by decide⟩

end Routine

end LinearScan
