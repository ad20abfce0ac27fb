import LinearScan.Liveness
import LinearScan.Proofs.ControlFlow
import LinearScan.Proofs.IndexSet
import LinearScan.Proofs.Values

/-!
# Liveness solves its equations

The analysis ends with sets that satisfy the equations of liveness at every block. Outside of the queue
they hold all the time.
-/

namespace LinearScan

open Run

namespace Routine

variable {f : Routine} {b i v : Nat} {vs : Array VirtReg} {live live' : IndexSet} {s s' : LiveSearch}

/-- Sets that satisfy the equations of liveness. Nothing is live into the entry. -/
structure Settled (f : Routine) (l : Liveness) : Prop where
  into : ∀ b < f.numBlocks, ∀ v, (l.into b).get v = (f.liveAtStart b (l.outOf b)).get v
  outOf : ∀ b < f.numBlocks, ∀ q ∈ f.preds b, ∀ v, (l.into b).get v = true → (l.outOf q).get v = true
  entry : ∀ v, (l.into f.entry).get v = false
  bounded : ∀ b v, (l.outOf b).get v = true → v < f.numValues

/-! ## Equal members give equal members -/

theorem liveBefore_congr (h : ∀ v, live.get v = live'.get v) (v : Nat) :
    (f.liveBefore i live).get v = (f.liveBefore i live').get v := by
  simp only [liveBefore, IndexSet.get_insertMany, IndexSet.get_eraseMany, h]

theorem foldr_liveBefore_congr (h : ∀ v, live.get v = live'.get v) (is : List Nat) (v : Nat) :
    (is.foldr f.liveBefore live).get v = (is.foldr f.liveBefore live').get v := by
  induction is generalizing v with
  | nil => exact h v
  | cons i is ih => exact liveBefore_congr ih v

theorem liveAtStart_congr (h : ∀ v, live.get v = live'.get v) (v : Nat) :
    (f.liveAtStart b live).get v = (f.liveAtStart b live').get v := by
  have hend : ∀ v, (f.liveAtEnd b live).get v = (f.liveAtEnd b live').get v := fun v => by
    simp only [liveAtEnd, IndexSet.get_insertMany, h]
  simp only [liveAtStart, IndexSet.get_eraseMany, foldr_liveBefore_congr hend]

/-! ## Only values are live -/

theorem Valued.operand_lt {op : Operand} (h : f.Valued vs) (hb : b < f.numBlocks)
    (hi : i ∈ (f.span b).toList) (hop : op ∈ f.operands i) : op.vreg.num < f.numValues := by
  refine h.mention b hb (op.vreg, op.writes) (List.mem_append_right _ (List.mem_flatMap.2 ⟨i, hi, ?_⟩))
  exact List.mem_map.2 ⟨op, hop, rfl⟩

theorem foldr_liveBefore_bounded {is : List Nat} {n : Nat}
    (his : ∀ i ∈ is, ∀ op ∈ f.operands i, op.vreg.num < n) (h : ∀ v, live.get v = true → v < n)
    (hv : (is.foldr f.liveBefore live).get v = true) : v < n := by
  induction is generalizing v with
  | nil => exact h v hv
  | cons i is ih =>
      simp only [List.foldr_cons, liveBefore, IndexSet.get_insertMany, IndexSet.get_eraseMany, Bool.or_eq_true,
        decide_eq_true_eq, Bool.and_eq_true] at hv
      rcases hv with hv | ⟨-, hv⟩
      · obtain ⟨op, hop, rfl⟩ := List.mem_map.1 hv
        exact his i List.mem_cons_self op (List.mem_filter.1 hop).1
      · exact ih (fun j hj => his j (List.mem_cons_of_mem _ hj)) hv

theorem Valued.liveAtEnd_bounded (h : f.Valued vs) (hl : ∀ v, live.get v = true → v < f.numValues)
    (hv : (f.liveAtEnd b live).get v = true) : v < f.numValues := by
  simp only [liveAtEnd, IndexSet.get_insertMany, Bool.or_eq_true, decide_eq_true_eq] at hv
  rcases hv with hv | hv
  · obtain ⟨a, ha, rfl⟩ := List.mem_map.1 hv
    refine h.arg b (Nat.lt_of_not_le fun hge => ?_) a ha
    simp [allBranchArgs, succs_of_ge hge] at ha
  · exact hl v hv

theorem Valued.liveAtStart_bounded (h : f.Valued vs)
    (hl : ∀ v, live.get v = true → v < f.numValues) (hv : (f.liveAtStart b live).get v = true) :
    v < f.numValues := by
  simp only [liveAtStart, IndexSet.get_eraseMany, Bool.and_eq_true] at hv
  refine foldr_liveBefore_bounded (fun i hi op hop => ?_) (fun w => h.liveAtEnd_bounded hl) hv.2
  refine h.operand_lt (Nat.lt_of_not_le fun hge => ?_) hi hop
  rw [span, block_of_ge hge] at hi
  change i ∈ [] at hi
  cases hi

/-! ## A visit -/

/-- What telling blocks that `live` is needed does to the search. -/
structure Told (live : IndexSet) (ps : List Nat) (s s' : LiveSearch) : Prop where
  liveIn : s'.known.liveIn = s.known.liveIn
  size : s'.known.liveOut.size = s.known.liveOut.size
  queue : ∀ q ∈ s.queue, q ∈ s'.queue
  grows : ∀ q v, (s.known.outOf q).get v = true → (s'.known.outOf q).get v = true
  told : ∀ q ∈ ps, ∀ v, live.get v = true → (s'.known.outOf q).get v = true
  same : ∀ q, q ∉ s'.queue → ∀ v, (s'.known.outOf q).get v = (s.known.outOf q).get v
  only : ∀ q v, (s'.known.outOf q).get v = true → (s.known.outOf q).get v = true ∨ q ∈ ps ∧ live.get v = true

theorem Told.single {q : Nat} (hq : q < s.known.liveOut.size) : Told live [q] s (tellPred live s q) := by
  have hout : ∀ x, (tellPred live s q).known.outOf x =
      if q = x then (s.known.outOf q).union live else s.known.outOf x := by
    intro x
    simp only [tellPred, Liveness.outOf, Array.getD_eq_getD_getElem?, Array.getElem?_setIfInBounds]
    by_cases hx : q = x
    · simp [hx, hx ▸ hq]
    · simp [hx]
  have hmem : ∀ x ∈ s.queue, x ∈ (tellPred live s q).queue := by
    intro x hx
    simp only [tellPred]
    split
    · exact List.mem_append_left _ hx
    · exact hx
  refine ⟨rfl, by simp [tellPred], hmem, fun x v hv => ?_, fun x hx v hv => ?_, fun x hx v => ?_, fun x v hv => ?_⟩
  · rw [hout]
    split
    · rename_i hqx
      rw [IndexSet.get_union, hqx, hv, Bool.true_or]
    · exact hv
  · rw [List.mem_singleton.1 hx, hout, if_pos rfl, IndexSet.get_union, hv, Bool.or_true]
  · rw [hout]
    split
    · rename_i hqx
      subst hqx
      have hgain : (s.known.outOf q).gains live = false := by
        by_contra hg
        rw [Bool.not_eq_false] at hg
        refine hx ?_
        simp only [tellPred, hg, Bool.true_and]
        split
        · simp
        · rename_i hc
          simpa using hc
      rw [IndexSet.get_union]
      cases hl : live.get v with
      | false => rw [Bool.or_false]
      | true => rw [Bool.or_true, IndexSet.get_of_not_gains hgain hl]
    · rfl
  · rw [hout] at hv
    split at hv
    · rename_i hqx
      rw [IndexSet.get_union, Bool.or_eq_true] at hv
      subst hqx
      exact hv.imp_right fun hl => ⟨List.mem_singleton_self q, hl⟩
    · exact .inl hv

theorem told_foldl {ps : List Nat} (hps : ∀ q ∈ ps, q < s.known.liveOut.size) :
    Told live ps s (ps.foldl (tellPred live) s) := by
  induction ps generalizing s with
  | nil => exact ⟨rfl, rfl, fun _ h => h, fun _ _ h => h, fun _ h => (by cases h), fun _ _ _ => rfl,
      fun _ _ h => .inl h⟩
  | cons q ps ih =>
      have h1 : Told live [q] s (tellPred live s q) := Told.single (hps q List.mem_cons_self)
      have h2 := ih (s := tellPred live s q) fun x hx => h1.size ▸ hps x (List.mem_cons_of_mem _ hx)
      refine ⟨h2.liveIn.trans h1.liveIn, h2.size.trans h1.size, fun x hx => h2.queue x (h1.queue x hx),
        fun x v hv => h2.grows x v (h1.grows x v hv), fun x hx v hv => ?_, fun x hx v => ?_,
        fun x v hv => ?_⟩
      · rcases List.mem_cons.1 hx with rfl | hx
        · exact h2.grows x v (h1.told x (by simp) v hv)
        · exact h2.told x hx v hv
      · exact (h2.same x hx v).trans (h1.same x (fun hq => hx (h2.queue x hq)) v)
      · rcases h2.only x v hv with hv | ⟨hx, hl⟩
        · exact (h1.only x v hv).imp_right fun hl => ⟨List.mem_cons.2 (.inl (List.mem_singleton.1 hl.1)), hl.2⟩
        · exact .inr ⟨List.mem_cons_of_mem _ hx, hl⟩

/-! ## The search -/

/-- Outside of the queue the equations hold. -/
structure LiveInv (f : Routine) (s : LiveSearch) : Prop where
  sizeIn : s.known.liveIn.size = f.numBlocks
  sizeOut : s.known.liveOut.size = f.numBlocks
  into : ∀ b < f.numBlocks, b ∉ s.queue → ∀ v, (s.known.into b).get v = (f.liveAtStart b (s.known.outOf b)).get v
  outOf : ∀ b < f.numBlocks, b ∉ s.queue → ∀ q ∈ f.preds b, ∀ v, (s.known.into b).get v = true →
    (s.known.outOf q).get v = true
  bounded : ∀ b v, (s.known.outOf b).get v = true → v < f.numValues

theorem into_visitLive {rest : List Nat} (hpreds : ∀ q ∈ f.preds b, q < s.known.liveOut.size) (c : Nat) :
    (f.visitLive s b rest).known.into c =
      if b = c ∧ b < s.known.liveIn.size then f.liveAtStart b (s.known.outOf b) else s.known.into c := by
  have ht : Told (f.liveAtStart b (s.known.outOf b)) (f.preds b) { s with queue := rest } _ := told_foldl hpreds
  simp only [visitLive, Liveness.into, Array.getD_eq_getD_getElem?, Array.getElem?_setIfInBounds, ht.liveIn]
  by_cases hbc : b = c
  · subst hbc
    by_cases hlt : b < s.known.liveIn.size
    · simp [hlt]
    · simp [hlt]
  · simp [hbc]

theorem LiveInv.visit {rest : List Nat} (hvs : f.Valued vs) (h : LiveInv f s) (hpreds : ∀ b, ∀ q ∈ f.preds b, q < f.numBlocks)
    (hq : s.queue = b :: rest) : LiveInv f (f.visitLive s b rest) := by
  have hsizes : ∀ q ∈ f.preds b, q < s.known.liveOut.size := fun q hq => h.sizeOut ▸ hpreds b q hq
  have ht : Told (f.liveAtStart b (s.known.outOf b)) (f.preds b) { s with queue := rest } _ := told_foldl hsizes
  have hinto : ∀ c, (f.visitLive s b rest).known.into c =
      if b = c ∧ b < f.numBlocks then f.liveAtStart b (s.known.outOf b) else s.known.into c :=
    fun c => h.sizeIn ▸ into_visitLive hsizes c
  have hqueue : ∀ c, c ∉ (f.visitLive s b rest).queue → c ≠ b → c ∉ s.queue := by
    intro c hc hcb hmem
    rw [hq] at hmem
    rcases List.mem_cons.1 hmem with hmem | hmem
    · exact hcb hmem
    · exact hc (ht.queue c hmem)
  refine ⟨by simp [visitLive, ht.liveIn, h.sizeIn], ht.size.trans h.sizeOut, fun c hlt hc v => ?_,
    fun c hlt hc q hqc v hv => ?_, fun c v hv => ?_⟩
  · have hsame := liveAtStart_congr (f := f) (b := c) (ht.same c hc) v
    rw [hinto]
    split
    · rename_i hbc
      obtain ⟨rfl, -⟩ := hbc
      exact hsame.symm
    · rename_i hbc
      have hcb : c ≠ b := fun e => hbc ⟨e.symm, e ▸ hlt⟩
      exact (h.into c hlt (hqueue c hc hcb) v).trans hsame.symm
  · rw [hinto] at hv
    split at hv
    · rename_i hbc
      obtain ⟨rfl, -⟩ := hbc
      exact ht.told q hqc v hv
    · rename_i hbc
      have hcb : c ≠ b := fun e => hbc ⟨e.symm, e ▸ hlt⟩
      exact ht.grows q v (h.outOf c hlt (hqueue c hc hcb) q hqc v hv)
  · exact (ht.only c v hv).elim (h.bounded c v) fun hl => hvs.liveAtStart_bounded (h.bounded b) hl.2

theorem LiveInv.settle {n : Nat} (hvs : f.Valued vs) (h : LiveInv f s) (hpreds : ∀ b, ∀ q ∈ f.preds b, q < f.numBlocks)
    (hs : f.settleLive n s = some s') : LiveInv f s' ∧ s'.queue = [] := by
  induction n generalizing s with
  | zero =>
      unfold settleLive at hs
      split at hs
      · rename_i hq
        cases hs
        exact ⟨h, by simpa using hq⟩
      · cases hs
  | succ n ih =>
      unfold settleLive at hs
      split at hs
      · rename_i hq
        cases hs
        exact ⟨h, hq⟩
      · rename_i b rest hq
        exact ih (h.visit hvs hpreds hq) hs

/-! ## The search as a whole -/

/-- The search before the first visit. -/
def firstLive (f : Routine) (c : ControlFlow) : LiveSearch :=
  ⟨⟨Array.replicate f.numBlocks .empty, Array.replicate f.numBlocks .empty⟩, c.postorder, #[]⟩

theorem searchLive_eq (c : ControlFlow) : f.searchLive c = f.settleLive f.liveBound (f.firstLive c) := rfl

theorem outOf_firstLive (c : ControlFlow) (b v : Nat) : ((f.firstLive c).known.outOf b).get v = false := by
  simp only [firstLive, Liveness.outOf, Array.getD_eq_getD_getElem?, Array.getElem?_replicate]
  split <;> simp

theorem liveInv_firstLive {c : ControlFlow} (hf : Flows f c) : LiveInv f (f.firstLive c) := by
  refine ⟨by simp [firstLive], by simp [firstLive], fun b hb hq => absurd (hf.mem_postorder hb) hq,
    fun b hb hq => absurd (hf.mem_postorder hb) hq, fun b v hv => ?_⟩
  rw [outOf_firstLive] at hv
  cases hv

theorem preds_lt_of_all (h : (f.blocks.all fun b => b.preds.all f.hasBlock) = true) (b : Nat) :
    ∀ q ∈ f.preds b, q < f.numBlocks := by
  intro q hq
  have hlt : b < f.blocks.size := by
    refine Nat.lt_of_not_le fun hge => ?_
    rw [preds_of_ge hge] at hq
    cases hq
  have hblock := Array.all_eq_true.1 h b hlt
  have hpred : f.preds b = f.blocks[b].preds := by simp [preds, block, hlt]
  rw [hpred] at hq
  simpa [hasBlock] using List.all_eq_true.1 hblock q hq

theorem settled_of_liveness {c : ControlFlow} {l : Liveness} (hf : Flows f c)
    (hvs : f.Valued vs) (h : Returns (f.liveness c) l) : Settled f l := by
  obtain ⟨_, hin, h⟩ := h.bind
  have hpreds := preds_lt_of_all hin.of_demand
  split at h
  · rename_i s hs
    obtain ⟨_, -, h⟩ := h.bind
    rw [searchLive_eq] at hs
    obtain ⟨hinv, hempty⟩ := (liveInv_firstLive hf).settle hvs hpreds hs
    dsimp only at h
    split at h
    · obtain ⟨_, -, h⟩ := h.bind
      exact h.of_refuse.elim
    · rename_i hnone
      obtain rfl := h.of_pure
      refine ⟨fun b hb => hinv.into b hb (by simp [hempty]), fun b hb => hinv.outOf b hb (by simp [hempty]),
        fun v => ?_, hinv.bounded⟩
      by_contra hv
      rw [Bool.not_eq_false] at hv
      cases hl : (s.known.into f.entry).toList with
      | nil =>
          have := IndexSet.mem_toList.2 hv
          rw [hl] at this
          cases this
      | cons x xs => exact hnone x (by rw [hl]; rfl)
  · exact h.of_fault.elim

end Routine

end LinearScan
