import LinearScan.Proofs.Refusals
import LinearScan.Proofs.TracePlans

/-!
# Traces for every routine that is accepted

A routine has grown traces, and traces of one block each, exactly if the control-flow check accepts it. The heads of the
traces come in reverse postorder, in which a block with one predecessor comes after it. So a grown trace ends only where
no block can follow.
-/

namespace LinearScan

namespace Routine

open Traces

variable {f : Routine} {c : ControlFlow} {depth : Nat → Nat} {covered : Array Bool} {b s room : Nat}
  {order blocks : List Nat} {lists : List (List Nat)}

/-! ## Predecessors come first -/

theorem Flows.exists_pred_before (h : Flows f c) {l l' : List Nat} (horder : c.reversePostorder = l ++ b :: l')
    (hb : b ≠ f.entry) : ∃ q ∈ l, b ∈ f.succs q := by
  have hpost : c.postorder = l'.reverse ++ b :: l.reverse := by
    rw [ControlFlow.reversePostorder, List.reverse_eq_iff] at horder
    simpa using horder
  have hgraph := (graph_postorder_eq h.postorder).trans hpost
  have hmem : b ∈ f.graph.postorder f.entry := by simp [hgraph]
  obtain ⟨m, m', q, hsplit, hq, hbq⟩ := Graph.exists_pred_after hmem hb
  have hnodup := (postorder_spec h.postorder).1
  rw [hpost, List.nodup_append, List.nodup_cons] at hnodup
  have hbefore : b ∉ l'.reverse := fun hmem => hnodup.2.2 b hmem b List.mem_cons_self rfl
  obtain ⟨-, -, hm'⟩ := (List.append_cons_inj_of_notMem hbefore hnodup.2.1.1).1 (hgraph.symm.trans hsplit)
  exact ⟨q, List.mem_reverse.1 (hm' ▸ hq), by simpa using hbq⟩

/-! ## Where a trace ends -/

/-- How many blocks are not covered. -/
def uncovered (covered : Array Bool) : Nat := covered.toList.count false

theorem getD_eq_false (h : covered.getD b true = false) : covered[b]? = some false := by
  rw [Array.getD_eq_getD_getElem?] at h
  cases hb : covered[b]? with
  | none => simp [hb] at h
  | some x => simpa [hb] using h

theorem uncovered_cover (h : covered.getD b true = false) : uncovered (covered.setIfInBounds b true) < uncovered covered :=
  count_false_set (getD_eq_false h)

theorem uncovered_pos (h : covered.getD b true = false) : 0 < uncovered covered :=
  Nat.lt_of_le_of_lt (Nat.zero_le _) (uncovered_cover h)

theorem isSome_foldl_deeper {l : List Nat} {best : Option Nat} (h : best.isSome = true) :
    (l.foldl (deeper depth) best).isSome = true := by
  induction l generalizing best with
  | nil => exact h
  | cons x l ih =>
      refine ih ?_
      obtain ⟨t, rfl⟩ := Option.isSome_iff_exists.1 h
      simp only [deeper, Option.elim_some]
      split <;> rfl

theorem covers_of_nextInTrace {covers : Nat → Bool} (h : f.nextInTrace depth covers b = none) (hs : s ∈ f.succs b)
    (hf : follows f b s = true) : covers s = true := by
  by_contra hnot
  have hmem : s ∈ (f.succs b).filter fun s => !covers s && follows f b s :=
    List.mem_filter.2 ⟨hs, by simp [hf, hnot]⟩
  rw [nextInTrace_eq] at h
  cases hl : (f.succs b).filter fun s => !covers s && follows f b s with
  | nil =>
      rw [hl] at hmem
      cases hmem
  | cons x l =>
      rw [hl, List.foldl_cons] at h
      have hsome : (l.foldl (deeper depth) (deeper depth none x)).isSome = true := isSome_foldl_deeper rfl
      rw [h] at hsome
      cases hsome

/-- With room for all blocks that are not covered, growing covers whatever could follow the last block. -/
theorem covers_of_growFrom {last : Nat} (hroom : uncovered covered ≤ room) (hb : covered.getD b true = false)
    (hlast : (f.growFrom depth room b covered).1.getLast? = some last) (hs : s ∈ f.succs last)
    (hf : follows f last s = true) : (f.growFrom depth room b covered).2.getD s true = true := by
  induction room generalizing b covered with
  | zero =>
      have := uncovered_pos hb
      omega
  | succ room ih =>
      have hless := uncovered_cover hb
      rw [growFrom] at hlast ⊢
      cases hnext : f.nextInTrace depth ((covered.setIfInBounds b true).getD · true) b with
      | none =>
          rw [hnext] at hlast
          obtain rfl : b = last := by simpa using hlast
          exact covers_of_nextInTrace hnext hs hf
      | some x =>
          rw [hnext] at hlast
          have hx := (nextInTrace_spec hnext).1
          have hpos := uncovered_pos hx
          obtain ⟨room, rfl⟩ : ∃ k, room = k + 1 := ⟨room - 1, by omega⟩
          have hhead : (f.growFrom depth (room + 1) x (covered.setIfInBounds b true)).1.head? = some x :=
            head_growFrom room.succ_pos
          obtain ⟨l, hl⟩ := List.head?_eq_some_iff.1 hhead
          dsimp only at hlast
          rw [hl, List.getLast?_cons_cons, ← hl] at hlast
          exact ih (by omega) hx hlast

theorem size_growFrom : (f.growFrom depth room b covered).2.size = covered.size := by
  induction room generalizing b covered with
  | zero => rfl
  | succ room ih =>
      rw [growFrom]
      split
      · exact Array.size_setIfInBounds
      · exact ih.trans Array.size_setIfInBounds

/-- What the order of the heads has to do with the traces that are grown from them. -/
structure GrownInOrder (f : Routine) (order : List Nat) (covered : Array Bool) (lists : List (List Nat)) : Prop where
  heads : (lists.map List.head?).Sublist (order.map some)
  /-- What comes before the head of a trace is covered by then. -/
  before : ∀ pre blocks post, lists = pre ++ blocks :: post → ∀ s, blocks.head? = some s →
    ∀ l l', order = l ++ s :: l' → ∀ b ∈ l, covered.getD b true = true ∨ b ∈ pre.flatten
  /-- What could follow the last block of a trace is covered once the trace is grown. -/
  ends : ∀ pre blocks post, lists = pre ++ blocks :: post → ∀ b, blocks.getLast? = some b →
    ∀ s ∈ f.succs b, follows f b s = true → covered.getD s true = true ∨ s ∈ (pre ++ [blocks]).flatten

theorem GrownInOrder.skip {x : Nat} {lists : List (List Nat)} (hcov : covered.getD x true = true)
    (h : GrownInOrder f order covered lists) : GrownInOrder f (x :: order) covered lists := by
  refine ⟨h.heads.cons (some x), fun pre blocks post heq s hs l l' horder b hb => ?_, h.ends⟩
  cases l with
  | nil => cases hb
  | cons y l =>
      obtain ⟨rfl, htail⟩ := List.cons.inj horder
      rcases List.mem_cons.1 hb with rfl | hb
      · exact .inl hcov
      · exact h.before pre blocks post heq s hs l l' htail b hb

theorem GrownInOrder.grow {x : Nat} {covered' : Array Bool} {trace : List Nat} {lists : List (List Nat)} (hx : x ∉ order)
    (hhead : trace.head? = some x)
    (hcovers : ∀ b, covered'.getD b true = true → covered.getD b true = true ∨ b ∈ trace)
    (hend : ∀ b, trace.getLast? = some b → ∀ s ∈ f.succs b, follows f b s = true → covered'.getD s true = true)
    (h : GrownInOrder f order covered' lists) : GrownInOrder f (x :: order) covered (trace :: lists) := by
  refine ⟨?_, fun pre blocks post heq s hs l l' horder b hb => ?_, fun pre blocks post heq b hb s hs hf => ?_⟩
  · rw [List.map_cons, hhead]
    exact h.heads.cons_cons (some x)
  · cases l with
    | nil => cases hb
    | cons y l =>
        obtain ⟨rfl, htail⟩ := List.cons.inj horder
        cases pre with
        | nil =>
            -- the first trace starts at the first block, which occurs once
            obtain ⟨rfl, -⟩ := List.cons.inj heq
            cases Option.some.inj (hhead.symm.trans hs)
            exact absurd (htail ▸ by simp) hx
        | cons first pre =>
            obtain ⟨rfl, hlists⟩ := List.cons.inj heq
            rw [List.flatten_cons]
            rcases List.mem_cons.1 hb with rfl | hb
            · exact .inr (List.mem_append_left _ (List.mem_of_head? hhead))
            · rcases h.before pre blocks post hlists s hs l l' htail b hb with hb | hb
              · exact (hcovers b hb).imp_right (List.mem_append_left _)
              · exact .inr (List.mem_append_right _ hb)
  · cases pre with
    | nil =>
        obtain ⟨rfl, -⟩ := List.cons.inj heq
        simpa using hcovers s (hend b hb s hs hf)
    | cons first pre =>
        obtain ⟨rfl, hlists⟩ := List.cons.inj heq
        rw [List.cons_append, List.flatten_cons]
        rcases h.ends pre blocks post hlists b hb s hs hf with hs | hs
        · exact (hcovers s hs).imp_right (List.mem_append_left _)
        · exact .inr (List.mem_append_right _ hs)

theorem grownInOrder_growAll (depth : Nat → Nat) (hblocks : 0 < f.numBlocks) (hsize : covered.size = f.numBlocks)
    (hnodup : order.Nodup) : GrownInOrder f order covered (f.growAll depth order covered) := by
  induction order generalizing covered with
  | nil => exact ⟨by simp [growAll], fun pre blocks post heq => by simp [growAll] at heq,
      fun pre blocks post heq => by simp [growAll] at heq⟩
  | cons x order ih =>
      obtain ⟨hx, hnodup⟩ := List.nodup_cons.1 hnodup
      rw [growAll]
      split
      · rename_i hcov
        exact (ih hsize hnodup).skip hcov
      · rename_i hcov
        have hcov := Bool.eq_false_iff.2 hcov
        have hsize' : (f.growFrom depth f.numBlocks x covered).2.size = f.numBlocks := size_growFrom.trans hsize
        have hroom : uncovered covered ≤ f.numBlocks := by
          rw [← hsize, ← Array.length_toList]
          exact List.count_le_length
        exact (ih hsize' hnodup).grow hx (head_growFrom hblocks)
          (fun b => ((grown_growFrom f depth f.numBlocks hcov).covers b).1)
          (fun b hb s hs hf => covers_of_growFrom hroom hcov hb hs hf)

theorem getD_replicate_false {n : Nat} (hb : b < n) : (Array.replicate n false).getD b true = false := by simp [hb]

theorem Flows.grownInOrder (h : Flows f c) :
    GrownInOrder f c.reversePostorder (Array.replicate f.numBlocks false) (f.growTraces c) :=
  grownInOrder_growAll c.depthOf (Nat.lt_of_le_of_lt (Nat.zero_le _) h.entry_lt) Array.size_replicate
    h.nodup_reversePostorder

/-- No block can follow the last one of a grown trace, the entry apart. -/
theorem Flows.not_follows_last (h : Flows f c) (hm : f.Mirrored) (hblocks : blocks ∈ f.growTraces c)
    (hlast : blocks.getLast? = some b) (hs : s ∈ f.succs b) (hne : s ≠ f.entry) : ¬ follows f b s = true := by
  intro hf
  have hpreds : f.preds s = [b] := by
    simp only [follows, Bool.and_eq_true, beq_iff_eq] at hf
    exact hf.1
  have hplanned := h.planned_grown
  have hgrown := h.grownInOrder
  have hb : b ∈ blocks := List.mem_of_getLast? hlast
  have hblt : b < f.numBlocks := (hplanned.mem b).1 (List.mem_flatten_of_mem hblocks hb)
  have hslt : s < f.numBlocks := lt_of_mem_preds (hm.mem_iff.2 hs)
  obtain ⟨pre, post, hlists⟩ := List.append_of_mem hblocks
  have hcovered := hgrown.ends pre blocks post hlists b hlast s hs hf
  rw [getD_replicate_false hslt] at hcovered
  obtain ⟨trace, htrace, hmem⟩ := List.mem_flatten.1 (hcovered.resolve_left Bool.false_ne_true)
  obtain ⟨pre', post', hsplit⟩ := List.append_of_mem htrace
  have hlists' : f.growTraces c = pre' ++ trace :: (post' ++ post) := by
    rw [hlists, ← List.singleton_append, ← List.append_assoc, hsplit, List.append_assoc, List.cons_append]
  have hafter : blocks ∈ trace :: post' := by
    have hlast : (pre ++ [blocks]).getLast? = (pre' ++ trace :: post').getLast? := by rw [hsplit]
    rw [List.getLast?_append_of_ne_nil _ (by simp), List.getLast?_append_of_ne_nil _ (by simp)] at hlast
    exact List.mem_of_getLast? hlast.symm
  have hnodup := hplanned.nodup
  rw [hlists', List.flatten_append, List.flatten_cons, List.nodup_append] at hnodup
  obtain ⟨-, hnodup, hapart⟩ := hnodup
  obtain ⟨as, bs, hparts⟩ := List.append_of_mem hmem
  obtain rfl | ⟨as, a, rfl⟩ := List.eq_nil_or_concat as
  · -- the head of a trace comes after its predecessor, which is covered by then
    have hhead : trace.head? = some s := by rw [hparts]; rfl
    obtain ⟨l, l', horder⟩ := List.append_of_mem (h.mem_reversePostorder.2 hslt)
    obtain ⟨q, hq, hsq⟩ := h.exists_pred_before horder hne
    obtain rfl : q = b := by simpa [hpreds] using hm.mem_iff.2 hsq
    have hbefore := hgrown.before pre' trace _ hlists' s hhead l l' horder q hq
    rw [getD_replicate_false hblt] at hbefore
    refine hapart q (hbefore.resolve_left Bool.false_ne_true) q ?_ rfl
    rw [← List.flatten_cons]
    exact List.mem_flatten_of_mem (List.mem_append_left post hafter) hb
  · -- inside a trace it comes right after its predecessor, which is then not the last block
    rw [List.concat_eq_append, List.append_assoc, List.singleton_append] at hparts
    have ha := hplanned.chained trace (hlists' ▸ by simp) as a s bs hparts
    simp only [follows, hpreds, Bool.and_eq_true, beq_iff_eq, List.cons.injEq, and_true] at ha
    obtain rfl := ha.1
    obtain ⟨hnodup, -, hapart⟩ := List.nodup_append.1 hnodup
    obtain rfl : blocks = trace := by
      refine (List.mem_cons.1 hafter).resolve_right fun hmem => ?_
      exact hapart b (hparts ▸ by simp) b (List.mem_flatten_of_mem (List.mem_append_left post hmem) hb) rfl
    rw [hparts] at hlast hnodup
    rw [List.getLast?_append_of_ne_nil _ (by simp), List.getLast?_cons_cons] at hlast
    exact (List.nodup_cons.1 (List.nodup_append.1 hnodup).2.1).1 (List.mem_of_getLast? hlast)

/-! ## Both plans -/

theorem listable_of_controlFlow (hsize : f.numBlocks ≤ Index.unset) (h : f.controlFlow = .ok c) (hb : b < f.numBlocks) :
    Listable f b := by
  refine ⟨?_, hasLast_of_controlFlow h hb⟩
  simp only [Index.isSet, bne_iff_ne, ne_eq]
  omega

end Routine

/-- The traces go through all blocks of the routine, from the entry on, and their heads come in reverse postorder. -/
structure Traces.Traverse (f : Routine) (c : ControlFlow) (ts : Traces) : Prop where
  blocks : ts.lists.toList.flatten.Perm (List.range f.numBlocks)
  entry : (ts.blocks 0).head? = some f.entry
  heads : (ts.lists.toList.map List.head?).Sublist (c.reversePostorder.map some)

namespace Routine

open Traces

variable {f : Routine} {c : ControlFlow} {plan : TracePlan} {lists : List (List Nat)}

theorem traces_eq_of_planned (hsize : f.numBlocks ≤ Index.unset) (h : f.controlFlow = .ok c)
    (hlists : f.planned plan = .ok lists) (hplanned : Planned f lists)
    (hheads : (lists.map List.head?).Sublist (c.reversePostorder.map some)) :
    ∃ ts, f.traces plan = .ok ts ∧ ts.lists.toList = lists ∧ ts.Traverse f c := by
  obtain ⟨ts, hts, hentry⟩ := hplanned.exists_ofLists fun b hb => listable_of_controlFlow hsize h hb
  have heq : ts.lists.toList = lists := by rw [lists_of_ofLists hts]
  refine ⟨ts, by rw [traces, hlists]; exact hts, heq, ?_, hentry, heq ▸ hheads⟩
  rw [heq]
  refine (List.perm_ext_iff_of_nodup hplanned.nodup List.nodup_range).2 fun b => ?_
  rw [hplanned.mem, List.mem_range]

theorem exists_traces_of_controlFlow (hsize : f.numBlocks ≤ Index.unset) (h : f.controlFlow = .ok c) :
    (∃ ts, f.traces .grown = .ok ts ∧ ts.lists.toList = f.growTraces c ∧ ts.Traverse f c) ∧
      ∃ ts, f.traces .single = .ok ts ∧ ts.lists.toList = (c.reversePostorder.map fun b => [b]) ∧ ts.Traverse f c := by
  have hflows := flows_of_controlFlow h
  constructor
  · exact traces_eq_of_planned hsize h (by rw [planned, h]; rfl) hflows.planned_grown hflows.grownInOrder.heads
  · refine traces_eq_of_planned hsize h (by rw [planned, h]; rfl) hflows.planned_single ?_
    simp [Function.comp_def]

theorem traces_error_of_controlFlow {e : Stop} (h : f.controlFlow = .error e) (hplan : plan = .grown ∨ plan = .single) :
    f.traces plan = .error e := by
  rcases hplan with rfl | rfl
  · rw [traces, planned, h]
    rfl
  · rw [traces, planned, h]
    rfl

/-- A routine whose edges are listed at both ends, and whose blocks can be numbered, has grown traces and traces of
single blocks exactly if the control-flow check accepts it, and is refused for the reason of the check otherwise. The
traces go through all blocks, and a grown trace ends only where no block can follow. -/
theorem traces_exact (hsize : f.numBlocks ≤ Index.unset) (hm : f.Mirrored) :
    (∀ plan, plan = .grown ∨ plan = .single →
      ((∃ ts, f.traces plan = .ok ts) ↔ ∃ c, f.controlFlow = .ok c) ∧
        (∀ e, f.traces plan = .error e ↔ f.controlFlow = .error e) ∧
        (∀ t, f.traces plan ≠ .error (.refused (.invalidTrace t))) ∧
        ∀ c ts, f.controlFlow = .ok c → f.traces plan = .ok ts → ts.Traverse f c) ∧
      ∀ ts, f.traces .grown = .ok ts → ∀ t b, (ts.blocks t).getLast? = some b →
        ∀ s ∈ f.succs b, s ≠ f.entry → ¬ (f.preds s = [b] ∧ f.last b < f.first s) := by
  have hok (c : ControlFlow) (hc : f.controlFlow = .ok c) (plan : TracePlan) (hplan : plan = .grown ∨ plan = .single) :
      ∃ ts, f.traces plan = .ok ts ∧ ts.Traverse f c := by
    obtain ⟨⟨grown, hgrown, -, htraverse⟩, single, hsingle, -, htraverse'⟩ := exists_traces_of_controlFlow hsize hc
    rcases hplan with rfl | rfl
    · exact ⟨grown, hgrown, htraverse⟩
    · exact ⟨single, hsingle, htraverse'⟩
  refine ⟨fun plan hplan => ?_, fun ts hts t b hlast s hs hne hnext => ?_⟩
  · cases hc : f.controlFlow with
    | error e =>
        have herror := traces_error_of_controlFlow hc hplan
        refine ⟨by simp [herror], by simp [herror], fun t ht => ?_, fun c ts hc => by cases hc⟩
        rw [herror] at ht
        cases ht
        exact controlFlow_refuses _ hc
    | ok c =>
        obtain ⟨ts, hts, htraverse⟩ := hok c hc plan hplan
        refine ⟨by simp [hts], by simp [hts], by simp [hts], fun c' ts' hc' hts' => ?_⟩
        cases hc'
        cases hts.symm.trans hts'
        exact htraverse
  · cases hc : f.controlFlow with
    | error e =>
        rw [traces_error_of_controlFlow hc (.inl rfl)] at hts
        cases hts
    | ok c =>
        obtain ⟨⟨ts', hts', hlists, -⟩, -⟩ := exists_traces_of_controlFlow hsize hc
        cases hts.symm.trans hts'
        have hmem : ts.blocks t ∈ f.growTraces c := by
          rw [← hlists, Traces.blocks, Array.getD_eq_getD_getElem?] at *
          cases hget : ts.lists[t]? with
          | none => simp [hget] at hlast
          | some blocks => exact Array.mem_toList_iff.2 (Array.mem_of_getElem? hget)
        refine (flows_of_controlFlow hc).not_follows_last hm hmem hlast hs hne ?_
        simp [follows, hnext]

/-- The way over the second block goes back in the text, and two ways meet. -/
def backAndForth : Routine :=
  let jump (succs : List Nat) : BlockSpec := { instrs := [⟨.branch, [], .empty, []⟩], succs, params := [] }
  .assemble [jump [2], { instrs := [⟨.ret, [], .empty, []⟩], succs := [], params := [] }, jump [3, 4], jump [1], jump [1]]

theorem backAndForth_postorder : backAndForth.postorder = .ok [1, 3, 4, 2, 0] := by cbv

theorem traces_exact_backAndForth : backAndForth.numBlocks ≤ Index.unset ∧ backAndForth.Mirrored ∧
    ∃ c ts, backAndForth.controlFlow = .ok c ∧ backAndForth.traces .grown = .ok ts ∧
      ts.lists = #[[0, 2, 3], [4], [1]] ∧ ts.Traverse backAndForth c ∧
      ∀ s ∈ backAndForth.succs 3, s ≠ 0 →
        ¬ (backAndForth.preds s = [3] ∧ backAndForth.last 3 < backAndForth.first s) := by
  have hsize : backAndForth.numBlocks ≤ Index.unset := by decide
  have hm : backAndForth.Mirrored := by decide
  have hts : backAndForth.traces .grown = .ok ⟨#[[0, 2, 3], [4], [1]], #[0, 2, 0, 0, 1], #[0, 0, 1, 2, 0]⟩ := by
    simp only [traces, planned, controlFlow, backAndForth_postorder]
    decide +kernel
  obtain ⟨hplans, hmaximal⟩ := traces_exact hsize hm
  obtain ⟨hiff, -, -, htraverse⟩ := hplans .grown (.inl rfl)
  obtain ⟨c, hc⟩ := hiff.1 ⟨_, hts⟩
  exact ⟨hsize, hm, c, _, hc, hts, rfl, htraverse c _ hc hts, hmaximal _ hts 0 3 rfl⟩

end Routine

end LinearScan
