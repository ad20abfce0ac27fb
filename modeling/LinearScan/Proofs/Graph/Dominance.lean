import LinearScan.Proofs.Graph.Dominators

/-!
# Dominators are exact

A node dominates another if every path from the entry to the other passes through it. While the passes run, all nodes that
dominate a node are among its ancestors. This stays so because a node can be reached from each of its ancestors without
going through a node of lower rank: what dominates a node, and lies above one of its ancestors, dominates that ancestor too.
At the end the ancestors of a node are exactly the nodes that dominate it, and its parent is the nearest of them.
-/

namespace LinearScan

namespace Graph

open Relation

variable {g preds : Graph} {tree tree' : Tree} {rank : Array (Option Nat)} {nodes l : List Nat}
  {entry size a b d k n q s w x : Nat}

/-! ## Paths from the entry -/

/-- The nodes of a path from the entry to a node, the last of them first. -/
inductive Path (g : Graph) (entry : Nat) : Nat → List Nat → Prop where
  | start : Path g entry entry [entry]
  | step {b s : Nat} {l : List Nat} : Path g entry b l → s ∈ g.succs b → Path g entry s (s :: l)

/-- Every path from the entry to `b` passes through `a`. -/
def Dominates (g : Graph) (entry a b : Nat) : Prop := ∀ l, g.Path entry b l → a ∈ l

/-- The node `d` dominates `b` and is not `b`, and every other such node dominates `d`. -/
structure ImmediateDominator (g : Graph) (entry d b : Nat) : Prop where
  ne : d ≠ b
  dominates : g.Dominates entry d b
  nearest : ∀ a, a ≠ b → g.Dominates entry a b → g.Dominates entry a d

/-- Every reachable node but the entry hangs below its only immediate dominator. -/
structure DominatorTree (g : Graph) (entry : Nat) (tree : Tree) : Prop where
  immediate : ∀ b, b ≠ entry → g.Reaches entry b →
    ∃ d, tree.parent b = some d ∧ ∀ d', g.ImmediateDominator entry d' b ↔ d' = d
  root : tree.parent entry = none
  outside : ∀ b, ¬ g.Reaches entry b → tree.parent b = none

theorem Dominates.pred (h : g.Dominates entry a s) (hne : a ≠ s) (hs : s ∈ g.succs q) : g.Dominates entry a q := fun _ hl =>
  (List.mem_cons.1 (h _ (.step hl hs))).resolve_left hne

/-- Edges lead from node `a` to node `b` through nodes of rank `k` and more. -/
def ReachesBehind (g : Graph) (rank : Array (Option Nat)) (k a b : Nat) : Prop :=
  ReflTransGen (fun u v => v ∈ g.succs u ∧ k ≤ rankIn rank v) a b

theorem ReachesBehind.mono {k' : Nat} (h : g.ReachesBehind rank k a b) (hk : k' ≤ k) : g.ReachesBehind rank k' a b :=
  ReflTransGen.mono (fun _ _ hv => ⟨hv.1, Nat.le_trans hk hv.2⟩) _ _ h

/-- A path that does not pass through a node of low rank can be continued behind it. -/
theorem ReachesBehind.exists_path (h : g.ReachesBehind rank k x n) (ha : rankIn rank a < k) (hl : g.Path entry x l)
    (hnot : a ∉ l) : ∃ l, g.Path entry n l ∧ a ∉ l := by
  induction h with
  | refl => exact ⟨l, hl, hnot⟩
  | @tail b c _ hc ih =>
      obtain ⟨l, hl, hnot⟩ := ih
      refine ⟨c :: l, .step hl hc.1, List.not_mem_cons_of_ne_of_not_mem ?_ hnot⟩
      rintro rfl
      exact absurd (Nat.lt_of_lt_of_le ha hc.2) (Nat.lt_irrefl _)

/-! ## Dominators stay among the ancestors -/

/-- A tree that has all dominators of a node above it. -/
structure Faithful (g : Graph) (rank : Array (Option Nat)) (entry : Nat) (tree : Tree) : Prop where
  way : ∀ n p, tree.parent n = some p → n ≠ entry → g.ReachesBehind rank (rankIn rank p) p n
  above : ∀ n, tree.Has n → ∀ a, g.Dominates entry a n → tree.Climbs n a

namespace Faithful

theorem start (h : entry < size) :
    Faithful g rank entry ((Array.replicate size none).setIfInBounds entry (some entry)) where
  way n p hp hne := absurd (eq_of_has_start h (Tree.has_of_parent hp)) hne
  above n hn a ha := by
    rw [eq_of_has_start h hn] at ha ⊢
    rw [List.mem_singleton.1 (ha _ .start)]
    exact .refl

variable (hf : Faithful g rank entry tree)

include hf

theorem reachesBehind (h : Treelike rank entry tree) (hw : tree.Climbs n w) : g.ReachesBehind rank (rankIn rank w) w n := by
  induction hw using ReflTransGen.head_induction_on with
  | refl => exact .refl
  | @head n p hp hw ih =>
      by_cases he : n = entry
      · subst he
        rw [h.eq_entry (.step hp hw)]
        exact .refl
      · exact ih.trans ((hf.way n p hp he).mono (h.rank_le hw))

/-- What dominates a node and comes before one of its ancestors dominates that ancestor. -/
theorem dominates_of_climbs (h : Treelike rank entry tree) (hn : tree.Climbs n x) (hlt : rankIn rank a < rankIn rank x)
    (ha : g.Dominates entry a n) : g.Dominates entry a x := by
  intro l hl
  by_contra hnot
  obtain ⟨l', hl', hnot'⟩ := (hf.reachesBehind h hn).exists_path hlt hl hnot
  exact hnot' (ha l' hl')

theorem moved (hr : Numbering rank nodes size entry) (hd : Descends preds rank entry)
    (hpreds : ∀ n s, n ∈ preds.succs s ↔ s ∈ g.succs n) (hm : Moved preds rank size entry tree tree') :
    Faithful g rank entry tree' := by
  obtain ⟨x, z, h, hx, hxe, hz, hlt, rfl⟩ := hm
  have hxs := h.lt_size hr hx
  -- the other dominators of the node that moves dominate its predecessors, and so they are above the new parent
  have habove (a : Nat) (ha : g.Dominates entry a x) (hne : a ≠ x) : tree.Climbs z a :=
    (hz.2 a).2 fun q hq hqp => hf.above q hqp a (ha.pred hne ((hpreds q x).1 hq))
  refine ⟨fun n p hp hne => ?_, fun n hn a ha => ?_⟩
  · rw [parent_hang hxs] at hp
    split at hp
    · rename_i he
      cases hp
      subst he
      obtain ⟨q, hq, hqr, hqn⟩ := hd n hx hxe
      have hqz := (hz.2 z).1 .refl q hq (h.placed q hqr hqn)
      exact (hf.reachesBehind h.like hqz).tail ⟨(hpreds q n).1 hq, Nat.le_of_lt hlt⟩
    · exact hf.way n p hp hne
  · rcases (has_hang hxs).1 hn with rfl | hn
    · by_cases hne : a = n
      · rw [hne]
        exact .refl
      · refine .step (by rw [parent_hang hxs, if_pos rfl]) ?_
        exact (climbs_hang_of_not hxs (h.like.not_climbs_of_lt hlt)).2 (habove a ha hne)
    · have hna := hf.above n hn a ha
      by_cases hnx : tree.Climbs n x
      · refine (h.like.climbs_hang_iff hxs hxe hlt hnx).2 ?_
        by_cases hle : rankIn rank x ≤ rankIn rank a
        · exact .inl ⟨hna, hle⟩
        · have hax := hf.dominates_of_climbs h.like hnx (Nat.lt_of_not_le hle) ha
          refine .inr (habove a hax ?_)
          rintro rfl
          exact hle (Nat.le_refl _)
      · exact (climbs_hang_of_not hxs hnx).2 hna

theorem moves (hr : Numbering rank nodes size entry) (hd : Descends preds rank entry)
    (hpreds : ∀ n s, n ∈ preds.succs s ↔ s ∈ g.succs n) (hm : ReflTransGen (Moved preds rank size entry) tree tree') :
    Faithful g rank entry tree' := by
  induction hm with
  | refl => exact hf
  | tail _ hm ih => exact ih.moved hr hd hpreds hm

end Faithful

/-! ## Ancestors dominate -/

theorem Passed.mem_of_climbs (hentry : entry < g.size) (hsuccs : ∀ n, ∀ s ∈ g.succs n, s < g.size)
    (hpreds : ∀ n s, n ∈ preds.succs s ↔ s ∈ g.succs n) {before : Tree}
    (h : Passed preds (ranks g.size (g.postorder entry)) ((g.postorder entry).reverse.filter (· ≠ entry)) g.size entry before
      tree) (hl : g.Path entry n l) (hw : tree.Climbs n w) : n ∈ g.postorder entry ∧ w ∈ l := by
  induction hl generalizing w with
  | start => exact ⟨entry_mem_postorder hentry, by simp [h.passed.like.eq_entry hw]⟩
  | @step b s l _ hs ih =>
      have hb := (ih .refl).1
      have hmem := succ_mem_postorder hb hs (hsuccs b s hs)
      refine ⟨hmem, ?_⟩
      by_cases hne : w = s
      · exact hne ▸ List.mem_cons_self
      · have hse : s ≠ entry := by
          rintro rfl
          exact hne (h.passed.like.eq_entry hw)
        obtain ⟨z, hz, hjoins⟩ := h.settled s (List.mem_filter.2 ⟨List.mem_reverse.2 hmem, by simpa using hse⟩)
        have hbw := (hjoins.2 w).1 (hw.of_ne hne hz) b ((hpreds b s).2 hs) (h.placed hb)
        exact List.mem_cons_of_mem _ (ih hbw).2

theorem Treelike.finds_ancestor (h : Treelike rank entry tree) {fuel : Nat} (hb : tree.Has b)
    (hfuel : rankIn rank b < fuel) :
    Finds (tree.setIfInBounds entry none) a (some b) (ancestor (tree.setIfInBounds entry none) a fuel (some b)) ∧
      (ancestor (tree.setIfInBounds entry none) a fuel (some b) = true ↔ tree.Climbs b a) := by
  induction fuel generalizing b with
  | zero => omega
  | succ fuel ih =>
      rw [ancestor]
      by_cases hab : a = b
      · subst hab
        simp only [beq_self_eq_true, Bool.true_or, true_iff]
        exact ⟨.here, .refl⟩
      · rw [beq_false_of_ne hab, Bool.false_or]
        by_cases hbe : b = entry
        · subst hbe
          have hparent : Tree.parent (tree.setIfInBounds b none) b = none := by rw [parent_cut, if_pos rfl]
          have hout : ancestor (tree.setIfInBounds b none) a fuel none = false := by
            cases fuel with
            | zero => rfl
            | succ fuel => rfl
          rw [hparent, hout]
          refine ⟨.up hab (hparent.symm ▸ .out), fun hf => (Bool.false_ne_true hf).elim, fun hc => ?_⟩
          exact absurd (h.eq_entry hc) hab
        · obtain ⟨p, hp⟩ := Option.isSome_iff_exists.1 hb
          obtain ⟨hplaced, hlt⟩ := h.up b p hp hbe
          have hparent : Tree.parent (tree.setIfInBounds entry none) b = some p := by rw [parent_cut, if_neg hbe, hp]
          obtain ⟨hfinds, hiff⟩ := ih hplaced (by omega)
          rw [hparent]
          exact ⟨.up hab (hparent.symm ▸ hfinds), hiff.trans ⟨.step hp, fun hc => hc.of_ne hab hp⟩⟩

/-! ## The tree of dominators -/

theorem exists_exact_tree (hentry : entry < g.size) (hsuccs : ∀ n, ∀ s ∈ g.succs n, s < g.size)
    (hsize : preds.size = g.size) (hpreds : ∀ n s, n ∈ preds.succs s ↔ s ∈ g.succs n) :
    ∃ tree, dominators preds (g.postorder entry) entry = tree.setIfInBounds entry none ∧
      Passed preds (ranks g.size (g.postorder entry)) ((g.postorder entry).reverse.filter (· ≠ entry)) g.size entry
        ((Array.replicate g.size none).setIfInBounds entry (some entry)) tree ∧
      ∀ b, g.Reaches entry b → ∀ a, tree.Climbs b a ↔ g.Dominates entry a b := by
  have hedges (n s : Nat) (hs : s ∈ g.succs n) : n ∈ preds.succs s := (hpreds n s).2 hs
  obtain ⟨tree, htree, hpassed⟩ := exists_passed hentry hsize hedges
  refine ⟨tree, htree, hpassed, fun b hb a => ⟨fun hc l hl => ?_, fun ha => ?_⟩⟩
  · exact (hpassed.mem_of_climbs hentry hsuccs hpreds hl hc).2
  · have hfaithful : Faithful g (ranks g.size (g.postorder entry)) entry tree :=
      (Faithful.start hentry).moves (numbering_ranks hentry) (descends_ranks hedges) hpreds hpassed.moved
    exact hfaithful.above b (hpassed.placed ((mem_postorder_iff hentry hsuccs).2 hb)) a ha

/-- If the ancestors of a node are the nodes that dominate it, its parent is the only immediate dominator. -/
theorem Treelike.immediateDominator_iff (h : Treelike rank entry tree) (hr : Numbering rank nodes size entry)
    (hexact : ∀ n, tree.Has n → ∀ a, tree.Climbs n a ↔ g.Dominates entry a n)
    (hd : tree.parent b = some d) (hne : b ≠ entry) {d' : Nat} : g.ImmediateDominator entry d' b ↔ d' = d := by
  obtain ⟨hdp, hlt⟩ := h.up b d hd hne
  have hbp := Tree.has_of_parent hd
  have hnearest (a : Nat) (hab : a ≠ b) (ha : g.Dominates entry a b) : g.Dominates entry a d :=
    (hexact d hdp a).1 (((hexact b hbp a).2 ha).of_ne hab hd)
  have hdb : g.Dominates entry d b := (hexact b hbp d).1 (.step hd .refl)
  have hdne : d ≠ b := by
    rintro rfl
    exact Nat.lt_irrefl _ hlt
  refine ⟨fun hi => ?_, fun he => he ▸ ⟨hdne, hdb, hnearest⟩⟩
  -- each of two nearest dominators is above the other
  have hup := (hexact d hdp d').2 (hnearest d' hi.ne hi.dominates)
  have hdp' := h.climbs_placed hdp hup
  have hdown := (hexact d' hdp' d).2 (hi.nearest d hdne hdb)
  exact hr.inj (h.ranked d' hdp') (h.ranked d hdp) (Nat.le_antisymm (h.rank_le hup) (h.rank_le hdown))

/-- The search for dominators ends with the tree of immediate dominators, and a search in that tree ends with the answer
whether one node dominates the other. -/
theorem dominators_exact (hentry : entry < g.size) (hsuccs : ∀ n, ∀ s ∈ g.succs n, s < g.size)
    (hsize : preds.size = g.size) (hpreds : ∀ n s, n ∈ preds.succs s ↔ s ∈ g.succs n) :
    Calculates g preds entry (dominators preds (g.postorder entry) entry) ∧
    g.DominatorTree entry (dominators preds (g.postorder entry) entry) ∧
    ∀ a b, g.Reaches entry b →
      Finds (dominators preds (g.postorder entry) entry) a (some b)
        (dominates (dominators preds (g.postorder entry) entry) a b) ∧
      (dominates (dominators preds (g.postorder entry) entry) a b = true ↔ g.Dominates entry a b) := by
  obtain ⟨tree, htree, hpassed, hexact⟩ := exists_exact_tree hentry hsuccs hsize hpreds
  have hr := numbering_ranks hentry
  have hlike := hpassed.passed.like
  have hmem (n : Nat) : n ∈ g.postorder entry ↔ g.Reaches entry n := mem_postorder_iff hentry hsuccs
  have hreached {n : Nat} (hn : tree.Has n) : g.Reaches entry n :=
    (hmem n).1 (isSome_ranks.1 (hlike.ranked n hn))
  obtain ⟨walk, hwalk⟩ := visited_postorder g entry
  have hleft : walk.left.toList = g.postorder entry := hwalk.left
  refine ⟨⟨walk, tree, hwalk.runs, by simpa only [hleft, hsize] using hpassed.runs, htree⟩,
    ⟨fun b hne hb => ?_, ?_, fun b hb => ?_⟩, fun a b hb => ?_⟩
  · obtain ⟨d, hd⟩ := Option.isSome_iff_exists.1 (hpassed.placed ((hmem b).2 hb))
    rw [htree, parent_cut, if_neg hne]
    exact ⟨d, hd, fun d' => hlike.immediateDominator_iff hr (fun n hn => hexact n (hreached hn)) hd hne⟩
  · rw [htree, parent_cut, if_pos rfl]
  · rw [htree, parent_cut]
    split
    · rfl
    · exact Option.not_isSome_iff_eq_none.1 fun hn => hb (hreached hn)
  · have hplaced := hpassed.placed ((hmem b).2 hb)
    have hlt := hr.rankIn_lt (hlike.ranked b hplaced)
    rw [htree, dominates, ← hexact b hb a]
    refine hlike.finds_ancestor hplaced ?_
    rw [Array.size_setIfInBounds, hpassed.passed.size]
    omega

/-! ## Predecessors -/

/-- Appends a node to the lists of its successors. -/
def enlist (ps : Graph) (e : List Nat × Nat) : Graph := e.1.foldl (fun ps s => ps.modify s (· ++ [e.2])) ps

theorem size_enlist (ps : Graph) (e : List Nat × Nat) : (enlist ps e).size = ps.size := by
  unfold enlist
  induction e.1 generalizing ps with
  | nil => rfl
  | cons t ss ih => rw [List.foldl_cons, ih, Array.size_modify]

theorem mem_enlist {ps : Graph} {e : List Nat × Nat} :
    n ∈ (enlist ps e).succs s ↔ n ∈ ps.succs s ∨ n = e.2 ∧ s ∈ e.1 ∧ s < ps.size := by
  unfold enlist
  induction e.1 generalizing ps with
  | nil => simp
  | cons t ss ih =>
      have hmodify : n ∈ succs (ps.modify t (· ++ [e.2])) s ↔ n ∈ ps.succs s ∨ n = e.2 ∧ s = t ∧ s < ps.size := by
        by_cases hs : s < ps.size
        · by_cases hst : t = s
          · simp [succs, hs, hst, Array.getElem_modify]
          · simp [succs, hs, hst, Array.getElem_modify, Ne.symm hst]
        · simp [succs, hs]
      rw [List.foldl_cons, ih, hmodify, Array.size_modify, List.mem_cons]
      grind

theorem mem_foldl_enlist {es : List (List Nat × Nat)} {ps : Graph} :
    n ∈ succs (es.foldl enlist ps) s ↔ n ∈ ps.succs s ∨ ∃ ss, (ss, n) ∈ es ∧ s ∈ ss ∧ s < ps.size := by
  induction es generalizing ps with
  | nil => simp
  | cons e es ih =>
      rw [List.foldl_cons, ih, mem_enlist, size_enlist, or_assoc]
      refine or_congr_right ⟨?_, ?_⟩
      · rintro (⟨rfl, hs⟩ | ⟨ss, hss, hs⟩)
        · exact ⟨e.1, List.mem_cons_self, hs⟩
        · exact ⟨ss, List.mem_cons_of_mem _ hss, hs⟩
      · rintro ⟨ss, hss, hs⟩
        rcases List.mem_cons.1 hss with rfl | hss
        · exact .inl ⟨rfl, hs⟩
        · exact .inr ⟨ss, hss, hs⟩

theorem mem_preds (hsuccs : ∀ n, ∀ s ∈ g.succs n, s < g.size) : n ∈ g.preds.succs s ↔ s ∈ g.succs n := by
  have hempty : succs (Array.replicate g.size []) s = [] := by
    by_cases hs : s < g.size
    · simp [succs, hs]
    · simp [succs, hs]
  have hat (ss : List Nat) : (ss, n) ∈ g.toList.zipIdx ↔ g[n]? = some ss := by simp [List.mem_zipIdx_iff_getElem?]
  change n ∈ succs (g.toList.zipIdx.foldl enlist (Array.replicate g.size [])) s ↔ _
  rw [mem_foldl_enlist, hempty, Array.size_replicate]
  constructor
  · rintro (hn | ⟨ss, hss, hs, -⟩)
    · cases hn
    · rw [succs, Array.getD_eq_getD_getElem?, (hat ss).1 hss]
      exact hs
  · intro hs
    refine .inr ⟨g.succs n, (hat _).2 ?_, hs, hsuccs n s hs⟩
    rw [succs, Array.getD_eq_getD_getElem?] at hs ⊢
    cases hn : g[n]? with
    | none => simp [hn] at hs
    | some ss => rfl

/-- A loop with two entries, a node that follows itself, and a node that cannot be reached. -/
theorem dominators_exact_irreducible :
    let g : Graph := #[[1, 2], [2], [1, 3], [3], [3]]
    Calculates g g.preds 0 (dominators g.preds (g.postorder 0) 0) ∧ g.ImmediateDominator 0 0 1 ∧
      g.ImmediateDominator 0 2 3 ∧ (dominators g.preds (g.postorder 0) 0).parent 4 = none ∧
      g.Dominates 0 2 3 ∧ ¬ g.Dominates 0 1 3 := by
  intro g
  have hsuccs : ∀ n, ∀ s ∈ g.succs n, s < g.size := by
    intro n s hs
    have hall : ∀ ss ∈ g.toList, ∀ s ∈ ss, s < g.size := by decide
    by_cases hn : n < g.size
    · refine hall g[n] (by simp) s ?_
      simpa [succs, hn] using hs
    · simp [succs, hn] at hs
  have h1 : g.Reaches 0 1 := .single (by decide)
  have h3 : g.Reaches 0 3 := .tail (.single (show 2 ∈ g.succs 0 by decide)) (by decide)
  obtain ⟨hruns, htree, hanswers⟩ := dominators_exact (show 0 < g.size by decide) hsuccs
    (show g.preds.size = g.size by decide) fun n s => mem_preds hsuccs
  obtain ⟨d, hd, hd'⟩ := htree.immediate 1 (by decide) h1
  obtain ⟨e, he, he'⟩ := htree.immediate 3 (by decide) h3
  have hd0 : (dominators g.preds (g.postorder 0) 0).parent 1 = some 0 := by decide +kernel
  have he2 : (dominators g.preds (g.postorder 0) 0).parent 3 = some 2 := by decide +kernel
  refine ⟨hruns, (hd' 0).2 (Option.some.inj (hd0.symm.trans hd)), (he' 2).2 (Option.some.inj (he2.symm.trans he)),
    by decide +kernel, ((hanswers 2 3 h3).2).1 (by decide +kernel), fun h => ?_⟩
  have hno : dominates (dominators g.preds (g.postorder 0) 0) 1 3 = false := by decide +kernel
  exact Bool.false_ne_true (hno.symm.trans (((hanswers 1 3 h3).2).2 h))

end Graph

end LinearScan
