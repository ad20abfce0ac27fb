import LinearScan.Proofs.ControlFlow
import LinearScan.Proofs.Graph.Postorder
import LinearScan.Routine.Assemble
import Mathlib.Data.List.Permutation

/-!
# The order in which a walk leaves the blocks

The walk of the control-flow check keeps a stack of open blocks, and the walk of a graph recurses. Both leave the same
blocks in the same order: those that can be reached, each after its successors, apart from the successors that lead back
to it. A walk that comes upon a number that is no block stops there.
-/

namespace LinearScan

namespace Routine

open Graph

variable {f : Routine} {b : Nat} {rest : List (Nat × List Nat)} {ns more order : List Nat} {w w' : Graph.Walk}

/-- The blocks and edges of a routine. -/
def graph (f : Routine) : Graph := f.blocks.map Block.succs

theorem size_graph (f : Routine) : f.graph.size = f.numBlocks := Array.size_map

@[simp] theorem succs_graph (f : Routine) (b : Nat) : f.graph.succs b = f.succs b := by
  by_cases hb : b < f.blocks.size
  · simp [graph, Graph.succs, Routine.succs, block, hb]
  · rw [succs_of_ge (Nat.not_lt.1 hb)]
    simp [graph, Graph.succs, hb]

/-! ## Two walks -/

theorem walk_next {seen : Array Bool} {left : Array Nat} {s : Nat}
    (hw : f.walk seen ((b, s :: more) :: rest) left = .ok order) :
    seen.getD s true = true ∧ f.walk seen ((b, more) :: rest) left = .ok order ∨
      seen.getD s true = false ∧
        f.walk (seen.setIfInBounds s true) ((s, f.succs s) :: (b, more) :: rest) left = .ok order := by
  rw [walk] at hw
  rw [Array.getD_eq_getD_getElem?]
  split at hw
  · obtain ⟨_, -, hw⟩ := Except.bind_ok hw
    cases hw
  · rename_i hs
    exact .inl ⟨by rw [hs]; rfl, hw⟩
  · rename_i hs
    exact .inr ⟨by rw [hs]; rfl, hw⟩

theorem walk_of_visits (hv : Visits f.graph ns w w') (hw : f.walk w.seen ((b, ns ++ more) :: rest) w.left = .ok order) :
    f.walk w'.seen ((b, more) :: rest) w'.left = .ok order := by
  induction hv generalizing b more rest with
  | done w => exact hw
  | @skip n ns w w' hn _ ih =>
      rcases walk_next hw with ⟨-, hw⟩ | ⟨hnew, -⟩
      · exact ih hw
      · exact (Bool.false_ne_true (hnew.symm.trans hn)).elim
  | @node n ns w below w' hn _ _ ihbelow ihrest =>
      rcases walk_next hw with ⟨hold, -⟩ | ⟨-, hw⟩
      · exact (Bool.false_ne_true (hn.symm.trans hold)).elim
      · have hbelow : f.walk below.seen ((n, []) :: (b, ns ++ more) :: rest) below.left = .ok order :=
          ihbelow (by simpa using hw)
        rw [walk] at hbelow
        exact ihrest hbelow

theorem graph_postorder_eq (h : f.postorder = .ok order) : f.graph.postorder f.entry = order := by
  have hentry := entry_lt_of_postorder h
  obtain ⟨w, hw⟩ := visited_postorder f.graph f.entry
  have hleft : w.left.toList = f.graph.postorder f.entry := hw.left
  rw [← hleft]
  rw [postorder, if_pos hentry] at h
  cases hw.runs with
  | skip hn _ => simp [size_graph, hentry] at hn
  | @node _ _ _ below _ hn hbelow hrest =>
      cases hrest with
      | done =>
          rw [succs_graph] at hbelow
          have hend : f.walk below.seen [(f.entry, [])] below.left = .ok order :=
            walk_of_visits hbelow (by simpa [size_graph] using h)
          rw [walk, walk] at hend
          exact Except.ok.inj hend

/-! ## The order -/

theorem walk_inRange {seen : Array Bool} {stack : List (Nat × List Nat)} {left : Array Nat}
    (hw : f.walk seen stack left = .ok order) : (∀ e ∈ stack, ∀ s ∈ e.2, s < seen.size) ∧
      ∀ b ∈ order, b ∈ left.toList ∨ b ∈ stack.map Prod.fst ∨ ∀ s ∈ f.succs b, s < seen.size := by
  fun_induction walk f seen stack left with
  | case1 seen left =>
      cases hw
      exact ⟨by simp, fun b hb => .inl hb⟩
  | case2 seen left b rest ih =>
      obtain ⟨hstack, horder⟩ := ih hw
      refine ⟨List.forall_mem_cons.2 ⟨by simp, hstack⟩, fun x hx => ?_⟩
      have := horder x hx
      simp only [Array.toList_push, List.mem_append, List.map_cons, List.mem_cons] at this ⊢
      grind
  | case3 seen left b s more rest hs =>
      obtain ⟨_, -, hw⟩ := Except.bind_ok hw
      cases hw
  | case4 seen left b s more rest hs ih =>
      obtain ⟨hstack, horder⟩ := ih hw
      obtain ⟨hmore, hrest⟩ := List.forall_mem_cons.1 hstack
      exact ⟨List.forall_mem_cons.2 ⟨List.forall_mem_cons.2 ⟨(Array.getElem?_eq_some_iff.1 hs).1, hmore⟩, hrest⟩, horder⟩
  | case5 seen left b s more rest hs ih =>
      obtain ⟨hstack, horder⟩ := ih hw
      rw [Array.size_setIfInBounds] at hstack horder
      obtain ⟨hnew, hmore, hrest⟩ := by simpa only [List.forall_mem_cons] using hstack
      refine ⟨List.forall_mem_cons.2 ⟨List.forall_mem_cons.2 ⟨(Array.getElem?_eq_some_iff.1 hs).1, hmore⟩, hrest⟩,
        fun x hx => ?_⟩
      rcases horder x hx with hx | hx | hx
      · exact .inl hx
      · rcases List.mem_cons.1 hx with rfl | hx
        · exact .inr (.inr hnew)
        · exact .inr (.inl hx)
      · exact .inr (.inr hx)

theorem succ_lt_of_postorder {s : Nat} (h : f.postorder = .ok order) (hb : b ∈ order) (hs : s ∈ f.succs b) :
    s < f.numBlocks := by
  rw [postorder, if_pos (entry_lt_of_postorder h)] at h
  obtain ⟨hentry, horder⟩ := walk_inRange h
  simp only [Array.size_setIfInBounds, Array.size_replicate, List.forall_mem_singleton] at hentry horder
  rcases horder b hb with hb | hb | hb
  · simp at hb
  · have hb : b = f.entry := List.mem_singleton.1 hb
    exact hentry s (hb ▸ hs)
  · exact hb s hs

theorem mem_postorder_of_reachable (h : f.postorder = .ok order) (hb : Reachable f b) : b ∈ order := by
  have hgraph := graph_postorder_eq h
  induction hb with
  | entry => exact hgraph ▸ entry_mem_postorder (size_graph f ▸ entry_lt_of_postorder h)
  | step _ hs ih =>
      have hlt := succ_lt_of_postorder h ih hs
      exact hgraph ▸ succ_mem_postorder (hgraph.symm ▸ ih) (by simpa using hs) (size_graph f ▸ hlt)

/-- What a walk from the entry leaves, and in which order. -/
structure Postordered (f : Routine) (order : List Nat) : Prop where
  nodup : order.Nodup
  mem : ∀ b, b ∈ order ↔ Reachable f b
  last : order.getLast? = some f.entry
  edges : ∀ u v, Reachable f u → v ∈ f.succs u → order.idxOf v < order.idxOf u ∨ f.graph.Reaches v u

theorem postordered_of_postorder (h : f.postorder = .ok order) : Postordered f order := by
  have hentry := entry_lt_of_postorder h
  obtain ⟨hnodup, hreached⟩ := postorder_spec h
  have hgraph := graph_postorder_eq h
  have hmem (b : Nat) : b ∈ order ↔ Reachable f b := ⟨fun hb => (hreached b hb).2, mem_postorder_of_reachable h⟩
  refine ⟨hnodup, hmem, ?_, fun u v hu hv => ?_⟩
  · obtain ⟨l, hl⟩ := postorder_eq_append (g := f.graph) (size_graph f ▸ hentry)
    rw [← hgraph, hl, List.getLast?_concat]
  · obtain ⟨l, l', hl⟩ := List.append_of_mem ((hmem u).2 hu)
    have hlt := succ_lt_of_postorder h ((hmem u).2 hu) hv
    refine (before_or_reaches (hgraph.trans hl) (by simpa using hv) (size_graph f ▸ hlt)).imp_left fun hvl => ?_
    have hul : u ∉ l := by
      rw [hl, List.nodup_append] at hnodup
      exact fun hmem => hnodup.2.2 u hmem u List.mem_cons_self rfl
    rw [hl, List.idxOf_append_of_mem hvl, List.idxOf_append_of_notMem hul, List.idxOf_cons_self]
    exact Nat.lt_add_right 0 (List.idxOf_lt_length_iff.2 hvl)

/-- A walk along edges between blocks leaves exactly the blocks that can be reached, in the order of the graph's walk. A
walk that comes upon another number reports it, unless it is the number of no block. -/
theorem postorder_exact (hentry : f.entry < f.numBlocks) :
    ((∀ b s, Reachable f b → s ∈ f.succs b → s < f.numBlocks) →
      ∃ order, f.postorder = .ok order ∧ Postordered f order ∧ f.graph.postorder f.entry = order) ∧
    ((∃ b s, Reachable f b ∧ s ∈ f.succs b ∧ f.numBlocks ≤ s) →
      ∃ b s, Reachable f b ∧ s ∈ f.succs b ∧ f.numBlocks ≤ s ∧
        f.postorder = .error (if s = Index.unset then .fault .outOfRange else .refused (.badBlock s))) := by
  refine ⟨fun hsuccs => ?_, fun hmissing => ?_⟩
  · rcases postorder_cases hentry with ⟨order, horder⟩ | ⟨b, s, hb, hs, hge, -⟩
    · exact ⟨order, horder, postordered_of_postorder horder, graph_postorder_eq horder⟩
    · exact absurd (hsuccs b s hb hs) (Nat.not_lt.2 hge)
  · obtain ⟨b, s, hb, hs, hge⟩ := hmissing
    rcases postorder_cases hentry with ⟨order, horder⟩ | ⟨b, s, hb, hs, hge, heq⟩
    · have hlt := succ_lt_of_postorder horder (mem_postorder_of_reachable horder hb) hs
      exact absurd hlt (Nat.not_lt.2 hge)
    · refine ⟨b, s, hb, hs, hge, heq.trans ?_⟩
      by_cases hset : s = Index.unset
      · rw [if_pos hset, hset]
        rfl
      · have hdemand : Index.isSet s = true := by simpa [Index.isSet] using hset
        rw [if_neg hset, missingBlock, hdemand]
        rfl

/-- Two ways into a loop, and a block that cannot be reached. -/
def twoWaysIn : Routine :=
  let jump (succs : List Nat) : BlockSpec := { instrs := [⟨.branch, [], .empty, []⟩], succs, params := [] }
  .assemble [jump [2, 1], jump [2], jump [1, 3], { instrs := [⟨.ret, [], .empty, []⟩], succs := [], params := [] }, jump [2]]

theorem postorder_exact_twoWaysIn : twoWaysIn.entry < twoWaysIn.numBlocks ∧ twoWaysIn.postorder = .ok [1, 3, 2, 0] ∧
    Postordered twoWaysIn [1, 3, 2, 0] ∧ twoWaysIn.graph.postorder 0 = [1, 3, 2, 0] := by
  have hentry : twoWaysIn.entry < twoWaysIn.numBlocks := by decide
  have hsuccs : ∀ b < twoWaysIn.numBlocks, ∀ s ∈ twoWaysIn.succs b, s < twoWaysIn.numBlocks := by decide
  obtain ⟨order, horder, hpost, hgraph⟩ := (postorder_exact hentry).1 fun b s _ hs => hsuccs b (lt_of_mem_succs hs) s hs
  have hwalk : twoWaysIn.postorder = .ok [1, 3, 2, 0] := by cbv
  cases horder.symm.trans hwalk
  exact ⟨hentry, hwalk, hpost, hgraph⟩

/-- A branch to the number that stands for no block. -/
def nowhere : Routine :=
  .assemble [{ instrs := [⟨.branch, [], .empty, []⟩], succs := [Index.unset], params := [] }]

/-- A successor that is no block is not always reported. -/
theorem nowhere_unreported : nowhere.entry < nowhere.numBlocks ∧ Reachable nowhere 0 ∧ Index.unset ∈ nowhere.succs 0 ∧
    nowhere.numBlocks ≤ Index.unset ∧ ∀ b, nowhere.postorder ≠ .error (.refused (.badBlock b)) := by
  have hwalk : nowhere.postorder = .error (.fault .outOfRange) := by cbv
  refine ⟨by decide, .entry, by decide, by decide, fun b hb => ?_⟩
  cases hwalk.symm.trans hb

end Routine

end LinearScan
