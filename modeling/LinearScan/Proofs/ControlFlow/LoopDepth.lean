import LinearScan.Proofs.Agreement
import LinearScan.Proofs.ControlFlow.Postorder
import LinearScan.Proofs.Graph.Dominance
import Mathlib.Data.Set.Card

/-!
# Loop depths

The check goes through the blocks by number and keeps a stack of loops that wait for back edges. It takes every block up to
the last back edge of a loop to be in the loop. Where only back edges lead to lower numbers, the depths that it finds are
exact if and only if this is so.
-/

namespace LinearScan

namespace Graph

variable {g : Graph} {entry b : Nat} {l : List Nat}

theorem Path.mem_end (h : g.Path entry b l) : b ∈ l := by
  cases h with
  | start => exact List.mem_cons_self
  | step _ _ => exact List.mem_cons_self

end Graph

namespace Routine

open Graph

variable {f : Routine} {c : ControlFlow} {a b h h' i l s x : Nat}

/-! ## Natural loops -/

/-- There is an edge from `l` back to `h`, which dominates it. -/
def BackEdge (f : Routine) (l h : Nat) : Prop := h ∈ f.succs l ∧ f.graph.Dominates f.entry h l

/-- Block `b` is in the natural loop with the header `h`: it is the header, or leads to a block with a back edge to the
header without passing through it. -/
inductive InLoop (f : Routine) (h : Nat) : Nat → Prop where
  | header {l : Nat} : f.BackEdge l h → InLoop f h h
  | latch {l : Nat} : f.BackEdge l h → InLoop f h l
  | before {b s : Nat} : s ∈ f.succs b → s ≠ h → InLoop f h s → InLoop f h b

/-- Edges lead to a block that is not later exactly if they are back edges. So it is if all loops have one header, and the
blocks are numbered in reverse postorder. -/
def Reducible (f : Routine) : Prop := ∀ b, ∀ s ∈ f.succs b, s ≤ b ↔ f.graph.Dominates f.entry s b

/-- The blocks from a header to any of its back edges are all in the loop. -/
def LoopsContiguous (f : Routine) : Prop := ∀ h l b, f.BackEdge l h → h ≤ b → b ≤ l → f.InLoop h b

/-- A loop with the header `h`, which is at or before block `i`, has a back edge at or behind the block. -/
def Waiting (f : Routine) (i h : Nat) : Prop := h ≤ i ∧ ∃ l, i ≤ l ∧ f.BackEdge l h

/-- All loops that wait for a back edge at block `i` hold the block. -/
def HoldsOpen (f : Routine) (i : Nat) : Prop := ∀ h, f.Waiting i h → f.InLoop h i

/-- How many back edges lead to `h` from block `i` on. -/
def pending (f : Routine) (i h : Nat) : Nat :=
  ((List.range' i (f.numBlocks - i)).flatMap fun l => (f.succs l).filter fun s => s = h ∧ s ≤ l).length

theorem pending_succ (hi : i < f.numBlocks) :
    f.pending i h = ((f.succs i).filter fun s => s = h ∧ s ≤ i).length + f.pending (i + 1) h := by
  rw [pending, show f.numBlocks - i = f.numBlocks - (i + 1) + 1 by omega, List.range'_succ, List.flatMap_cons,
    List.length_append]
  rfl

theorem backEdgesInto_eq (hh : h < f.numBlocks) : f.backEdgesInto h = f.pending h h := by
  have hsplit : List.range f.numBlocks = List.range' 0 h ++ List.range' h (f.numBlocks - h) := by
    have happend := List.range'_append_1 (s := 0) (m := h) (n := f.numBlocks - h)
    rw [Nat.zero_add, Nat.add_sub_cancel' hh.le] at happend
    rw [List.range_eq_range', happend]
  have hlow : ((List.range' 0 h).flatMap fun l => (f.succs l).filter fun s => s = h ∧ s ≤ l) = [] := by
    refine List.flatMap_eq_nil_iff.2 fun l hl => List.filter_eq_nil_iff.2 fun s _ => ?_
    have hlt : l < 0 + h := (List.mem_range'_1.1 hl).2
    simp only [decide_eq_true_eq]
    omega
  have hlength : f.backEdgesInto h =
      ((List.range f.numBlocks).flatMap fun l => (f.succs l).filter fun s => s = h ∧ s ≤ l).length := by
    rw [backEdgesInto, List.flatMap_def, ← total_map_length, List.map_map]
    rfl
  rw [hlength, hsplit, List.flatMap_append, hlow, List.nil_append, pending]

/-- The headers of the loops before `bound` that wait for back edges from block `i` on, the innermost first. -/
structure Stacked (f : Routine) (bound i : Nat) (hs : List Nat) : Prop where
  decreasing : hs.Pairwise (· > ·)
  mem : ∀ h, h ∈ hs ↔ h < bound ∧ 0 < f.pending i h

theorem stacked_nil (f : Routine) : f.Stacked 0 0 [] := ⟨.nil, by simp⟩

theorem Stacked.open {hs : List Nat} (hst : f.Stacked i i hs) (hi : i < f.numBlocks) : ∃ hs', f.Stacked (i + 1) i hs' ∧
    (if 0 < f.backEdgesInto i then f.backEdgesInto i :: hs.map (f.pending i) else hs.map (f.pending i)) =
      hs'.map (f.pending i) := by
  rw [backEdgesInto_eq hi]
  split
  · rename_i hpos
    refine ⟨i :: hs, ⟨List.pairwise_cons.2 ⟨fun h hh => ((hst.mem h).1 hh).1, hst.decreasing⟩, fun h => ?_⟩, rfl⟩
    rw [List.mem_cons, hst.mem, Nat.lt_succ_iff_lt_or_eq]
    constructor
    · rintro (rfl | ⟨hlt, hp⟩)
      · exact ⟨.inr rfl, hpos⟩
      · exact ⟨.inl hlt, hp⟩
    · rintro ⟨hlt | rfl, hp⟩
      · exact .inr ⟨hlt, hp⟩
      · exact .inl rfl
  · rename_i hzero
    refine ⟨hs, ⟨hst.decreasing, fun h => ?_⟩, rfl⟩
    rw [hst.mem, Nat.lt_succ_iff_lt_or_eq]
    refine and_congr_left fun hp => (or_iff_left ?_).symm
    rintro rfl
    exact hzero hp

theorem Reachable.exists_path (h : Reachable f b) : ∃ l, f.graph.Path f.entry b l := by
  induction h with
  | entry => exact ⟨_, .start⟩
  | step _ hs ih =>
      obtain ⟨l, hl⟩ := ih
      exact ⟨_, .step hl (by rwa [succs_graph])⟩

/-- Each block on a path can be reached through blocks of lower numbers: where a path comes back, it has been before. -/
theorem Reducible.exists_rising {p : List Nat} (hr : f.Reducible) (hp : f.graph.Path f.entry b p) :
    ∀ v ∈ p, ∃ p', f.graph.Path f.entry v (v :: p') ∧ ∀ w ∈ p', w < v := by
  induction hp with
  | start =>
      intro v hv
      obtain rfl := List.mem_singleton.1 hv
      exact ⟨[], .start, by simp⟩
  | @step b s p hp hs ih =>
      refine List.forall_mem_cons.2 ⟨?_, ih⟩
      rcases Nat.lt_or_ge b s with hlt | hle
      · obtain ⟨p', hp', hlow⟩ := ih b hp.mem_end
        exact ⟨b :: p', .step hp' hs, List.forall_mem_cons.2 ⟨hlt, fun w hw => Nat.lt_trans (hlow w hw) hlt⟩⟩
      · exact ih s ((hr b s (succs_graph f b ▸ hs)).1 hle p hp)

theorem Reducible.le_of_dominates (hr : f.Reducible) (hb : Reachable f b) (hd : f.graph.Dominates f.entry a b) : a ≤ b := by
  obtain ⟨p, hp⟩ := hb.exists_path
  obtain ⟨p', hp', hlow⟩ := hr.exists_rising hp b hp.mem_end
  rcases List.mem_cons.1 (hd _ hp') with rfl | ha
  · exact Nat.le_refl _
  · exact Nat.le_of_lt (hlow a ha)

theorem Reducible.backEdge_iff (hr : f.Reducible) : f.BackEdge l h ↔ h ∈ f.succs l ∧ h ≤ l :=
  and_congr_right fun hs => (hr l h hs).symm

theorem InLoop.dominates (hb : f.InLoop h b) : f.graph.Dominates f.entry h b := by
  induction hb with
  | header _ => exact fun _ hp => hp.mem_end
  | latch hl => exact hl.2
  | before hs hne _ ih => exact ih.pred hne.symm (by rwa [succs_graph])

theorem InLoop.exists_next_header {p : List Nat} (hp : f.graph.Path f.entry x p) (hmem : h ∈ p) (hne : x ≠ h)
    (hx : f.InLoop h x) : ∃ s ∈ f.succs h, s ≠ h ∧ f.InLoop h s := by
  induction hp with
  | start => exact absurd (List.mem_singleton.1 hmem).symm hne
  | @step b s p hp hs ih =>
      rw [succs_graph] at hs
      by_cases hb : b = h
      · exact ⟨s, hb ▸ hs, hne, hx⟩
      · exact ih ((List.mem_cons.1 hmem).resolve_left hne.symm) hb (.before hs hne hx)

theorem InLoop.next (hf : Flows f c) (hb : f.InLoop h b) :
    h ∈ f.succs b ∨ ∃ s ∈ f.succs b, s ≠ h ∧ f.InLoop h s := by
  cases hb with
  | latch hl => exact .inl hl.1
  | before hs hne hin => exact .inr ⟨_, hs, hne, hin⟩
  | @header l hl =>
      by_cases hlb : l = b
      · exact .inl (hlb ▸ hl.1)
      · obtain ⟨p, hp⟩ := (hf.reachable (lt_of_mem_succs hl.1)).exists_path
        exact .inr (InLoop.exists_next_header hp (hl.2 p hp) hlb (.latch hl))

section Accepted

variable (hf : Flows f c) (hm : f.Mirrored) (hr : f.Reducible)

include hf hm hr

theorem InLoop.le (hb : f.InLoop h b) : h ≤ b := by
  have hlt : b < f.numBlocks := by
    cases hb with
    | header hl => exact lt_of_mem_preds (hm.mem_iff.2 hl.1)
    | latch hl => exact lt_of_mem_succs hl.1
    | before hs _ _ => exact lt_of_mem_succs hs
  exact hr.le_of_dominates (hf.reachable hlt) hb.dominates

/-- A header has an entry besides its back edges, so that these leave blocks with no other successor. -/
theorem BackEdge.succs_eq (hl : f.BackEdge l h) : f.succs l = [h] := by
  have hle := (hr.backEdge_iff.1 hl).2
  have hpred : l ∈ f.preds h := hm.mem_iff.2 hl.1
  have hlt : h < f.numBlocks := lt_of_mem_preds hpred
  have hentries : 1 < f.entries h := by
    unfold entries
    by_cases he : h = f.entry
    · rw [if_pos he]
      exact Nat.succ_lt_succ (List.length_pos_of_mem hpred)
    · obtain ⟨p, hp⟩ := (hf.reachable hlt).exists_path
      obtain ⟨p', hp', hlow⟩ := hr.exists_rising hp h hp.mem_end
      cases hp' with
      | start => exact absurd rfl he
      | @step q _ _ hq hs =>
          have hq' : q ∈ f.preds h := hm.mem_iff.2 (succs_graph f q ▸ hs)
          have hne : q ≠ l := Nat.ne_of_lt (Nat.lt_of_lt_of_le (hlow q hq.mem_end) hle)
          have hsub : [q, l].Subperm (f.preds h) := by
            refine List.Nodup.subperm (by simp [hne]) ?_
            simp [hq', hpred]
          exact Nat.lt_of_lt_of_le hsub.length_le (Nat.le_add_right _ _)
  have hlen := (hf.block h hlt).entries hentries l hpred
  have hmem := hl.1
  cases hsuccs : f.succs l with
  | nil => simp [hsuccs] at hmem
  | cons s rest =>
      rw [hsuccs] at hlen hmem
      obtain rfl : rest = [] := List.eq_nil_of_length_eq_zero (Nat.le_zero.1 (Nat.le_of_succ_le_succ hlen))
      rw [List.mem_singleton.1 hmem]

theorem BackEdge.not_inLoop (hl : f.BackEdge l h) (hlt : h < h') : ¬ f.InLoop h' l := by
  intro hin
  have hsuccs := hl.succs_eq hf hm hr
  rcases hin.next hf with hs | ⟨s, hs, -, hin⟩
  · rw [hsuccs, List.mem_singleton] at hs
    omega
  · rw [hsuccs, List.mem_singleton] at hs
    have := hin.le hf hm hr
    omega

/-! ## Loops that wait for back edges -/

/-- As long as open loops hold what is passed, a loop stays open up to each of its blocks. -/
theorem InLoop.exists_latch (hopen : ∀ j < i, f.HoldsOpen j) (hx : f.InLoop h x) :
    ∃ l, f.BackEdge l h ∧ min x i ≤ l := by
  induction hx with
  | header hl => exact ⟨_, hl, Nat.le_trans (Nat.min_le_left _ _) (hr.backEdge_iff.1 hl).2⟩
  | latch hl => exact ⟨_, hl, Nat.min_le_left _ _⟩
  | @before x s hs hne hin ih =>
      obtain ⟨l, hl, hle⟩ := ih
      by_cases hlow : min x i ≤ l
      · exact ⟨l, hl, hlow⟩
      · -- `s` is the header of a loop inside, with a back edge behind the last one to `h`
        have hlt : h < s := Nat.lt_of_le_of_ne (hin.le hf hm hr) hne.symm
        have hback : f.BackEdge x s := hr.backEdge_iff.2 ⟨hs, by omega⟩
        exact absurd (hopen l (by omega) s ⟨by omega, x, by omega, hback⟩) (hl.not_inLoop hf hm hr hlt)

/-! ## The stack of open loops -/

omit hf hm in
theorem pending_pos : 0 < f.pending i h ↔ ∃ l, i ≤ l ∧ f.BackEdge l h := by
  rw [pending, List.length_pos_iff_exists_mem]
  simp only [List.mem_flatMap, List.mem_range'_1, List.mem_filter, decide_eq_true_eq, hr.backEdge_iff]
  constructor
  · rintro ⟨s, l, hl, hs, rfl, hle⟩
    exact ⟨l, hl.1, hs, hle⟩
  · rintro ⟨l, hil, hs, hle⟩
    have hlt := lt_of_mem_succs hs
    exact ⟨h, l, ⟨hil, by omega⟩, hs, rfl, hle⟩

omit hf hm in
theorem Stacked.mem_iff_waiting {hs : List Nat} (hst : f.Stacked (i + 1) i hs) : h ∈ hs ↔ f.Waiting i h := by
  rw [hst.mem, pending_pos hr, Nat.lt_succ_iff, Waiting]

omit hf hm in
theorem Stacked.length_eq {hs : List Nat} (hst : f.Stacked (i + 1) i hs) : hs.length = {h | f.Waiting i h}.ncard := by
  have hset : {h | f.Waiting i h} = (hs.toFinset : Set Nat) := by
    ext h
    simp [hst.mem_iff_waiting hr]
  have hnodup : hs.Nodup := hst.decreasing.imp Nat.ne_of_gt
  rw [hset, Set.ncard_coe_finset, List.toFinset_card_of_nodup hnodup]

theorem Stacked.close {hs : List Nat} (hst : f.Stacked (i + 1) i hs) (hi : i < f.numBlocks) (hopen : f.HoldsOpen i) :
    ∃ hs', f.Stacked (i + 1) (i + 1) hs' ∧
      closeLoops (f.backEdgesFrom i) (hs.map (f.pending i)) = hs'.map (f.pending (i + 1)) := by
  by_cases hback : ∃ h, f.BackEdge i h
  · obtain ⟨h, hl⟩ := hback
    have hsuccs := hl.succs_eq hf hm hr
    have hle := (hr.backEdge_iff.1 hl).2
    have hfrom : f.backEdgesFrom i = 1 := by simp [backEdgesFrom, hsuccs, hle]
    have hself : f.pending i h = f.pending (i + 1) h + 1 := by simp [pending_succ hi, hsuccs, hle, Nat.add_comm]
    have hother (h' : Nat) (hne : h' ≠ h) : f.pending i h' = f.pending (i + 1) h' := by
      simp [pending_succ hi, hsuccs, hne.symm]
    have hmem : h ∈ hs := (hst.mem h).2 ⟨by omega, by omega⟩
    cases hs with
    | nil => cases hmem
    | cons top rest =>
        obtain ⟨htop, hrest⟩ := List.pairwise_cons.1 hst.decreasing
        -- a later header would be the header of a loop that holds the block
        obtain rfl : top = h := by
          rcases List.mem_cons.1 hmem with rfl | hmem
          · rfl
          · exact absurd (hopen top ((hst.mem_iff_waiting hr).1 List.mem_cons_self))
              (hl.not_inLoop hf hm hr (htop h hmem))
        have hkept (h' : Nat) (hne : h' ≠ top) : h' ∈ rest ↔ h' < i + 1 ∧ 0 < f.pending (i + 1) h' := by
          rw [← hother h' hne, ← hst.mem, List.mem_cons, or_iff_right hne]
        have hmap : rest.map (f.pending i) = rest.map (f.pending (i + 1)) :=
          List.map_congr_left fun h' hh' => hother h' (Nat.ne_of_lt (htop h' hh'))
        have htopRest : top ∉ rest := fun hmem => Nat.lt_irrefl _ (htop top hmem)
        rw [hfrom, List.map_cons, closeLoops, closeLoops, hself, hmap]
        by_cases hlast : f.pending (i + 1) top = 0
        · rw [if_pos (by omega)]
          refine ⟨rest, ⟨hrest, fun h' => ?_⟩, rfl⟩
          by_cases hne : h' = top
          · subst hne
            simp [htopRest, hlast]
          · exact hkept h' hne
        · rw [if_neg (by omega)]
          refine ⟨top :: rest, ⟨hst.decreasing, fun h' => ?_⟩, rfl⟩
          by_cases hne : h' = top
          · subst hne
            simp only [List.mem_cons_self, true_iff]
            omega
          · rw [List.mem_cons, or_iff_right hne]
            exact hkept h' hne
  · have hnone : ∀ s ∈ f.succs i, ¬ s ≤ i := fun s hs hle => hback ⟨s, hr.backEdge_iff.2 ⟨hs, hle⟩⟩
    have hfrom : f.backEdgesFrom i = 0 := by simpa [backEdgesFrom] using hnone
    have hsame : f.pending i = f.pending (i + 1) := by
      funext h
      rw [pending_succ hi, List.filter_eq_nil_iff.2 fun s hs => by simp [hnone s hs]]
      simp
    refine ⟨hs, ⟨hst.decreasing, fun h => by rw [hst.mem, hsame]⟩, ?_⟩
    rw [hfrom, hsame]
    rfl

/-- As long as open loops hold what is passed, the depth of a block is the number of loops that wait. -/
theorem Stacked.loopDepths {hs : List Nat} {j k : Nat} (hst : f.Stacked i i hs) (hopen : ∀ j' < j, f.HoldsOpen j')
    (hij : i ≤ j) (hjk : j < i + k) (hk : i + k ≤ f.numBlocks) :
    (f.loopDepths (List.range' i k) (hs.map (f.pending i)))[j - i]? = some {h | f.Waiting j h}.ncard := by
  induction k generalizing i hs with
  | zero => omega
  | succ k ih =>
      obtain ⟨hs', hst', hopened⟩ := hst.open (by omega)
      rw [List.range'_succ, Routine.loopDepths, hopened]
      rcases Nat.eq_or_lt_of_le hij with rfl | hlt
      · rw [Nat.sub_self, List.getElem?_cons_zero, List.length_map, hst'.length_eq hr]
      · obtain ⟨hs'', hst'', hclosed⟩ := hst'.close hf hm hr (by omega) (hopen i hlt)
        rw [hclosed, show j - i = j - (i + 1) + 1 by omega, List.getElem?_cons_succ]
        exact ih hst'' hlt (by omega) (by omega)

end Accepted

/-- The depths are exact if and only if the blocks from a header to its last back edge are all in the loop. -/
theorem loopDepth_exact_iff (hc : f.controlFlow = .ok c) (hm : f.Mirrored) (hr : f.Reducible) :
    (∀ b < f.numBlocks, c.depthOf b = {h | f.InLoop h b}.ncard) ↔ f.LoopsContiguous := by
  have hf := flows_of_controlFlow hc
  have hdepth {b : Nat} (hb : b < f.numBlocks) (hopen : ∀ j < b, f.HoldsOpen j) :
      c.depthOf b = {h | f.Waiting b h}.ncard := by
    obtain ⟨owner, hlaid⟩ := exists_laidOut hc
    have hat := Stacked.loopDepths hf hm hr (stacked_nil f) hopen (Nat.zero_le b) (by omega) (Nat.zero_add _).le
    rw [ControlFlow.depthOf, hlaid.loopDepth, Array.getD_eq_getD_getElem?, List.getElem?_toArray, List.range_eq_range']
    exact congrArg (·.getD 0) hat
  have hsub {b : Nat} (hopen : ∀ j < b, f.HoldsOpen j) : {h | f.InLoop h b} ⊆ {h | f.Waiting b h} := by
    intro h hin
    obtain ⟨l, hl, hle⟩ := InLoop.exists_latch hf hm hr hopen hin
    exact ⟨hin.le hf hm hr, l, by simpa using hle, hl⟩
  constructor
  · intro hexact
    have hopen (b : Nat) : b < f.numBlocks → f.HoldsOpen b := by
      induction b using Nat.strongRecOn with
      | ind b ih =>
          intro hb h hwait
          have hopen : ∀ j < b, f.HoldsOpen j := fun j hj => ih j hj (by omega)
          have heq : {h | f.InLoop h b} = {h | f.Waiting b h} := by
            refine Set.eq_of_subset_of_ncard_le (hsub hopen) ?_ ((Set.finite_le_nat b).subset fun h hwait => hwait.1)
            rw [← hexact b hb, hdepth hb hopen]
          exact heq.ge hwait
    intro h l b hl hhb hbl
    exact hopen b (Nat.lt_of_le_of_lt hbl (lt_of_mem_succs hl.1)) h ⟨hhb, l, hbl, hl⟩
  · intro hcont b hb
    have hopen : ∀ j, f.HoldsOpen j := by
      rintro j h ⟨hle, l, hjl, hl⟩
      exact hcont h l j hl hle hjl
    rw [hdepth hb fun j _ => hopen j]
    congr 1
    ext h
    exact ⟨fun hwait => hopen b h hwait, fun hin => hsub (fun j _ => hopen j) hin⟩

/-- A loop that can be left in its first block. The block outside has a lower number than the one that goes back. -/
def earlyExit : Routine :=
  let jump (succs : List Nat) : BlockSpec := { instrs := [⟨.branch, [], .empty, []⟩], succs, params := [] }
  .assemble [jump [1], jump [3, 2], { instrs := [⟨.ret, [], .empty, []⟩], succs := [], params := [] }, jump [1]]

theorem earlyExit_dominates : earlyExit.graph.Dominates earlyExit.entry 1 3 := by
  suffices hall : ∀ x p, earlyExit.graph.Path earlyExit.entry x p → x = 3 → 1 ∈ p from fun p hp => hall 3 p hp rfl
  intro x p hp hx
  cases hp with
  | start => exact absurd hx (by decide)
  | @step b _ _ hp hs =>
      rw [succs_graph, hx] at hs
      have hfrom : ∀ b < earlyExit.numBlocks, 3 ∈ earlyExit.succs b → b = 1 := by decide
      exact List.mem_cons_of_mem _ (hfrom b (lt_of_mem_succs hs) hs ▸ hp.mem_end)

theorem earlyExit_reducible : earlyExit.Reducible := by
  intro b s hs
  have hedges : ∀ b < earlyExit.numBlocks, ∀ s ∈ earlyExit.succs b, b = 0 ∧ s = 1 ∨ b = 1 ∧ 1 < s ∨ b = 3 ∧ s = 1 := by
    decide
  have hfirst : earlyExit.graph.Path earlyExit.entry 0 [0] := .start
  have hsecond : earlyExit.graph.Path earlyExit.entry 1 [1, 0] := .step hfirst (by rw [succs_graph]; decide)
  rcases hedges b (lt_of_mem_succs hs) s hs with ⟨rfl, rfl⟩ | ⟨rfl, hlt⟩ | ⟨rfl, rfl⟩
  · exact iff_of_false (by decide) fun hd => absurd (hd _ hfirst) (by decide)
  · refine iff_of_false (Nat.not_le.2 hlt) fun hd => ?_
    have := hd _ hsecond
    simp only [List.mem_cons, List.not_mem_nil, or_false] at this
    omega
  · exact iff_of_true (by decide) earlyExit_dominates

/-- The blocks are numbered in reverse postorder, and yet the block outside the loop has the depth of the loop. -/
theorem loopDepth_exact_iff_earlyExit : ∃ c, earlyExit.controlFlow = .ok c ∧ earlyExit.Mirrored ∧ earlyExit.Reducible ∧
    c.reversePostorder = List.range earlyExit.numBlocks ∧ c.depthOf 2 = 1 ∧ (∀ h, ¬ earlyExit.InLoop h 2) ∧
    ¬ ∀ b < earlyExit.numBlocks, c.depthOf b = {h | earlyExit.InLoop h b}.ncard := by
  have hflow : ∃ c, earlyExit.controlFlow = .ok c ∧ c.postorder = [3, 2, 1, 0] ∧ c.depthOf 2 = 1 := by
    have hwalk : earlyExit.postorder = .ok [3, 2, 1, 0] := by cbv
    rw [controlFlow, hwalk]
    exact ⟨_, by with_unfolding_all rfl, by with_unfolding_all rfl, by with_unfolding_all rfl⟩
  obtain ⟨c, hc, horder, hdepth⟩ := hflow
  have hm : earlyExit.Mirrored := by decide
  have hnone (h : Nat) : ¬ earlyExit.InLoop h 2 := by
    intro hin
    have hsuccs : earlyExit.succs 2 = [] := by decide
    rcases hin.next (flows_of_controlFlow hc) with hs | ⟨s, hs, -⟩
    · simp [hsuccs] at hs
    · simp [hsuccs] at hs
  refine ⟨c, hc, hm, earlyExit_reducible, ?_, hdepth, hnone, fun hexact => ?_⟩
  · rw [ControlFlow.reversePostorder, horder]
    decide
  · have hback : earlyExit.BackEdge 3 1 := ⟨by decide, earlyExit_dominates⟩
    exact hnone 1 ((loopDepth_exact_iff hc hm earlyExit_reducible).1 hexact 1 3 2 hback (by decide) (by decide))

end Routine

end LinearScan
