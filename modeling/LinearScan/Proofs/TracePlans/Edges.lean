import LinearScan.Proofs.Agreement

/-!
# Edges between traces

The traces before a trace are found at its head, and the traces behind it at all of its blocks. Both name the same edges,
since an edge that does not go on to the next block of a trace enters a trace at its head.
-/

namespace LinearScan

namespace Traces

variable {f : Routine} {ts : Traces} {lists : List (List Nat)} {a b n s t : Nat} {ns : List Nat}

theorem mem_increasing : n ∈ increasing ns ↔ n ∈ ns := by
  rw [increasing, List.mem_eraseDups, List.mem_mergeSort]

theorem pairwise_eraseDups (h : ns.Pairwise (· ≤ ·)) : ns.eraseDups.Pairwise (· < ·) := by
  induction hn : ns.length using Nat.strongRecOn generalizing ns with
  | ind k ih =>
      cases ns with
      | nil => exact .nil
      | cons m ns =>
          obtain ⟨hm, hns⟩ := List.pairwise_cons.1 h
          have hlen : (ns.filter fun x => !x == m).length < k := by
            have := List.length_filter_le (fun x => !x == m) ns
            rw [← hn, List.length_cons]
            omega
          rw [List.eraseDups_cons]
          refine List.pairwise_cons.2 ⟨fun x hx => ?_, ih _ hlen (hns.filter _) rfl⟩
          obtain ⟨hx, hne⟩ := List.mem_filter.1 (List.mem_eraseDups.1 hx)
          exact Nat.lt_of_le_of_ne (hm x hx) fun heq => by simp [heq] at hne

theorem pairwise_increasing (ns : List Nat) : (increasing ns).Pairwise (· < ·) :=
  pairwise_eraseDups (pairwise_mergeSort_key id ns)

theorem mem_preds : s ∈ ts.preds f t ↔ ∃ a ∈ f.preds (ts.head t), ts.of a = s := by
  rw [preds, mem_increasing, List.mem_map]

theorem mem_succs : t ∈ ts.succs f s ↔
    ∃ a ∈ ts.blocks s, ∃ b ∈ f.succs a, ts.isFallthrough a b = false ∧ ts.of b = t := by
  simp only [succs, mem_increasing, List.mem_flatMap, List.mem_map, List.mem_filter, Bool.not_eq_true', and_assoc]

namespace Accepted

variable (h : Accepted f lists ts) (hedges : ∀ a b, a ∈ f.preds b ↔ b ∈ f.succs a)

include h

theorem of_head (ht : t < ts.count) : ts.of (ts.head t) = t ∧ ts.positionOf (ts.head t) = 0 := by
  rw [count, h.made, List.size_toArray] at ht
  have hget := List.getElem?_eq_getElem ht
  obtain ⟨b, rest, hblocks⟩ := List.exists_cons_of_ne_nil (h.paths.nonempty _ (List.getElem_mem ht))
  have hhead : ts.head t = b := by rw [head, h.blocks_eq hget, hblocks, List.headD_cons]
  rw [hhead]
  exact h.located t _ 0 b hget (by rw [hblocks, List.getElem?_cons_zero])

include hedges

/-- An edge goes on in a trace, or it enters one. It goes on if it leads to a block that has a place behind the head, since
the block before that is its only predecessor. -/
theorem isFallthrough_iff (hb : b ∈ f.succs a) : ts.isFallthrough a b = true ↔ ts.head (ts.of b) ≠ b := by
  have hblt := Routine.lt_of_mem_preds ((hedges a b).2 hb)
  obtain ⟨t, blocks, k, ht, hk⟩ := h.paths.exists_place hblt
  obtain ⟨hof, hposition⟩ := h.located t blocks k b ht hk
  obtain ⟨-, hfirst⟩ := h.of_head (h.partition.of_lt b hblt)
  simp only [isFallthrough, Bool.and_eq_true, beq_iff_eq]
  constructor
  · rintro ⟨-, hnext⟩ hhead
    rw [hhead] at hfirst
    omega
  · intro hne
    cases k with
    | zero =>
        refine absurd ?_ hne
        rw [hof, head, h.blocks_eq ht, List.headD_eq_head?_getD, List.head?_eq_getElem?, hk]
        rfl
    | succ k =>
        obtain ⟨hlt, rfl⟩ := List.getElem?_eq_some_iff.1 hk
        have hsplit : blocks = blocks.take k ++ blocks[k] :: blocks[k + 1] :: blocks.drop (k + 2) := by
          rw [List.getElem_cons_drop, List.getElem_cons_drop, List.take_append_drop]
        have hfollows := h.paths.chained blocks (List.mem_of_getElem? ht) _ _ _ _ hsplit
        simp only [follows, Bool.and_eq_true, beq_iff_eq] at hfollows
        obtain rfl : a = blocks[k] := by simpa [hfollows.1] using (hedges a _).2 hb
        obtain ⟨hofa, hpositiona⟩ := h.located t blocks k _ ht (List.getElem?_eq_getElem _)
        exact ⟨hofa.trans hof.symm, by rw [hposition, hpositiona]⟩

theorem mem_succs_iff (ht : t < ts.count) : t ∈ ts.succs f s ↔ s ∈ ts.preds f t := by
  rw [mem_succs, mem_preds]
  constructor
  · rintro ⟨a, ha, b, hb, hleaves, rfl⟩
    have hhead : ts.head (ts.of b) = b := by
      by_contra hne
      rw [(h.isFallthrough_iff hedges hb).2 hne] at hleaves
      cases hleaves
    exact ⟨a, hhead.symm ▸ (hedges a b).2 hb, h.partition.of_eq s a ha⟩
  · rintro ⟨a, ha, rfl⟩
    have hb := (hedges a _).1 ha
    obtain ⟨hof, -⟩ := h.of_head ht
    refine ⟨a, h.partition.mem_of a (Routine.lt_of_mem_succs hb), ts.head t, hb, ?_, hof⟩
    refine Bool.eq_false_iff.2 fun hfall => (h.isFallthrough_iff hedges hb).1 hfall ?_
    rw [hof]

end Accepted

/-- In traces that are accepted, one trace comes behind another exactly if that comes before the first. Both are listed in
increasing order. An edge either goes on to the next block of its trace or leads to the head of a trace. -/
theorem preds_succs_dual (hedges : ∀ a b, a ∈ f.preds b ↔ b ∈ f.succs a) (h : ofLists f lists = .ok ts) :
    (∀ s t, t < ts.count → (t ∈ ts.succs f s ↔ s ∈ ts.preds f t)) ∧
    (∀ t, (ts.preds f t).Pairwise (· < ·) ∧ (ts.succs f t).Pairwise (· < ·)) ∧
    ∀ a b, b ∈ f.succs a → (ts.isFallthrough a b = true ↔ ts.head (ts.of b) ≠ b) := by
  have haccepted := accepted_of_ofLists h
  exact ⟨fun s t ht => haccepted.mem_succs_iff hedges ht,
    fun t => ⟨pairwise_increasing _, pairwise_increasing _⟩, fun a b hb => haccepted.isFallthrough_iff hedges hb⟩

/-- A loop that is closed inside of a trace, and that two of its blocks leave. -/
def leftTwice : Routine :=
  let jump (succs : List Nat) : BlockSpec := { instrs := [⟨.branch, [], .empty, []⟩], succs, params := [] }
  .assemble [jump [1], jump [2, 5], jump [3, 4], jump [1], jump [6], jump [6],
    { instrs := [⟨.ret, [], .empty, []⟩], succs := [], params := [] }]

theorem preds_succs_dual_leftTwice : (∀ a b, a ∈ leftTwice.preds b ↔ b ∈ leftTwice.succs a) ∧
    ∃ ts, ofLists leftTwice [[0], [1, 2, 3], [4], [5], [6]] = .ok ts ∧ 1 ∈ ts.succs leftTwice 1 ∧
      1 ∈ ts.preds leftTwice 1 ∧ ts.isFallthrough 2 3 = true ∧ ts.head (ts.of 3) ≠ 3 := by
  have hm : leftTwice.Mirrored := by decide
  have hts : ofLists leftTwice [[0], [1, 2, 3], [4], [5], [6]] =
      .ok ⟨#[[0], [1, 2, 3], [4], [5], [6]], #[0, 1, 1, 1, 2, 3, 4], #[0, 0, 1, 2, 0, 0, 0]⟩ := by decide +kernel
  have hedges : ∀ a b, a ∈ leftTwice.preds b ↔ b ∈ leftTwice.succs a := fun a b => hm.mem_iff
  obtain ⟨hdual, -, hfall⟩ := preds_succs_dual hedges hts
  have hbehind := (hdual 1 1 (by decide)).2 (mem_preds.2 ⟨3, by decide, rfl⟩)
  have hnext := (hfall 2 3 (by decide)).2 (by decide)
  exact ⟨hedges, _, hts, hbehind, (hdual 1 1 (by decide)).1 hbehind, hnext, (hfall 2 3 (by decide)).1 hnext⟩

end Traces

end LinearScan
