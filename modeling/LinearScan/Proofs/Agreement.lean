import LinearScan.Proofs.SplitFamilies
import Mathlib.Data.List.Nodup
import Mathlib.Data.Nat.Init

/-!
# Routines whose lists agree

What the analyses say of a routine if its lists of predecessors mirror those of its successors, and if each
value is mentioned with one class: blocks are joined by single edges, and every value that is live has a
definition.
-/

namespace LinearScan

namespace Routine

variable (f : Routine)

/-- Predecessors and successors name the same edges. -/
def Mirrored : Prop := ∀ b s, (f.preds s).count b = (f.succs b).count s

/-- What the routine mentions, as an operand, a parameter or an argument. -/
def occurrences : List VirtReg :=
  (List.range f.numBlocks).flatMap fun b => (f.mentionsIn b).map Prod.fst ++ f.allBranchArgs b

/-- Each value number is mentioned with one class. -/
def OneClass : Prop := ∀ v ∈ f.occurrences, ∀ w ∈ f.occurrences, v.num = w.num → v = w

instance : Decidable f.OneClass :=
  inferInstanceAs (Decidable (∀ v ∈ f.occurrences, ∀ w ∈ f.occurrences, v.num = w.num → v = w))

/-- Some operand or parameter defines value `v`. -/
def Defined (v : Nat) : Prop := ∃ b < f.numBlocks, ∃ m ∈ f.mentionsIn b, m.2 = true ∧ m.1.num = v

variable {f} {b s i : Nat}

theorem Mirrored.mem_iff (h : f.Mirrored) : b ∈ f.preds s ↔ s ∈ f.succs b := by
  rw [← List.count_pos_iff, ← List.count_pos_iff, h]

theorem lt_of_mem_preds (h : b ∈ f.preds s) : s < f.numBlocks := by
  refine Nat.lt_of_not_le fun hge => ?_
  rw [preds_of_ge hge] at h
  cases h

/-- Only blocks have edges, so that looking at them is enough. -/
theorem mirrored_iff : f.Mirrored ↔ ∀ b < f.numBlocks, (∀ s ∈ f.succs b, s < f.numBlocks) ∧
    (∀ q ∈ f.preds b, q < f.numBlocks) ∧ ∀ s < f.numBlocks, (f.preds s).count b = (f.succs b).count s := by
  constructor
  · exact fun h b _ => ⟨fun s hs => lt_of_mem_preds (h.mem_iff.2 hs), fun q hq => lt_of_mem_succs (h.mem_iff.1 hq),
      fun s _ => h b s⟩
  · intro h b s
    rcases Nat.lt_or_ge b f.numBlocks with hb | hb
    · rcases Nat.lt_or_ge s f.numBlocks with hs | hs
      · exact (h b hb).2.2 s hs
      · rw [preds_of_ge hs, List.count_eq_zero.2 fun hmem => Nat.not_lt.2 hs ((h b hb).1 s hmem)]
        rfl
    · rw [succs_of_ge hb, List.count_eq_zero.2 fun hmem => ?_]
      · rfl
      · exact Nat.not_lt.2 hb ((h s (lt_of_mem_preds hmem)).2.1 b hmem)

instance : Decidable f.Mirrored := decidable_of_iff _ mirrored_iff.symm

theorem mem_mentionsIn {op : Operand} (hi : i ∈ (f.span b).toList) (hop : op ∈ f.operands i) :
    (op.vreg, op.writes) ∈ f.mentionsIn b :=
  List.mem_append_right _ (List.mem_flatMap.2 ⟨i, hi, List.mem_map.2 ⟨op, hop, rfl⟩⟩)

theorem param_mem_mentionsIn {v : VirtReg} (hv : v ∈ f.params b) : (v, true) ∈ f.mentionsIn b :=
  List.mem_append_left _ (List.mem_map.2 ⟨v, hv, rfl⟩)

theorem mem_occurrences {v : VirtReg} : v ∈ f.occurrences ↔
    ∃ b < f.numBlocks, (∃ m ∈ f.mentionsIn b, m.1 = v) ∨ v ∈ f.allBranchArgs b := by
  simp [occurrences]

theorem occurs_of_operand {op : Operand} (hb : b < f.numBlocks) (hi : i ∈ (f.span b).toList)
    (hop : op ∈ f.operands i) : op.vreg ∈ f.occurrences :=
  mem_occurrences.2 ⟨b, hb, .inl ⟨_, mem_mentionsIn hi hop, rfl⟩⟩

theorem occurs_of_param {v : VirtReg} (hb : b < f.numBlocks) (hv : v ∈ f.params b) : v ∈ f.occurrences :=
  mem_occurrences.2 ⟨b, hb, .inl ⟨_, param_mem_mentionsIn hv, rfl⟩⟩

theorem occurs_of_arg {v : VirtReg} (hb : b < f.numBlocks) (hv : v ∈ f.allBranchArgs b) : v ∈ f.occurrences :=
  mem_occurrences.2 ⟨b, hb, .inr hv⟩

end Routine

namespace Problem

variable {p : Problem} {b s t k i j v : Nat}

namespace Posed

/-! ## Edges -/

theorem block_ok (hp : p.Posed) (hb : b < p.routine.numBlocks) : p.routine.BlockOk b := hp.flows.block b hb

/-- A block with several ways in is the only successor of each of its predecessors, whose branch has no
operands. -/
theorem only_succ (hp : p.Posed) (hm : p.routine.Mirrored) (hs : t ∈ p.routine.succs s)
    (he : 1 < p.routine.entries t) : p.routine.succs s = [t] ∧ p.routine.operands (p.routine.last s) = [] := by
  have hpred := hm.mem_iff.2 hs
  have hlen := (hp.block_ok (Routine.lt_of_mem_preds hpred)).entries he s hpred
  refine ⟨?_, (hp.block_ok (Routine.lt_of_mem_succs hs)).branch ?_⟩
  · obtain ⟨x, hx⟩ := List.length_eq_one_iff.1 (Nat.le_antisymm hlen (List.length_pos_of_mem hs))
    rw [hx] at hs ⊢
    rw [List.mem_singleton.1 hs]
  · exact List.any_eq_true.2 ⟨t, hs, by simpa using he⟩

theorem count_succs (hp : p.Posed) (hm : p.routine.Mirrored) (hs : t ∈ p.routine.succs s) :
    (p.routine.succs s).count t = 1 := by
  have hpos := List.count_pos_iff.2 hs
  rcases Nat.lt_or_ge 1 ((p.routine.succs s).count t) with hlt | hge
  · have hlen := Nat.le_trans (hm s t ▸ hlt : 1 < (p.routine.preds t).count s) List.count_le_length
    have honly := (hp.only_succ hm hs (Nat.lt_of_lt_of_le hlen (Nat.le_add_right _ _))).1
    rw [honly] at hlt
    simp at hlt
  · omega

theorem nodup_succs (hp : p.Posed) (hm : p.routine.Mirrored) (s : Nat) : (p.routine.succs s).Nodup := by
  refine List.nodup_iff_count_le_one.2 fun t => ?_
  by_cases ht : t ∈ p.routine.succs s
  · exact Nat.le_of_eq (hp.count_succs hm ht)
  · rw [List.count_eq_zero.2 ht]
    exact Nat.zero_le 1

theorem nodup_preds (hp : p.Posed) (hm : p.routine.Mirrored) (t : Nat) : (p.routine.preds t).Nodup :=
  List.nodup_iff_count_le_one.2 fun s => hm s t ▸ List.nodup_iff_count_le_one.1 (hp.nodup_succs hm s) t

theorem idxOf?_succs (hp : p.Posed) (hm : p.routine.Mirrored) (hk : (p.routine.succs s)[k]? = some t) :
    (p.routine.succs s).idxOf? t = some k := by
  obtain ⟨hlt, hget⟩ := List.getElem?_eq_some_iff.1 hk
  refine List.findIdx?_eq_some_iff_getElem.2 ⟨hlt, by simp [hget], fun j hj => ?_⟩
  have hne : (p.routine.succs s)[j] ≠ (p.routine.succs s)[k] := fun he =>
    Nat.ne_of_lt hj ((hp.nodup_succs hm s).getElem_inj_iff.1 he)
  simpa [hget] using hne

/-! ## Live values -/

theorem span_mem (hp : p.Posed) (hb : b < p.routine.numBlocks) :
    p.routine.first b ∈ (p.routine.span b).toList ∧ p.routine.last b ∈ (p.routine.span b).toList ∧
      p.routine.last b + 1 = (p.routine.span b).stop := by
  have := hp.forward b hb
  simp only [Span.mem_toList, Routine.first, Routine.last, Span.last]
  omega

theorem into_iff (hp : p.Posed) (hb : b < p.routine.numBlocks) : (p.live.into b).get v = true ↔
    (p.liveAt b (p.routine.first b)).get v = true ∧ ∀ w ∈ p.routine.params b, w.num ≠ v := by
  rw [hp.settled.into b hb v]
  exact Routine.liveAtStart_iff

theorem into_of_liveInto (hp : p.Posed) (hb : b < p.routine.numBlocks) (h : p.routine.LiveInto v b) :
    (p.live.into b).get v = true :=
  (hp.into_iff hb).2 ⟨hp.liveAt_of_needed h.1, h.2⟩

end Posed

theorem liveAt_iff (h : i < (p.routine.span b).stop) : (p.liveAt b i).get v = true ↔
    (∃ op ∈ p.routine.operands i, op.isUse = true ∧ op.vreg.num = v) ∨
      (∀ op ∈ p.routine.operands i, op.writes = true → op.vreg.num ≠ v) ∧ (p.liveAt b (i + 1)).get v = true :=
  Routine.liveFrom_iff h

theorem liveAt_stop_iff : (p.liveAt b (p.routine.span b).stop).get v = true ↔
    (∃ w ∈ p.routine.allBranchArgs b, w.num = v) ∨ (p.live.outOf b).get v = true :=
  Routine.liveFrom_stop_iff

theorem liveAt_first_of_stop (hforward : (p.routine.span b).first ≤ (p.routine.span b).stop)
    (hkeep : ∀ i ∈ (p.routine.span b).toList, ∀ op ∈ p.routine.operands i, op.writes = true → op.vreg.num ≠ v)
    (h : (p.liveAt b (p.routine.span b).stop).get v = true) : (p.liveAt b (p.routine.first b)).get v = true := by
  refine Nat.decreasingInduction' (P := fun i => (p.liveAt b i).get v = true) (fun i hlt hge ih => ?_) hforward h
  exact (liveAt_iff hlt).2 (.inr ⟨hkeep i (Span.mem_toList.2 ⟨hge, hlt⟩), ih⟩)

namespace Posed

theorem live_at_end (hp : p.Posed) (hs : b ∈ p.routine.preds s) (h : (p.live.into s).get v = true) :
    (p.liveAt b (p.routine.span b).stop).get v = true :=
  liveAt_stop_iff.2 (.inr (hp.settled.outOf s (Routine.lt_of_mem_preds hs) b hs v h))

/-- A value without a definition is nowhere live. It would be live all the way back to the entry. -/
theorem not_live_of_undefined (hp : p.Posed) (hm : p.routine.Mirrored) (hv : ¬ p.routine.Defined v)
    (hb : p.routine.Reachable b) (hlt : b < p.routine.numBlocks) :
    (p.liveAt b (p.routine.span b).stop).get v = false := by
  have hback {b : Nat} (hlt : b < p.routine.numBlocks) (h : (p.liveAt b (p.routine.span b).stop).get v = true) :
      (p.live.into b).get v = true := by
    refine (hp.into_iff hlt).2 ⟨liveAt_first_of_stop (Nat.le_of_lt (hp.forward b hlt)) ?_ h, ?_⟩
    · intro i hi op hop hw he
      exact hv ⟨b, hlt, _, Routine.mem_mentionsIn hi hop, hw, he⟩
    · intro w hw he
      exact hv ⟨b, hlt, _, Routine.param_mem_mentionsIn hw, rfl, he⟩
  have hinto : (p.live.into b).get v = false := by
    clear hlt
    induction hb with
    | entry => exact hp.settled.entry v
    | step _ hs ih =>
        rw [Bool.eq_false_iff]
        intro h
        rw [hback (Routine.lt_of_mem_succs hs) (hp.live_at_end (hm.mem_iff.2 hs) h)] at ih
        cases ih
  rw [Bool.eq_false_iff]
  intro h
  rw [hback hlt h] at hinto
  cases hinto

theorem defined_of_arg (hp : p.Posed) (hm : p.routine.Mirrored) (hb : b < p.routine.numBlocks) {w : VirtReg}
    (hw : w ∈ p.routine.allBranchArgs b) : p.routine.Defined w.num := by
  by_contra hdef
  have hdead := hp.not_live_of_undefined hm hdef (hp.flows.reachable hb) hb
  rw [liveAt_stop_iff.2 (.inl ⟨w, hw, rfl⟩)] at hdead
  cases hdead

theorem value_occurs (hp : p.Posed) (hm : p.routine.Mirrored) {w : VirtReg} (hw : w ∈ p.routine.occurrences) :
    p.value w.num ∈ p.routine.occurrences := by
  obtain ⟨b, hb, m, hmem, hnum⟩ : ∃ b < p.routine.numBlocks, ∃ m ∈ p.routine.mentionsIn b, m.1.num = w.num := by
    obtain ⟨b, hb, ⟨m, hmem, rfl⟩ | harg⟩ := Routine.mem_occurrences.1 hw
    · exact ⟨b, hb, m, hmem, rfl⟩
    · obtain ⟨c, hc, m, hmem, -, hnum⟩ := hp.defined_of_arg hm hb harg
      exact ⟨c, hc, m, hmem, hnum⟩
  obtain ⟨c, hc, x, hx, hget⟩ := hp.valued.known b hb m hmem
  rw [hnum] at hget
  have hvalue : p.value w.num = x.1 := by simp [Problem.value, hget]
  exact Routine.mem_occurrences.2 ⟨c, hc, .inl ⟨x, hx, hvalue.symm⟩⟩

theorem value_eq (hp : p.Posed) (hm : p.routine.Mirrored) (hc : p.routine.OneClass) {w : VirtReg}
    (hw : w ∈ p.routine.occurrences) : p.value w.num = w :=
  hc _ (hp.value_occurs hm hw) _ hw (hp.num w.num)

end Posed

end Problem

end LinearScan
