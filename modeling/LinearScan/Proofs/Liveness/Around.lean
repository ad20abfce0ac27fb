import LinearScan.Proofs.Agreement

/-!
# Ways around a trace

A trace is only entered at its head, and some way from the entry leads there without going through the trace. What
is live at a place of the trace without having been defined before it in the trace would be live all that way back
to the entry. So a value that the trace defines is nowhere live before its definition.
-/

namespace LinearScan

namespace Routine

variable {f : Routine} {l : Liveness} {vs : Array VirtReg} {blocks as bs : List Nat} {b c i j v : Nat}

/-! ## One definition -/

theorem eq_of_nodup_flatMap {α β : Type} {xs : List α} {g : α → List β} (h : (xs.flatMap g).Nodup) {x y : α} {z : β}
    (hx : x ∈ xs) (hy : y ∈ xs) (hzx : z ∈ g x) (hzy : z ∈ g y) : x = y := by
  by_contra hne
  have hsymm : Std.Symm (Function.onFun List.Disjoint g) := ⟨fun _ _ hd _ hl hr => hd hr hl⟩
  exact (List.nodup_flatMap.1 h).2.forall hx hy hne hzx hzy

theorem mem_definedBy {ms : List (VirtReg × Bool)} : v ∈ definedBy ms ↔ ∃ m ∈ ms, m.2 = true ∧ m.1.num = v := by
  simp only [definedBy, List.mem_map, List.mem_filter, and_assoc]

theorem definedBy_flatMap {α : Type} (xs : List α) (g : α → List (VirtReg × Bool)) :
    definedBy (xs.flatMap g) = xs.flatMap fun x => definedBy (g x) := by
  simp only [definedBy, List.filter_flatMap, List.map_flatMap]

theorem mem_definedBy_mentionsAt : v ∈ definedBy (f.mentionsAt i) ↔
    ∃ op ∈ f.operands i, op.writes = true ∧ op.vreg.num = v := by
  simp only [mem_definedBy, mentionsAt, List.mem_map]
  constructor
  · rintro ⟨m, ⟨op, hop, rfl⟩, hw, hv⟩
    exact ⟨op, hop, hw, hv⟩
  · rintro ⟨op, hop, hw, hv⟩
    exact ⟨_, ⟨op, hop, rfl⟩, hw, hv⟩

theorem mem_definedBy_mentionsIn : v ∈ definedBy (f.mentionsIn b) ↔
    (∃ w ∈ f.params b, w.num = v) ∨ ∃ i ∈ (f.span b).toList, v ∈ definedBy (f.mentionsAt i) := by
  rw [mentionsIn, definedBy_append, List.mem_append, definedBy_flatMap, List.mem_flatMap]
  refine or_congr_left ?_
  simp [definedBy]

theorem Valued.block_of_defined (h : f.Valued vs) (hb : b < f.numBlocks) (hc : c < f.numBlocks)
    (hvb : v ∈ definedBy (f.mentionsIn b)) (hvc : v ∈ definedBy (f.mentionsIn c)) : b = c := by
  have honce := h.once
  rw [definedBy_flatMap] at honce
  exact eq_of_nodup_flatMap honce (List.mem_range.2 hb) (List.mem_range.2 hc) hvb hvc

theorem Valued.param_ne_defined (h : f.Valued vs) (hb : b < f.numBlocks) {w : VirtReg} (hw : w ∈ f.params b)
    (hi : i ∈ (f.span b).toList) (hv : v ∈ definedBy (f.mentionsAt i)) : w.num ≠ v := by
  have hnodup := h.nodup_in hb (List.Sublist.refl (f.mentionsIn b))
  rw [mentionsIn, definedBy_append, definedBy_flatMap] at hnodup
  rintro rfl
  exact (List.nodup_append.1 hnodup).2.2 _ (mem_definedBy.2 ⟨(w, true), List.mem_map_of_mem hw, rfl, rfl⟩) _
    (List.mem_flatMap.2 ⟨i, hi, hv⟩) rfl

theorem Valued.instr_of_defined (h : f.Valued vs) (hb : b < f.numBlocks) (hi : i ∈ (f.span b).toList)
    (hj : j ∈ (f.span b).toList) (hvi : v ∈ definedBy (f.mentionsAt i)) (hvj : v ∈ definedBy (f.mentionsAt j)) :
    i = j := by
  have hnodup := h.nodup_in hb (List.sublist_append_right ((f.params b).map (·, true)) _)
  rw [definedBy_flatMap] at hnodup
  exact eq_of_nodup_flatMap hnodup hi hj hvi hvj

/-! ## Ways to the head -/

/-- A way from the entry leads to block `b` through none of the listed blocks, `b` apart. -/
inductive Around (f : Routine) (blocks : List Nat) : Nat → Prop where
  | entry : Around f blocks f.entry
  | step {b s : Nat} : Around f blocks b → b ∉ blocks → s ∈ f.succs b → Around f blocks s

theorem Around.eq_head (hm : f.Mirrored) (hchain : Traces.Chained f blocks)
    (hentry : f.entry ∈ blocks → blocks.head? = some f.entry) (h : f.Around blocks b) (hb : b ∈ blocks) :
    blocks.head? = some b := by
  cases h with
  | entry => exact hentry hb
  | @step q _ hq hout hs =>
      obtain ⟨as, bs, rfl⟩ := List.append_of_mem hb
      rcases List.eq_nil_or_concat as with rfl | ⟨as, a, rfl⟩
      · rfl
      · have hfollows := hchain as a b bs (by simp)
        simp only [Traces.follows, Bool.and_eq_true, beq_iff_eq] at hfollows
        have hpred := hm.mem_iff.2 hs
        rw [hfollows.1, List.mem_singleton] at hpred
        exact absurd (by simp [hpred]) hout

/-- Since its blocks can be reached, the head of a trace can be reached around it. -/
theorem Reachable.around (hm : f.Mirrored) (hchain : Traces.Chained f blocks)
    (hentry : f.entry ∈ blocks → blocks.head? = some f.entry) (h : f.Reachable b) :
    f.Around blocks b ∨ ∃ a, blocks.head? = some a ∧ f.Around blocks a := by
  induction h with
  | entry => exact .inl .entry
  | @step b s _ hs ih =>
      rcases ih with hb | hhead
      · by_cases hmem : b ∈ blocks
        · exact .inr ⟨b, hb.eq_head hm hchain hentry hmem, hb⟩
        · exact .inl (.step hb hmem hs)
      · exact .inr hhead

/-! ## Back to the entry -/

theorem liveFrom_first (hi : i ≤ (f.span b).stop) (hlo : f.first b ≤ i)
    (hkeep : ∀ j, f.first b ≤ j → j < i → v ∉ definedBy (f.mentionsAt j)) (h : (f.liveFrom l b i).get v = true) :
    (f.liveFrom l b (f.first b)).get v = true := by
  obtain ⟨n, rfl⟩ := Nat.exists_eq_add_of_le hlo
  induction n with
  | zero => exact h
  | succ n ih =>
      refine ih (by omega) (by omega) (fun j h1 h2 => hkeep j h1 (by omega)) ?_
      refine (liveFrom_iff (by omega)).2 (.inr ⟨fun op hop hw hv => ?_, h⟩)
      exact hkeep _ (by omega) (by omega) (mem_definedBy_mentionsAt.2 ⟨op, hop, hw, hv⟩)

theorem Settled.into_of_liveFrom (hl : f.Settled l) (hb : b < f.numBlocks) (hi : i ≤ (f.span b).stop)
    (hlo : f.first b ≤ i) (hparams : ∀ w ∈ f.params b, w.num ≠ v)
    (hkeep : ∀ j, f.first b ≤ j → j < i → v ∉ definedBy (f.mentionsAt j)) (h : (f.liveFrom l b i).get v = true) :
    (l.into b).get v = true := by
  rw [hl.into b hb]
  exact liveAtStart_iff.2 ⟨liveFrom_first hi hlo hkeep h, hparams⟩

theorem Settled.into_pred (hl : f.Settled l) (hspan : ∀ b, (f.span b).first ≤ (f.span b).stop) {q : Nat}
    (hb : b < f.numBlocks) (hq : q < f.numBlocks) (hpred : q ∈ f.preds b) (hkeep : v ∉ definedBy (f.mentionsIn q))
    (h : (l.into b).get v = true) : (l.into q).get v = true := by
  have hend : (f.liveFrom l q (f.span q).stop).get v = true :=
    liveFrom_stop_iff.2 (.inr (hl.outOf b hb q hpred v h))
  rw [mem_definedBy_mentionsIn, not_or] at hkeep
  refine hl.into_of_liveFrom hq (Nat.le_refl _) (hspan q) (fun w hw hv => hkeep.1 ⟨w, hw, hv⟩) (fun j h1 h2 hj => ?_)
    hend
  exact hkeep.2 ⟨j, Span.mem_toList.2 ⟨h1, h2⟩, hj⟩

/-- A value that only the listed blocks define is not live along a way around them. -/
theorem Around.not_into (hl : f.Settled l) (hm : f.Mirrored) (hspan : ∀ b, (f.span b).first ≤ (f.span b).stop)
    (hdef : ∀ c < f.numBlocks, c ∉ blocks → v ∉ definedBy (f.mentionsIn c)) (h : f.Around blocks b) :
    (l.into b).get v = false := by
  induction h with
  | entry => exact hl.entry v
  | @step b s _ hout hs ih =>
      have hb := lt_of_mem_succs hs
      have hpred := hm.mem_iff.2 hs
      rw [← Bool.not_eq_true]
      intro hlive
      rw [hl.into_pred hspan (lt_of_mem_preds hpred) hb hpred (hdef b hb hout) hlive] at ih
      cases ih

/-- A value that a trace defines in block `b` or later is not live in `b` before its definition. -/
theorem Settled.not_live_before {c : ControlFlow} (hl : f.Settled l) (hf : f.Flows c) (hm : f.Mirrored)
    (hspan : ∀ b, (f.span b).first ≤ (f.span b).stop) (hchain : Traces.Chained f blocks) (hnodup : blocks.Nodup)
    (hlt : ∀ b ∈ blocks, b < f.numBlocks) (hentry : f.entry ∈ blocks → blocks.head? = some f.entry)
    (hblocks : blocks = as ++ b :: bs)
    (hdef : ∀ c < f.numBlocks, c ∉ b :: bs → v ∉ definedBy (f.mentionsIn c)) (hparams : ∀ w ∈ f.params b, w.num ≠ v)
    (hlo : f.first b ≤ i) (hi : i ≤ (f.span b).stop)
    (hkeep : ∀ j, f.first b ≤ j → j < i → v ∉ definedBy (f.mentionsAt j)) : (f.liveFrom l b i).get v = false := by
  rw [← Bool.not_eq_true]
  intro hlive
  have hb : b < f.numBlocks := hlt b (by simp [hblocks])
  have hinto := hl.into_of_liveFrom hb hi hlo hparams hkeep hlive
  clear hlive hparams hkeep hlo hi
  -- back through the trace to its head, and from there around it to the entry
  induction as using List.reverseRecOn generalizing b bs with
  | nil =>
      have haround : f.Around blocks b := by
        rcases (hf.reachable hb).around hm hchain hentry with h | ⟨a, ha, h⟩
        · exact h
        · rw [hblocks] at ha
          cases ha
          exact h
      rw [haround.not_into hl hm hspan fun c hc hout => hdef c hc (by simpa [hblocks] using hout)] at hinto
      cases hinto
  | append_singleton as a ih =>
      have hsplit : blocks = as ++ a :: b :: bs := by simp [hblocks]
      have ha : a < f.numBlocks := hlt a (by simp [hsplit])
      have hfollows := hchain as a b bs hsplit
      simp only [Traces.follows, Bool.and_eq_true, beq_iff_eq] at hfollows
      have hout : a ∉ b :: bs := by
        rw [hsplit] at hnodup
        exact (List.nodup_cons.1 (List.nodup_append.1 hnodup).2.1).1
      refine ih hsplit (fun c hc hnot => hdef c hc fun hmem => hnot (List.mem_cons_of_mem _ hmem)) ha ?_
      exact hl.into_pred hspan hb ha (by simp [hfollows.1]) (hdef a ha hout) hinto

end Routine

end LinearScan
