import LinearScan.Proofs.Liveness.Needed
import LinearScan.Proofs.Total

/-!
# Liveness is exact

The analysis ends within its bound: every visit but the first of a block needs a value that is new to the block.
And it lists only what is needed, since a value is passed on to a block from a successor that it is live into.
-/

namespace LinearScan

namespace IndexSet

variable {s t : IndexSet}

theorem exists_of_gains (h : s.gains t = true) : ∃ v, t.get v = true ∧ s.get v = false := by
  obtain ⟨k, hk, hne⟩ := List.any_eq_true.1 h
  have hbits : ¬ ∀ j < 64, (t.words.getD k 0).getLsbD j = true → (s.words.getD k 0).getLsbD j = true := by
    intro hall
    refine (bne_iff_ne.1 hne) (BitVec.eq_of_getLsbD_eq fun j hj => ?_)
    rw [BitVec.getLsbD_or]
    cases ht : (t.words.getD k 0).getLsbD j with
    | false => rw [Bool.or_false]
    | true => rw [Bool.or_true, hall j hj ht]
  simp only [not_forall, Bool.not_eq_true] at hbits
  obtain ⟨j, hj, htj, hsj⟩ := hbits
  have hdiv : (64 * k + j) / 64 = k := by omega
  have hmod : (64 * k + j) % 64 = j := by omega
  exact ⟨64 * k + j, by rw [get, hdiv, hmod]; exact htj, by rw [get, hdiv, hmod]; exact hsj⟩

end IndexSet

namespace Routine

variable {f : Routine} {b v : Nat} {live : IndexSet} {s s' : LiveSearch} {vs : Array VirtReg}

/-! ## The bound -/

/-- How many values may still be added to the set. -/
def lacking (f : Routine) (out : IndexSet) : Nat :=
  total ((List.range f.numValues).map fun v => if out.get v then 0 else 1)

/-- How many visits a search can still take. -/
def liveWeight (f : Routine) (s : LiveSearch) : Nat :=
  s.queue.length + total ((List.range f.numBlocks).map fun b => f.lacking (s.known.outOf b))

theorem lacking_union_le (out live : IndexSet) : f.lacking (out.union live) ≤ f.lacking out := by
  refine total_map_le fun v _ => ?_
  rw [IndexSet.get_union]
  cases out.get v <;> cases live.get v <;> simp

theorem lacking_union_lt {out : IndexSet} (hgain : out.gains live = true)
    (hlive : ∀ v, live.get v = true → v < f.numValues) : f.lacking (out.union live) < f.lacking out := by
  obtain ⟨v, hv, hnew⟩ := IndexSet.exists_of_gains hgain
  refine total_map_lt (a := v) (fun w _ => ?_) (List.mem_range.2 (hlive v hv)) ?_
  · rw [IndexSet.get_union]
    cases out.get w <;> cases live.get w <;> simp
  · simp [IndexSet.get_union, hv, hnew]

theorem outOf_tellPred (s : LiveSearch) (live : IndexSet) {q : Nat} (hq : q < s.known.liveOut.size) (x : Nat) :
    (tellPred live s q).known.outOf x = if q = x then (s.known.outOf q).union live else s.known.outOf x := by
  simp only [tellPred, Liveness.outOf, Array.getD_eq_getD_getElem?, Array.getElem?_setIfInBounds]
  by_cases hx : q = x
  · simp [hx, hx ▸ hq]
  · simp [hx]

theorem liveWeight_tellPred {q : Nat} (hsize : s.known.liveOut.size = f.numBlocks) (hq : q < f.numBlocks)
    (hlive : ∀ v, live.get v = true → v < f.numValues) : f.liveWeight (tellPred live s q) ≤ f.liveWeight s := by
  have hout := outOf_tellPred s live (hsize ▸ hq)
  have hle : ∀ b ∈ List.range f.numBlocks,
      f.lacking ((tellPred live s q).known.outOf b) ≤ f.lacking (s.known.outOf b) := by
    intro b _
    rw [hout]
    split
    · rename_i hqb
      exact hqb ▸ lacking_union_le _ _
    · exact Nat.le_refl _
  by_cases hgain : (s.known.outOf q).gains live = true
  · have hlt : total ((List.range f.numBlocks).map fun b => f.lacking ((tellPred live s q).known.outOf b)) <
        total ((List.range f.numBlocks).map fun b => f.lacking (s.known.outOf b)) := by
      refine total_map_lt hle (List.mem_range.2 hq) ?_
      rw [hout, if_pos rfl]
      exact lacking_union_lt hgain hlive
    have hqueue : (tellPred live s q).queue.length ≤ s.queue.length + 1 := by
      simp only [tellPred]
      split
      · simp
      · exact Nat.le_succ _
    simp only [liveWeight]
    omega
  · have hqueue : (tellPred live s q).queue = s.queue := by simp [tellPred, hgain]
    have := total_map_le hle
    simp only [liveWeight, hqueue]
    omega

theorem liveWeight_foldl {ps : List Nat} (hsize : s.known.liveOut.size = f.numBlocks)
    (hps : ∀ q ∈ ps, q < f.numBlocks) (hlive : ∀ v, live.get v = true → v < f.numValues) :
    f.liveWeight (ps.foldl (tellPred live) s) ≤ f.liveWeight s := by
  induction ps generalizing s with
  | nil => exact Nat.le_refl _
  | cons q ps ih =>
      have hq := hps q List.mem_cons_self
      have hsize' : (tellPred live s q).known.liveOut.size = f.numBlocks := by simp [tellPred, hsize]
      exact Nat.le_trans (ih hsize' fun x hx => hps x (List.mem_cons_of_mem _ hx)) (liveWeight_tellPred hsize hq hlive)

theorem LiveInv.liveWeight_visit {rest : List Nat} (hvs : f.Valued vs) (h : LiveInv f s)
    (hpreds : ∀ b, ∀ q ∈ f.preds b, q < f.numBlocks) (hq : s.queue = b :: rest) :
    f.liveWeight (f.visitLive s b rest) + 1 ≤ f.liveWeight s := by
  have hfold : f.liveWeight (f.visitLive s b rest) ≤ f.liveWeight { s with queue := rest } :=
    liveWeight_foldl h.sizeOut (hpreds b) fun v => hvs.liveAtStart_bounded (h.bounded b)
  have hrest : f.liveWeight { s with queue := rest } + 1 = f.liveWeight s := by
    simp only [liveWeight, hq, List.length_cons, Liveness.outOf]
    omega
  omega

theorem LiveInv.exists_settled {n : Nat} (hvs : f.Valued vs) (h : LiveInv f s)
    (hpreds : ∀ b, ∀ q ∈ f.preds b, q < f.numBlocks) (hn : f.liveWeight s ≤ n) :
    ∃ s', f.settleLive n s = some s' := by
  induction n generalizing s with
  | zero =>
      have hempty : s.queue = [] := List.eq_nil_of_length_eq_zero (by simp only [liveWeight] at hn; omega)
      exact ⟨s, by simp [settleLive, hempty]⟩
  | succ n ih =>
      cases hq : s.queue with
      | nil => exact ⟨s, by simp [settleLive, hq]⟩
      | cons b rest =>
          have hless := h.liveWeight_visit hvs hpreds hq
          obtain ⟨s', hs'⟩ := ih (h.visit hvs hpreds hq) (by omega)
          exact ⟨s', by simpa [settleLive, hq] using hs'⟩

/-! ## Only what is needed -/

/-- What is known of blocks is justified by ways on from them. -/
structure Justified (f : Routine) (l : Liveness) : Prop where
  into : ∀ b v, (l.into b).get v = true → f.LiveInto v b
  outOf : ∀ b v, (l.outOf b).get v = true → ∃ t, b ∈ f.preds t ∧ f.LiveInto v t

theorem needed_of_liveFrom {l : Liveness} {i : Nat}
    (hout : ∀ v, (l.outOf b).get v = true → ∃ t, b ∈ f.preds t ∧ f.LiveInto v t) (hlo : (f.span b).first ≤ i)
    (hhi : i ≤ (f.span b).stop) (h : (f.liveFrom l b i).get v = true) : f.Needed v b i := by
  induction hn : (f.span b).stop - i generalizing i with
  | zero =>
      obtain rfl : i = (f.span b).stop := by omega
      rcases liveFrom_stop_iff.1 h with ⟨w, hw, hv⟩ | hv
      · exact .argument hw hv
      · obtain ⟨t, ht, hneed, hparams⟩ := hout v hv
        exact .edge ht hparams hneed
  | succ n ih =>
      have hmem : i ∈ (f.span b).toList := Span.mem_toList.2 ⟨hlo, by omega⟩
      rcases (liveFrom_iff (Span.mem_toList.1 hmem).2).1 h with ⟨op, hop, huse, hv⟩ | ⟨hkeep, hnext⟩
      · exact .read hmem hop huse hv
      · exact .pass hmem hkeep (ih (by omega) (by omega) hnext (by omega))

theorem Justified.visit {rest : List Nat} (hspan : ∀ b, (f.span b).first ≤ (f.span b).stop)
    (hpreds : ∀ b, ∀ q ∈ f.preds b, q < f.numBlocks) (hinv : LiveInv f s) (h : Justified f s.known) :
    Justified f (f.visitLive s b rest).known := by
  have hsizes : ∀ q ∈ f.preds b, q < s.known.liveOut.size := fun q hq => hinv.sizeOut ▸ hpreds b q hq
  have ht : Told (f.liveAtStart b (s.known.outOf b)) (f.preds b) { s with queue := rest } _ := told_foldl hsizes
  have hstart : ∀ v, (f.liveAtStart b (s.known.outOf b)).get v = true → f.LiveInto v b := by
    intro v hv
    obtain ⟨hfirst, hparams⟩ := liveAtStart_iff.1 hv
    exact ⟨needed_of_liveFrom (h.outOf b) (Nat.le_refl _) (hspan b) hfirst, hparams⟩
  refine ⟨fun c v hv => ?_, fun c v hv => ?_⟩
  · rw [into_visitLive hsizes] at hv
    split at hv
    · rename_i hbc
      exact hbc.1 ▸ hstart v hv
    · exact h.into c v hv
  · rcases ht.only c v hv with hv | ⟨hc, hv⟩
    · exact h.outOf c v hv
    · exact ⟨b, hc, hstart v hv⟩

theorem Justified.settle {n : Nat} (hvs : f.Valued vs) (hspan : ∀ b, (f.span b).first ≤ (f.span b).stop)
    (hpreds : ∀ b, ∀ q ∈ f.preds b, q < f.numBlocks) (hinv : LiveInv f s) (h : Justified f s.known)
    (hs : f.settleLive n s = some s') : Justified f s'.known := by
  induction n generalizing s with
  | zero =>
      unfold settleLive at hs
      split at hs
      · cases hs
        exact h
      · cases hs
  | succ n ih =>
      unfold settleLive at hs
      split at hs
      · cases hs
        exact h
      · rename_i b rest hq
        exact ih (hinv.visit hvs hpreds hq) (h.visit hspan hpreds hinv) hs

/-! ## The result -/

variable {c : ControlFlow}

theorem justified_firstLive (c : ControlFlow) : Justified f (f.firstLive c).known := by
  refine ⟨fun b v hv => ?_, fun b v hv => ?_⟩
  · simp only [firstLive, Liveness.into, Array.getD_eq_getD_getElem?, Array.getElem?_replicate] at hv
    split at hv
    · simp at hv
    · simp at hv
  · rw [outOf_firstLive] at hv
    cases hv

theorem liveWeight_firstLive (hf : Flows f c) : f.liveWeight (f.firstLive c) ≤ f.liveBound := by
  have hqueue : (f.firstLive c).queue.length = f.numBlocks := hf.reached
  have hlacking : ∀ b, f.lacking ((f.firstLive c).known.outOf b) = f.numValues := by
    intro b
    simp only [lacking, outOf_firstLive, Bool.false_eq_true, if_false]
    rw [total_map_const, List.length_range, Nat.mul_one]
  simp only [liveWeight, hqueue, hlacking, total_map_const, List.length_range, liveBound]
  exact Nat.le_refl _

theorem exists_searchLive (hf : Flows f c) (hvs : f.Valued vs) (hpreds : ∀ b, ∀ q ∈ f.preds b, q < f.numBlocks) :
    ∃ s, f.searchLive c = some s :=
  (liveInv_firstLive hf).exists_settled hvs hpreds (liveWeight_firstLive hf)

theorem into_iff_liveInto (hf : Flows f c) (hvs : f.Valued vs) (hspan : ∀ b, (f.span b).first ≤ (f.span b).stop)
    (hpreds : ∀ b, ∀ q ∈ f.preds b, q < f.numBlocks) (hs : f.searchLive c = some s) (hb : b < f.numBlocks) :
    (s.known.into b).get v = true ↔ f.LiveInto v b := by
  have hstart := liveInv_firstLive hf
  constructor
  · exact ((justified_firstLive c).settle hvs hspan hpreds hstart hs).into b v
  · rintro ⟨hneeded, hparams⟩
    obtain ⟨hinv, hempty⟩ := hstart.settle hvs hpreds hs
    have hout : ∀ x, x ∉ s.queue := fun x => by simp [hempty]
    rw [hinv.into b hb (hout b)]
    refine liveAtStart_iff.2 ⟨?_, hparams⟩
    exact liveFrom_of_needed (fun x hx => hinv.into x hx (hout x)) (fun x hx => hinv.outOf x hx (hout x)) hneeded

end Routine

end LinearScan
