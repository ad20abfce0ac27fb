import LinearScan.Proofs.Admissible
import LinearScan.Proofs.Trace
import Mathlib.Data.List.Nodup

/-!
# Plans that are accepted

The traces that are grown for a routine, and its blocks one by one, make partitions that are accepted. The entry heads
the first trace of both.
-/

namespace LinearScan

namespace Traces

variable {f : Routine} {t pos b : Nat} {places : Places} {blocks : List Nat} {lists : List (List Nat)}

theorem Chained.tail {a : Nat} (h : Chained f (a :: blocks)) : Chained f blocks :=
  fun as x y bs heq => h (a :: as) x y bs (by rw [heq, List.cons_append])

theorem Chained.head {a : Nat} (h : Chained f (a :: blocks)) (hb : blocks.head? = some b) : follows f a b = true := by
  cases blocks with
  | nil => cases hb
  | cons c blocks =>
      obtain rfl : c = b := Option.some.inj hb
      exact h [] a c blocks rfl

/-! ## Accepting lists -/

/-- Lists of all blocks, each block once, that make traces. The entry comes first. -/
structure Planned (f : Routine) (lists : List (List Nat)) : Prop extends Paths f lists where
  entry : ∃ rest more, lists = (f.entry :: rest) :: more

/-- The block has a number and a last instruction. -/
def Listable (f : Routine) (b : Nat) : Prop := Index.isSet b = true ∧ (f.span b).hasLast = true

theorem comparable_of_hasLast {a : Nat} (ha : (f.span a).hasLast = true) (hb : (f.span b).hasLast = true) :
    comparable f a b = true := by
  simp only [Span.hasLast, Bool.and_eq_true] at hb
  rw [comparable, hb.1.1, ha]
  exact Bool.or_true _

theorem exists_placeBlocks {prev : Option Nat} (hlist : ∀ b ∈ blocks, Listable f b)
    (hprev : ∀ a, prev = some a → Listable f a ∧ ∀ b, blocks.head? = some b → follows f a b = true)
    (hchain : Chained f blocks) (hnodup : blocks.Nodup) (hfree : ∀ b ∈ blocks, places[b]? = some none) :
    ∃ places', placeBlocks f t prev pos blocks places = .ok places' := by
  induction blocks generalizing prev pos places with
  | nil => exact ⟨places, rfl⟩
  | cons b blocks ih =>
      obtain ⟨⟨hset, hlast⟩, hlist⟩ := List.forall_mem_cons.1 hlist
      obtain ⟨hbfree, hfree⟩ := List.forall_mem_cons.1 hfree
      obtain ⟨hnew, hnodup⟩ := List.nodup_cons.1 hnodup
      have hfollows : prev.all (follows f · b) = true := by
        cases prev with
        | none => rfl
        | some a => exact (hprev a rfl).2 b rfl
      have hcomparable : prev.all (comparable f · b) = true := by
        cases prev with
        | none => rfl
        | some a => exact comparable_of_hasLast (hprev a rfl).1.2 hlast
      obtain ⟨places', hrest⟩ : ∃ places', placeBlocks f t (some b) (pos + 1) blocks
          (places.setIfInBounds b (some (t, pos))) = .ok places' := by
        refine ih hlist (fun a ha => ?_) hchain.tail hnodup fun x hx => ?_
        · cases ha
          exact ⟨⟨hset, hlast⟩, fun c hc => hchain.head hc⟩
        · have hne : b ≠ x := fun e => hnew (e ▸ hx)
          rw [Array.getElem?_setIfInBounds, if_neg hne, hfree x hx]
      refine ⟨places', ?_⟩
      rw [placeBlocks, hset, hbfree]
      simp only [Stop.demand, hcomparable, hfollows, if_true, bind, Except.bind, hrest]

theorem exists_placeLists (hlist : ∀ b ∈ lists.flatten, Listable f b) (hnonempty : ∀ blocks ∈ lists, blocks ≠ [])
    (hchain : ∀ blocks ∈ lists, Chained f blocks) (hnodup : lists.flatten.Nodup)
    (hfree : ∀ b ∈ lists.flatten, places[b]? = some none) : ∃ places', placeLists f t lists places = .ok places' := by
  induction lists generalizing t places with
  | nil => exact ⟨places, rfl⟩
  | cons blocks lists ih =>
      rw [List.flatten_cons] at hlist hnodup hfree
      obtain ⟨hhere, hrest, hapart⟩ := List.nodup_append.1 hnodup
      obtain ⟨hne, hnonempty⟩ := List.forall_mem_cons.1 hnonempty
      obtain ⟨hc, hchain⟩ := List.forall_mem_cons.1 hchain
      obtain ⟨mid, hmid⟩ : ∃ mid, placeBlocks f t none 0 blocks places = .ok mid :=
        exists_placeBlocks (fun b hb => hlist b (List.mem_append_left _ hb)) (by simp) hc hhere fun b hb =>
          hfree b (List.mem_append_left _ hb)
      obtain ⟨places', hplaces⟩ : ∃ places', placeLists f (t + 1) lists mid = .ok places' := by
        refine ih (fun b hb => hlist b (List.mem_append_right _ hb)) hnonempty hchain hrest fun b hb => ?_
        have hb' : b ∉ blocks := fun hmem => hapart b hmem b hb rfl
        rw [(placeBlocks_spec hmid).1.others b hb']
        exact hfree b (List.mem_append_right _ hb)
      refine ⟨places', ?_⟩
      cases blocks with
      | nil => exact absurd rfl hne
      | cons a blocks =>
          rw [placeLists, hmid]
          exact hplaces

theorem Paths.exists_ofLists (h : Paths f lists) (hlist : ∀ b < f.numBlocks, Listable f b)
    (hentry : f.entry ∈ lists.headD []) : ∃ ts, ofLists f lists = .ok ts := by
  obtain ⟨places, hplaces⟩ : ∃ places, place f lists = .ok places :=
    exists_placeLists (fun b hb => hlist b ((h.mem b).1 hb)) h.nonempty h.chained h.nodup fun b hb => by
      simp [(h.mem b).1 hb]
  have hspec := placeLists_spec hplaces
  have hcovered : uncovered? places = none := by
    refine uncovered?_eq_none.2 fun b hb hnone => ?_
    have hsize : places.size = f.numBlocks := by simpa using hspec.size
    obtain ⟨t, blocks, k, ht, hk⟩ := h.exists_place (hsize ▸ hb)
    cases hnone.symm.trans (hspec.placed t blocks k b ht hk)
  cases lists with
  | nil => cases hentry
  | cons blocks more =>
      have hblock : f.hasBlock f.entry = true := by
        simpa [Routine.hasBlock] using (h.mem f.entry).1 (List.mem_append_left _ hentry)
      have hfirst : (places.map fun p => (p.getD (0, 0)).1).getD f.entry 0 = 0 := by
        obtain ⟨k, hk⟩ := List.mem_iff_getElem?.1 hentry
        have hplace := hspec.placed 0 blocks k f.entry rfl hk
        simp [hplace]
      refine ⟨⟨(blocks :: more).toArray, places.map fun p => (p.getD (0, 0)).1, places.map fun p => (p.getD (0, 0)).2⟩, ?_⟩
      rw [ofLists, hplaces]
      simp only [bind, Except.bind, hcovered, Stop.demand, hblock, Traces.of, hfirst]
      rfl

theorem Planned.exists_ofLists (h : Planned f lists) (hlist : ∀ b < f.numBlocks, Listable f b) :
    ∃ ts, ofLists f lists = .ok ts ∧ (ts.blocks 0).head? = some f.entry := by
  obtain ⟨rest, more, hlists⟩ := h.entry
  obtain ⟨ts, hts⟩ := h.toPaths.exists_ofLists hlist (by simp [hlists])
  refine ⟨ts, hts, ?_⟩
  rw [(accepted_of_ofLists hts).blocks_eq (congrArg (·[0]?) hlists)]
  rfl

end Traces

namespace Routine

open Traces

variable {f : Routine} {c : ControlFlow} {depth : Nat → Nat} {covered covered' : Array Bool} {b s : Nat}
  {blocks order : List Nat}

/-! ## The order of the heads -/

theorem Flows.reversePostorder_eq (h : Flows f c) : ∃ rest, c.reversePostorder = f.entry :: rest := by
  obtain ⟨l, hl⟩ := List.getLast?_eq_some_iff.1 (postordered_of_postorder h.postorder).last
  exact ⟨l.reverse, by simp [ControlFlow.reversePostorder, hl]⟩

theorem Flows.nodup_reversePostorder (h : Flows f c) : c.reversePostorder.Nodup :=
  List.nodup_reverse.2 (postorder_spec h.postorder).1

theorem Flows.mem_reversePostorder (h : Flows f c) : b ∈ c.reversePostorder ↔ b < f.numBlocks := by
  rw [ControlFlow.reversePostorder, List.mem_reverse]
  exact ⟨fun hb => ((postorder_spec h.postorder).2 b hb).1, h.mem_postorder⟩

theorem Flows.planned_single (h : Flows f c) : Planned f (c.reversePostorder.map fun b => [b]) := by
  obtain ⟨rest, hrest⟩ := h.reversePostorder_eq
  have hflat : (c.reversePostorder.map fun b => [b]).flatten = c.reversePostorder := by
    simp [← List.flatMap_def]
  refine ⟨⟨by simp, hflat.symm ▸ h.nodup_reversePostorder, fun b => by rw [hflat, h.mem_reversePostorder], ?_⟩, [], ?_⟩
  · intro blocks hblocks as a b bs heq
    obtain ⟨x, -, rfl⟩ := List.mem_map.1 hblocks
    simp [List.cons_eq_append_iff] at heq
  · exact ⟨rest.map fun b => [b], by rw [hrest]; rfl⟩

/-! ## Growing -/

/-- The better of two blocks to go on with. -/
def deeper (depth : Nat → Nat) (best : Option Nat) (s : Nat) : Option Nat :=
  best.elim (some s) fun t => if depth t < depth s || (depth t == depth s && s < t) then some s else some t

theorem nextInTrace_eq (covers : Nat → Bool) : f.nextInTrace depth covers b =
    ((f.succs b).filter fun s => !covers s && follows f b s).foldl (deeper depth) none := by
  unfold nextInTrace
  dsimp only
  congr
  funext best s
  cases best with
  | none => rfl
  | some t => rfl

theorem mem_of_foldl_deeper {l : List Nat} {best : Option Nat} (h : l.foldl (deeper depth) best = some s) :
    s ∈ l ∨ best = some s := by
  induction l generalizing best with
  | nil => exact .inr h
  | cons x l ih =>
      rcases ih h with hs | hs
      · exact .inl (List.mem_cons_of_mem _ hs)
      · cases best with
        | none =>
            cases hs
            exact .inl List.mem_cons_self
        | some t =>
            simp only [deeper, Option.elim_some] at hs
            split at hs
            · cases hs
              exact .inl List.mem_cons_self
            · exact .inr hs

theorem nextInTrace_spec {covers : Nat → Bool} (h : f.nextInTrace depth covers b = some s) :
    covers s = false ∧ follows f b s = true := by
  rw [nextInTrace_eq] at h
  rcases mem_of_foldl_deeper h with hs | hs
  · simpa using (List.mem_filter.1 hs).2
  · cases hs

/-- What growing a trace from block `b` does. -/
structure Grown (f : Routine) (covered : Array Bool) (b : Nat) (grown : List Nat × Array Bool) : Prop where
  chained : Chained f grown.1
  nodup : grown.1.Nodup
  fresh : ∀ x ∈ grown.1, covered.getD x true = false
  covers : ∀ x, grown.2.getD x true = true ↔ covered.getD x true = true ∨ x ∈ grown.1
  head : ∀ x, grown.1.head? = some x → x = b

theorem getD_cover (hb : covered.getD b true = false) (x : Nat) :
    (covered.setIfInBounds b true).getD x true = true ↔ covered.getD x true = true ∨ x = b := by
  by_cases hx : x = b
  · subst hx
    by_cases hlt : x < covered.size
    · simp [hlt]
    · simp [hlt] at hb
  · have hx' : ¬ b = x := fun e => hx e.symm
    simp [hx, hx']

theorem grown_growFrom (f : Routine) (depth : Nat → Nat) (room : Nat) (hb : covered.getD b true = false) :
    Grown f covered b (f.growFrom depth room b covered) := by
  induction room generalizing b covered with
  | zero => exact ⟨fun as a b bs heq => by simp [growFrom] at heq, by simp [growFrom], by simp [growFrom],
      by simp [growFrom], by simp [growFrom]⟩
  | succ room ih =>
      rw [growFrom]
      split
      · refine ⟨fun as a b bs heq => ?_, by simp, by simpa using hb, fun x => ?_, by simp⟩
        · simp [List.cons_eq_append_iff] at heq
        · rw [getD_cover hb, List.mem_singleton]
      · rename_i s hs
        obtain ⟨hnew, hfollows⟩ := nextInTrace_spec hs
        have hrest := ih hnew
        have hsplit {x : Nat} (hx : x ∈ (f.growFrom depth room s (covered.setIfInBounds b true)).1) :
            covered.getD x true = false ∧ x ≠ b := by
          have hf := Bool.eq_false_iff.1 (hrest.fresh x hx)
          rw [ne_eq, getD_cover hb, not_or] at hf
          exact ⟨Bool.eq_false_iff.2 hf.1, hf.2⟩
        refine ⟨chained_cons hrest.chained fun x hx => ?_, ?_, ?_, fun x => ?_, by simp⟩
        · rw [hrest.head x hx]
          exact hfollows
        · exact List.nodup_cons.2 ⟨fun hmem => (hsplit hmem).2 rfl, hrest.nodup⟩
        · exact List.forall_mem_cons.2 ⟨hb, fun x hx => (hsplit hx).1⟩
        · rw [hrest.covers, getD_cover hb, List.mem_cons, or_assoc]

/-- What growing traces from the listed blocks does. -/
structure GrownAll (f : Routine) (order : List Nat) (covered : Array Bool) (lists : List (List Nat)) : Prop where
  nonempty : ∀ blocks ∈ lists, blocks ≠ []
  chained : ∀ blocks ∈ lists, Chained f blocks
  nodup : lists.flatten.Nodup
  fresh : ∀ x ∈ lists.flatten, covered.getD x true = false
  all : ∀ x ∈ order, covered.getD x true = true ∨ x ∈ lists.flatten

theorem head_growFrom {room : Nat} (hroom : 0 < room) : (f.growFrom depth room b covered).1.head? = some b := by
  cases room with
  | zero => omega
  | succ room =>
      rw [growFrom]
      split
      · rfl
      · rfl

theorem grownAll_growAll (depth : Nat → Nat) (hblocks : 0 < f.numBlocks) (order : List Nat) (covered : Array Bool) :
    GrownAll f order covered (f.growAll depth order covered) := by
  induction order generalizing covered with
  | nil => exact ⟨by simp [growAll], by simp [growAll], by simp [growAll], by simp [growAll], by simp⟩
  | cons b order ih =>
      rw [growAll]
      split
      · rename_i hb
        exact { ih covered with all := List.forall_mem_cons.2 ⟨.inl hb, (ih covered).all⟩ }
      · rename_i hb
        have hfirst := grown_growFrom f depth f.numBlocks (Bool.eq_false_iff.2 hb)
        have hrest := ih (f.growFrom depth f.numBlocks b covered).2
        have hhead : (f.growFrom depth f.numBlocks b covered).1.head? = some b := head_growFrom hblocks
        have hsplit {x : Nat} (hx : x ∈ (f.growAll depth order (f.growFrom depth f.numBlocks b covered).2).flatten) :
            covered.getD x true = false ∧ x ∉ (f.growFrom depth f.numBlocks b covered).1 := by
          have hf := Bool.eq_false_iff.1 (hrest.fresh x hx)
          rw [ne_eq, hfirst.covers, not_or] at hf
          exact ⟨Bool.eq_false_iff.2 hf.1, hf.2⟩
        refine ⟨List.forall_mem_cons.2 ⟨fun hnil => ?_, hrest.nonempty⟩,
          List.forall_mem_cons.2 ⟨hfirst.chained, hrest.chained⟩, ?_, fun x hx => ?_, ?_⟩
        · rw [hnil] at hhead
          cases hhead
        · rw [List.flatten_cons, List.nodup_append]
          refine ⟨hfirst.nodup, hrest.nodup, fun x hx y hy he => ?_⟩
          exact (hsplit hy).2 (he ▸ hx)
        · rw [List.flatten_cons] at hx
          rcases List.mem_append.1 hx with hx | hx
          · exact hfirst.fresh x hx
          · exact (hsplit hx).1
        · rw [List.flatten_cons]
          refine List.forall_mem_cons.2 ⟨.inr (List.mem_append_left _ (List.mem_of_head? hhead)), fun x hx => ?_⟩
          rcases hrest.all x hx with hx | hx
          · exact ((hfirst.covers x).1 hx).imp_right (List.mem_append_left _)
          · exact .inr (List.mem_append_right _ hx)

theorem Flows.planned_grown (h : Flows f c) : Planned f (f.growTraces c) := by
  have hcovered (b : Nat) : (Array.replicate f.numBlocks false).getD b true = false ↔ b < f.numBlocks := by
    by_cases hb : b < f.numBlocks
    · simp [hb]
    · simp [hb]
  have hpos : 0 < f.numBlocks := Nat.lt_of_le_of_lt (Nat.zero_le _) h.entry_lt
  have hall := grownAll_growAll c.depthOf hpos c.reversePostorder (Array.replicate f.numBlocks false)
  refine ⟨⟨hall.nonempty, hall.nodup, fun b => ⟨fun hb => (hcovered b).1 (hall.fresh b hb), fun hb => ?_⟩, hall.chained⟩,
    ?_⟩
  · refine (hall.all b (h.mem_reversePostorder.2 hb)).resolve_left ?_
    rw [(hcovered b).2 hb]
    exact Bool.false_ne_true
  · obtain ⟨rest, hrest⟩ := h.reversePostorder_eq
    have hfree := (hcovered f.entry).2 h.entry_lt
    rw [growTraces, hrest, growAll, hfree, if_neg Bool.false_ne_true]
    have hhead : (f.growFrom c.depthOf f.numBlocks f.entry (Array.replicate f.numBlocks false)).1.head? = some f.entry :=
      head_growFrom hpos
    obtain ⟨blocks, hblocks⟩ := List.head?_eq_some_iff.1 hhead
    exact ⟨blocks, _, congrArg (· :: _) hblocks⟩

/-! ## The plans -/

theorem Admissible.numBlocks_le (h : f.Admissible) : f.numBlocks ≤ f.numInstrs := by
  have hmem {b : Nat} (hb : b < f.numBlocks) : f.first b ∈ (f.span b).toList := by
    have hne := (h.block b hb).nonempty
    have hle := h.forward b hb
    exact Span.mem_toList.2 ⟨Nat.le_refl _, by simp only [first]; omega⟩
  have hnodup : ((List.range f.numBlocks).map f.first).Nodup := by
    refine List.Nodup.map_on (fun a ha b hb he => ?_) List.nodup_range
    have ha := List.mem_range.1 ha
    have hb := List.mem_range.1 hb
    exact h.apart a ha b hb _ (hmem ha) (he ▸ hmem hb)
  have hle := (hnodup.subperm fun i hi => ?_ : ((List.range f.numBlocks).map f.first).Subperm
    (List.range f.numInstrs)).length_le
  · simpa using hle
  · obtain ⟨b, hb, rfl⟩ := List.mem_map.1 hi
    have hb := List.mem_range.1 hb
    have hin := h.inRange b hb
    have hlt := (Span.mem_toList.1 (hmem hb)).2
    exact List.mem_range.2 (by omega)

theorem Admissible.listable (h : f.Admissible) (hb : b < f.numBlocks) : Listable f b := by
  have hne := (h.block b hb).nonempty
  have hle := h.forward b hb
  have hin := h.inRange b hb
  have hsmall := h.instrs
  have hblocks := h.numBlocks_le
  simp only [Listable, Index.isSet, Span.hasLast, Span.isEmpty, Bool.and_eq_true, bne_iff_ne, ne_eq, Bool.not_eq_true',
    beq_eq_false_iff_ne]
  exact ⟨by omega, ⟨hne, by omega⟩, by omega⟩

/-- Both ways to partition a routine give traces, and the entry heads the first of them. -/
theorem Admissible.exists_traces (h : f.Admissible) {plan : TracePlan} (hplan : plan = .grown ∨ plan = .single) :
    ∃ ts, f.traces plan = .ok ts ∧ (ts.blocks 0).head? = some f.entry := by
  obtain ⟨c, hc⟩ := h.exists_controlFlow
  have hflows := flows_of_controlFlow hc
  obtain ⟨lists, hlists, hplanned⟩ : ∃ lists, f.planned plan = .ok lists ∧ Planned f lists := by
    rcases hplan with rfl | rfl
    · exact ⟨f.growTraces c, by rw [planned, hc]; rfl, hflows.planned_grown⟩
    · exact ⟨c.reversePostorder.map fun b => [b], by rw [planned, hc]; rfl, hflows.planned_single⟩
  obtain ⟨ts, hts, hentry⟩ := hplanned.exists_ofLists fun b => h.listable
  exact ⟨ts, by rw [traces, hlists]; exact hts, hentry⟩

end Routine

end LinearScan
