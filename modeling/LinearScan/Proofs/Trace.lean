import LinearScan.Trace
import LinearScan.Proofs.Routine
import LinearScan.Proofs.Run

/-!
# What an accepted partition is

Every block is in one trace, and the blocks of a trace follow each other in the code.
-/

namespace LinearScan

namespace Traces

variable {f : Routine} {ts : Traces} {t pos : Nat} {places places' : Places} {lists : List (List Nat)}

/-- Each block of the list but the first can follow the one before it. -/
def Chained (f : Routine) (blocks : List Nat) : Prop :=
  ∀ as a b bs, blocks = as ++ a :: b :: bs → follows f a b = true

theorem chained_cons {a : Nat} {blocks : List Nat} (h : Chained f blocks)
    (ha : ∀ b, blocks.head? = some b → follows f a b = true) : Chained f (a :: blocks) := by
  intro as x y bs heq
  cases as with
  | nil =>
      cases heq
      exact ha y rfl
  | cons z as =>
      obtain ⟨-, heq⟩ := List.cons.inj heq
      exact h as x y bs heq

/-- What placing the blocks of one trace from position `pos` on does. -/
structure PlacedBlocks (f : Routine) (t pos : Nat) (blocks : List Nat) (places places' : Places) : Prop where
  size : places'.size = places.size
  nodup : blocks.Nodup
  free : ∀ b ∈ blocks, places[b]? = some none
  placed : ∀ (k b : Nat), blocks[k]? = some b → places'[b]? = some (some (t, pos + k))
  others : ∀ b, b ∉ blocks → places'[b]? = places[b]?
  chained : Chained f blocks

theorem placeBlocks_spec {prev : Option Nat} {blocks : List Nat}
    (h : placeBlocks f t prev pos blocks places = .ok places') :
    PlacedBlocks f t pos blocks places places' ∧
      ∀ a b, prev = some a → blocks.head? = some b → follows f a b = true := by
  induction blocks generalizing prev pos places with
  | nil =>
      cases h
      refine ⟨⟨rfl, List.nodup_nil, by simp, by simp, fun _ _ => rfl, fun as a b bs heq => ?_⟩, by simp⟩
      simp at heq
  | cons b blocks ih =>
      obtain ⟨_, -, h⟩ := Except.bind_ok h
      split at h
      · rename_i hfree
        obtain ⟨_, -, h⟩ := Except.bind_ok h
        split at h
        · rename_i hprev
          obtain ⟨hp, hchain⟩ := ih h
          have hlt : b < places.size := (Array.getElem?_eq_some_iff.1 hfree).1
          have hset : (places.setIfInBounds b (some (t, pos)))[b]? = some (some (t, pos)) := by
            simp [hlt]
          have hnot : b ∉ blocks := by
            intro hb
            have := hp.free b hb
            rw [hset] at this
            cases this
          refine ⟨⟨?_, List.nodup_cons.2 ⟨hnot, hp.nodup⟩, fun x hx => ?_, fun k x hk => ?_, fun x hx => ?_, ?_⟩, ?_⟩
          · simpa using hp.size
          · rcases List.mem_cons.1 hx with rfl | hx
            · exact hfree
            · have hfx := hp.free x hx
              have hne : ¬ b = x := fun e => hnot (e ▸ hx)
              rwa [Array.getElem?_setIfInBounds, if_neg hne] at hfx
          · cases k with
            | zero =>
                cases hk
                exact (hp.others b hnot).trans hset
            | succ k =>
                rw [hp.placed k x hk, Nat.add_right_comm, Nat.add_assoc]
          · rw [List.mem_cons, not_or] at hx
            have hne : ¬ b = x := fun e => hx.1 e.symm
            rw [hp.others x hx.2, Array.getElem?_setIfInBounds, if_neg hne]
          · exact chained_cons hp.chained fun y hy => hchain b y rfl hy
          · intro a y ha hy
            cases hy
            rw [ha] at hprev
            simpa using hprev
        · cases h
      · cases h

/-- What placing lists of blocks does, the first list being trace `t`. -/
structure PlacedLists (f : Routine) (t : Nat) (lists : List (List Nat)) (places places' : Places) : Prop where
  size : places'.size = places.size
  nonempty : ∀ blocks ∈ lists, blocks ≠ []
  nodup : lists.flatten.Nodup
  free : ∀ b ∈ lists.flatten, places[b]? = some none
  placed : ∀ (n : Nat) (blocks : List Nat) (k b : Nat), lists[n]? = some blocks → blocks[k]? = some b →
    places'[b]? = some (some (t + n, k))
  others : ∀ b, b ∉ lists.flatten → places'[b]? = places[b]?
  chained : ∀ blocks ∈ lists, Chained f blocks

theorem placeLists_spec (h : placeLists f t lists places = .ok places') :
    PlacedLists f t lists places places' := by
  induction lists generalizing t places with
  | nil =>
      cases h
      exact ⟨rfl, by simp, by simp, by simp, by simp, fun _ _ => rfl, by simp⟩
  | cons blocks lists ih =>
      cases blocks with
      | nil => cases h
      | cons b0 blocks =>
          obtain ⟨mid, hmid, h⟩ := Except.bind_ok h
          obtain ⟨hp, -⟩ := placeBlocks_spec hmid
          have hl := ih h
          -- A block that has a place cannot be placed again.
          have hnot : ∀ x ∈ b0 :: blocks, x ∉ lists.flatten := by
            intro x hx hx'
            obtain ⟨k, hk⟩ := List.mem_iff_getElem?.1 hx
            have hfree := hl.free x hx'
            rw [hp.placed k x hk] at hfree
            cases hfree
          refine ⟨hl.size.trans hp.size, List.forall_mem_cons.2 ⟨List.cons_ne_nil _ _, hl.nonempty⟩, ?_, fun x hx => ?_,
            fun n bs k x hn hk => ?_, fun x hx => ?_, List.forall_mem_cons.2 ⟨hp.chained, hl.chained⟩⟩
          · rw [List.flatten_cons]
            exact List.nodup_append.2 ⟨hp.nodup, hl.nodup, fun x hx y hy he => hnot x hx (he ▸ hy)⟩
          · by_cases hx0 : x ∈ b0 :: blocks
            · exact hp.free x hx0
            · rw [← hp.others x hx0]
              exact hl.free x ((List.mem_append.1 hx).resolve_left hx0)
          · cases n with
            | zero =>
                cases hn
                rw [hl.others x (hnot x (List.mem_of_getElem? hk)), hp.placed k x hk, Nat.zero_add]
                rfl
            | succ n => rw [hl.placed n bs k x hn hk, Nat.add_right_comm, Nat.add_assoc]
          · rw [List.flatten_cons, List.mem_append, not_or] at hx
            rw [hl.others x hx.2, hp.others x hx.1]

/-! ## The partition -/

/-- Lists of all blocks, each block once, that make traces. -/
structure Paths (f : Routine) (lists : List (List Nat)) : Prop where
  nonempty : ∀ blocks ∈ lists, blocks ≠ []
  nodup : lists.flatten.Nodup
  mem : ∀ b, b ∈ lists.flatten ↔ b < f.numBlocks
  chained : ∀ blocks ∈ lists, Chained f blocks

theorem Paths.exists_place {b : Nat} (h : Paths f lists) (hb : b < f.numBlocks) :
    ∃ (t : Nat) (blocks : List Nat) (k : Nat), lists[t]? = some blocks ∧ blocks[k]? = some b := by
  obtain ⟨blocks, hblocks, hmem⟩ := List.mem_flatten.1 ((h.mem b).2 hb)
  obtain ⟨t, ht⟩ := List.mem_iff_getElem?.1 hblocks
  obtain ⟨k, hk⟩ := List.mem_iff_getElem?.1 hmem
  exact ⟨t, blocks, k, ht, hk⟩

/-- What is known of lists that are accepted, and of the traces made from them. -/
structure Accepted (f : Routine) (lists : List (List Nat)) (ts : Traces) : Prop where
  paths : Paths f lists
  made : ts.lists = lists.toArray
  located : ∀ (t : Nat) (blocks : List Nat) (k b : Nat), lists[t]? = some blocks → blocks[k]? = some b →
    ts.of b = t ∧ ts.positionOf b = k
  entry : f.entry < f.numBlocks ∧ ts.of f.entry = 0

theorem uncovered?_eq_none : uncovered? places = none ↔ ∀ b < places.size, places[b]? ≠ some none := by
  rw [uncovered?, Array.findIdx?_eq_none_iff]
  refine ⟨fun h b hb hnone => ?_, fun h x hx => ?_⟩
  · simpa using h none (Array.mem_of_getElem? hnone)
  · obtain ⟨b, hb, rfl⟩ := Array.getElem_of_mem hx
    cases hx : places[b] with
    | none => exact absurd (Array.getElem?_eq_some_iff.2 ⟨hb, hx⟩) (h b hb)
    | some p => rfl

theorem accepted_of_ofLists (h : ofLists f lists = .ok ts) : Accepted f lists ts := by
  obtain ⟨places, hplaces, h⟩ := Except.bind_ok h
  have hl := placeLists_spec hplaces
  split at h
  · cases h
  · rename_i hcover
    obtain ⟨_, hblock, h⟩ := Except.bind_ok h
    dsimp only at h
    split at h
    · cases h
    · rename_i hof
      cases h
      have hsize : places.size = f.numBlocks := by simpa using hl.size
      have hcovered := uncovered?_eq_none.1 (Option.not_isSome_iff_eq_none.1 hcover)
      refine ⟨⟨hl.nonempty, hl.nodup, fun b => ⟨fun hb => ?_, fun hb => ?_⟩, hl.chained⟩, rfl, fun t blocks k b ht hk => ?_,
        by simpa [Routine.hasBlock] using Stop.demand_ok hblock, Decidable.not_not.1 hof⟩
      · simpa using (Array.getElem?_eq_some_iff.1 (hl.free b hb)).1
      · refine Decidable.not_not.1 fun hnot => hcovered b (hsize ▸ hb) ?_
        rw [hl.others b hnot, Array.getElem?_replicate, if_pos hb]
      · have hplace := hl.placed t blocks k b ht hk
        rw [Nat.zero_add] at hplace
        simp [of, positionOf, hplace]

/-- Traces that partition the blocks of a routine. -/
structure Partition (f : Routine) (ts : Traces) : Prop where
  of_lt : ∀ b < f.numBlocks, ts.of b < ts.count
  mem_of : ∀ b < f.numBlocks, b ∈ ts.blocks (ts.of b)
  lt : ∀ t, ∀ b ∈ ts.blocks t, b < f.numBlocks
  of_eq : ∀ t, ∀ b ∈ ts.blocks t, ts.of b = t
  nodup : ∀ t, (ts.blocks t).Nodup
  chained : ∀ t, Chained f (ts.blocks t)

theorem Accepted.blocks_cases (h : Accepted f lists ts) (t : Nat) :
    lists[t]? = some (ts.blocks t) ∨ ts.blocks t = [] := by
  rw [Traces.blocks, h.made]
  cases ht : lists[t]? with
  | none => exact .inr (by simp [ht])
  | some blocks => exact .inl (by simp [ht])

theorem Accepted.blocks_eq {blocks : List Nat} (h : Accepted f lists ts) (ht : lists[t]? = some blocks) : ts.blocks t = blocks := by
  simp [Traces.blocks, h.made, ht]

theorem Accepted.partition (h : Accepted f lists ts) : Partition f ts := by
  have hmem {t b : Nat} (hb : b ∈ ts.blocks t) : lists[t]? = some (ts.blocks t) :=
    (h.blocks_cases t).resolve_right (List.ne_nil_of_mem hb)
  refine ⟨fun b hb => ?_, fun b hb => ?_, fun t b hb => ?_, fun t b hb => ?_, fun t => ?_, fun t => ?_⟩
  · obtain ⟨t, blocks, k, ht, hk⟩ := h.paths.exists_place hb
    rw [(h.located t blocks k b ht hk).1, count, h.made]
    exact (List.getElem?_eq_some_iff.1 ht).1
  · obtain ⟨t, blocks, k, ht, hk⟩ := h.paths.exists_place hb
    rw [(h.located t blocks k b ht hk).1, h.blocks_eq ht]
    exact List.mem_of_getElem? hk
  · exact (h.paths.mem b).1 (List.mem_flatten_of_mem (List.mem_of_getElem? (hmem hb)) hb)
  · obtain ⟨k, hk⟩ := List.mem_iff_getElem?.1 hb
    exact (h.located t _ k b (hmem hb) hk).1
  · rcases h.blocks_cases t with ht | ht
    · exact h.paths.nodup.sublist (List.sublist_flatten_of_mem (List.mem_of_getElem? ht))
    · rw [ht]
      exact List.nodup_nil
  · rcases h.blocks_cases t with ht | ht
    · exact h.paths.chained _ (List.mem_of_getElem? ht)
    · intro as a b bs heq
      simp [ht] at heq

theorem partition_of_lists (h : ofLists f lists = .ok ts) : Partition f ts :=
  (accepted_of_ofLists h).partition

theorem lists_of_ofLists (h : ofLists f lists = .ok ts) : ts.lists = lists.toArray :=
  (accepted_of_ofLists h).made

theorem partition_of_plan {plan : TracePlan} (h : f.traces plan = .ok ts) : Partition f ts := by
  obtain ⟨lists, -, h⟩ := Except.bind_ok h
  exact partition_of_lists h

theorem Partition.pairwise (h : Partition f ts) (hspan : ∀ b < f.numBlocks, (f.span b).first < (f.span b).stop)
    (t : Nat) : (ts.blocks t).Pairwise fun a b => (f.span a).stop ≤ (f.span b).first := by
  have hchain := h.chained t
  have hlt := h.lt t
  generalize ts.blocks t = blocks at hchain hlt
  induction blocks with
  | nil => exact List.Pairwise.nil
  | cons a blocks ih =>
      have htail : Chained f blocks := fun as x y bs heq => hchain (a :: as) x y bs (by rw [heq]; rfl)
      have hpair := ih htail fun b hb => hlt b (List.mem_cons_of_mem _ hb)
      refine List.pairwise_cons.2 ⟨fun b hb => ?_, hpair⟩
      cases blocks with
      | nil => cases hb
      | cons c blocks =>
          have hac : f.last a < f.first c := by
            have hf := hchain [] a c blocks rfl
            simp only [follows, Bool.and_eq_true, decide_eq_true_eq] at hf
            exact hf.2
          have ha := hspan a (hlt a List.mem_cons_self)
          have hc := hspan c (hlt c (by simp))
          have hle : (f.span a).stop ≤ (f.span c).first := by
            simp only [Routine.last, Routine.first, Span.last] at hac
            omega
          rcases List.mem_cons.1 hb with rfl | hb
          · exact hle
          · have hcb := List.rel_of_pairwise_cons hpair hb
            omega

end Traces

end LinearScan
