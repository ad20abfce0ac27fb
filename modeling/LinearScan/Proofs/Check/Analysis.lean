import LinearScan.Check
import LinearScan.Proofs.Check.State

/-!
# The analysis ends in a consistent solution

When the queue of the analysis is empty, the state at the start of a block knows no more than the
state that leaves any reached predecessor, and the entry knows nothing. A property of searches that
every visit keeps holds of the result.
-/

namespace LinearScan

namespace Output

variable {f : Routine} {out : Output}

/-- The state at the start of block `b`. -/
def CheckSearch.stateAt (search : CheckSearch) (b : Nat) : CheckState :=
  search.states.getD b .unreached

variable (f out) in
/-- The state on the way from block `b` to block `t`, given the state at the start of `b`. -/
def leaving (s : CheckState) (b t : Nat) : CheckState :=
  (s.afterAll (out.steps f b)).afterAll (edgeSteps f b t)

theorem top_leaving {s : CheckState} (h : s.top = false) (b t : Nat) : (leaving f out s b t).top = false :=
  CheckState.top_afterAll (CheckState.top_afterAll h _) _

/-! ## Induction over the visits -/

/-- Visiting the first block of the queue again and again, until none is left, leads from one search to another. -/
inductive Settles (f : Routine) (out : Output) : CheckSearch → CheckSearch → Prop where
  | done {s : CheckSearch} : s.queue = [] → Settles f out s s
  | visit {s t : CheckSearch} {b : Nat} {rest : List Nat} : s.queue = b :: rest →
      Settles f out (visitCheck f out s b rest) t → Settles f out s t

theorem settles_of_settleCheck {n : Nat} {s t : CheckSearch} (h : settleCheck f out n s = some t) :
    Settles f out s t := by
  induction n generalizing s with
  | zero =>
      simp only [settleCheck] at h
      split at h
      · rename_i hq
        cases h
        exact .done (List.isEmpty_iff.1 hq)
      · cases h
  | succ n ih =>
      simp only [settleCheck] at h
      split at h
      · rename_i hq
        cases h
        exact .done hq
      · rename_i hq
        exact .visit hq (ih h)

theorem settleCheck_induct {I : CheckSearch → Prop}
    (hstep : ∀ s b rest, s.queue = b :: rest → I s → I (visitCheck f out s b rest)) {n : Nat}
    {s t : CheckSearch} (h : settleCheck f out n s = some t) (hs : I s) : I t ∧ t.queue = [] := by
  have hsettles := settles_of_settleCheck h
  clear h
  induction hsettles with
  | done hq => exact ⟨hs, hq⟩
  | visit hq _ ih => exact ih (hstep _ _ _ hq hs)

/-! ## Telling one successor -/

theorem stateAt_set {search : CheckSearch} {s : Nat} {new : CheckState} {q : List Nat} (t : Nat) :
    CheckSearch.stateAt { search with states := search.states.setIfInBounds s new, queue := q } t =
      if t = s ∧ s < search.states.size then new else search.stateAt t := by
  simp only [CheckSearch.stateAt, Array.getD_eq_getD_getElem?, Array.getElem?_setIfInBounds]
  by_cases hts : s = t
  · subst hts
    by_cases hs : s < search.states.size
    · simp [hs]
    · simp [hs]
  · have hst : ¬ t = s := fun e => hts e.symm
    simp [hts, hst]

/-- What telling successors keeps: states only lose knowledge, and a block whose state has changed
waits in the queue. -/
structure Lowered (old cur : CheckSearch) : Prop where
  size : cur.states.size = old.states.size
  below : ∀ s, (cur.stateAt s).Below (old.stateAt s)
  same : ∀ s, s ∉ cur.queue → cur.stateAt s = old.stateAt s
  queue : ∀ s ∈ old.queue, s ∈ cur.queue

theorem Lowered.refl (search : CheckSearch) : Lowered search search :=
  ⟨rfl, fun _ => CheckState.Below.refl _, fun _ _ => rfl, fun _ h => h⟩

theorem Lowered.trans {r s t : CheckSearch} (h : Lowered r s) (h' : Lowered s t) : Lowered r t where
  size := h'.size.trans h.size
  below u := (h'.below u).trans (h.below u)
  same u hu := (h'.same u hu).trans (h.same u fun hs => hu (h'.queue u hs))
  queue u hu := h'.queue u (h.queue u hu)

variable {b : Nat}

theorem tellSucc_of_same {state : CheckState} {cur : CheckSearch} {s : Nat}
    (h : ((state.afterAll (edgeSteps f b s)).meet (cur.stateAt s)).sameAs (cur.stateAt s) = true)
    (changed : List Nat) : tellSucc f b state (cur, changed) s = (cur, changed) := by
  simp only [tellSucc]
  exact if_pos h

theorem tellSucc_of_changed {state : CheckState} {cur : CheckSearch} {s : Nat}
    (h : ¬ ((state.afterAll (edgeSteps f b s)).meet (cur.stateAt s)).sameAs (cur.stateAt s) = true)
    (changed : List Nat) : (tellSucc f b state (cur, changed) s).1 = { cur with
      states := cur.states.setIfInBounds s ((state.afterAll (edgeSteps f b s)).meet (cur.stateAt s))
      queue := if cur.queue.contains s then cur.queue else cur.queue ++ [s] } := by
  simp only [tellSucc]
  exact congrArg Prod.fst (if_neg h)

theorem tellSucc_spec (state : CheckState) (cur : CheckSearch) (changed : List Nat) (s : Nat) :
    Lowered cur (tellSucc f b state (cur, changed) s).1 ∧
      (s < cur.states.size → ((tellSucc f b state (cur, changed) s).1.stateAt s).Below
        (state.afterAll (edgeSteps f b s))) := by
  have hl := CheckState.meet_below_left (state.afterAll (edgeSteps f b s)) (cur.stateAt s)
  have hr := CheckState.meet_below_right (state.afterAll (edgeSteps f b s)) (cur.stateAt s)
  by_cases hsame : ((state.afterAll (edgeSteps f b s)).meet (cur.stateAt s)).sameAs (cur.stateAt s) = true
  · rw [tellSucc_of_same hsame]
    exact ⟨Lowered.refl cur, fun _ => (CheckState.below_of_sameAs hsame).trans hl⟩
  · have hs : s ∈ if cur.queue.contains s then cur.queue else cur.queue ++ [s] := by
      split
      · rename_i hc
        exact List.contains_iff_mem.1 hc
      · simp
    rw [tellSucc_of_changed hsame]
    refine ⟨⟨by simp, fun t => ?_, fun t ht => ?_, fun t ht => ?_⟩, fun hlt => ?_⟩
    · rw [stateAt_set]
      split
      · rename_i hts
        rw [hts.1]
        exact hr
      · exact CheckState.Below.refl _
    · rw [stateAt_set, if_neg]
      rintro ⟨rfl, -⟩
      exact ht hs
    · change t ∈ if cur.queue.contains s then cur.queue else cur.queue ++ [s]
      split
      · exact ht
      · simp [ht]
    · rw [stateAt_set, if_pos ⟨rfl, hlt⟩]
      exact hl

theorem foldl_tellSucc_spec (state : CheckState) (ss : List Nat) (cur : CheckSearch) (changed : List Nat) :
    Lowered cur (ss.foldl (tellSucc f b state) (cur, changed)).1 ∧
      ∀ s ∈ ss, s < cur.states.size →
        ((ss.foldl (tellSucc f b state) (cur, changed)).1.stateAt s).Below
          (state.afterAll (edgeSteps f b s)) := by
  induction ss generalizing cur changed with
  | nil => exact ⟨Lowered.refl cur, by simp⟩
  | cons t rest ih =>
      obtain ⟨h1, h2⟩ := tellSucc_spec (f := f) (b := b) state cur changed t
      rw [List.foldl_cons]
      generalize tellSucc f b state (cur, changed) t = told at h1 h2 ⊢
      obtain ⟨h3, h4⟩ := ih told.1 told.2
      refine ⟨h1.trans h3, fun s hs hlt => ?_⟩
      rcases List.mem_cons.1 hs with rfl | hs
      · exact (h3.below s).trans (h2 hlt)
      · exact h4 s hs (h1.size ▸ hlt)

/-! ## Consistent searches -/

variable (f out) in
/-- Every reached block outside the queue has told its successors what leaves it, and the entry
knows nothing. -/
structure Consistent (search : CheckSearch) : Prop where
  size : search.states.size = f.numBlocks
  entry : f.entry < f.numBlocks → (search.stateAt f.entry).Below .blank
  edges : ∀ b s, b ∉ search.queue → (search.stateAt b).top = false → s ∈ f.succs b →
    s < f.numBlocks → (search.stateAt s).Below (leaving f out (search.stateAt b) b s)

variable (f out) in
theorem visitCheck_lowered (search : CheckSearch) (b : Nat) (rest : List Nat) :
    Lowered { search with queue := rest } (visitCheck f out search b rest) ∧
      ∀ s ∈ f.succs b, s < search.states.size →
        ((visitCheck f out search b rest).stateAt s).Below
          (leaving f out (search.stateAt b) b s) := by
  obtain ⟨h, hs⟩ := foldl_tellSucc_spec (f := f) (b := b)
    ((search.stateAt b).afterAll (out.steps f b)) (f.succs b) { search with queue := rest } []
  simp only [visitCheck, CheckSearch.stateAt] at h hs ⊢
  generalize (f.succs b).foldl _ _ = told at h hs ⊢
  exact ⟨⟨h.size, h.below, h.same, h.queue⟩, hs⟩

theorem Consistent.visitCheck {search : CheckSearch} {b : Nat} {rest : List Nat}
    (h : Consistent f out search) (hq : search.queue = b :: rest) :
    Consistent f out (visitCheck f out search b rest) := by
  obtain ⟨hl, htold⟩ := visitCheck_lowered f out search b rest
  refine ⟨hl.size.trans h.size, fun he => (hl.below f.entry).trans (h.entry he), ?_⟩
  intro b' s hb' htop hs hlt
  have hsame : (Output.visitCheck f out search b rest).stateAt b' = search.stateAt b' := hl.same b' hb'
  rw [hsame] at htop ⊢
  by_cases hbb : b' = b
  · subst hbb
    exact htold s hs (h.size ▸ hlt)
  · have hout : b' ∉ search.queue := by
      rw [hq]
      intro hm
      rcases List.mem_cons.1 hm with hm | hm
      · exact hbb hm
      · exact hb' (hl.queue b' hm)
    exact (hl.below s).trans (h.edges b' s hout htop hs hlt)

variable (f) in
/-- The search before the first visit. -/
def firstSearch : CheckSearch :=
  ⟨(Array.replicate f.numBlocks CheckState.unreached).setIfInBounds f.entry .blank, [f.entry], #[]⟩

theorem stateAt_firstSearch (b : Nat) :
    (firstSearch f).stateAt b =
      if b = f.entry ∧ b < f.numBlocks then .blank else .unreached := by
  simp only [firstSearch, CheckSearch.stateAt, Array.getD_eq_getD_getElem?,
    Array.getElem?_setIfInBounds, Array.getElem?_replicate, Array.size_replicate]
  by_cases hb : f.entry = b
  · subst hb
    by_cases hlt : f.entry < f.numBlocks
    · simp [hlt]
    · simp [hlt]
  · have hb' : ¬ b = f.entry := fun e => hb e.symm
    by_cases hlt : b < f.numBlocks
    · simp [hb, hb', hlt]
    · simp [hb, hb', hlt]

theorem consistent_firstSearch : Consistent f out (firstSearch f) where
  size := by simp [firstSearch]
  entry h := by
    rw [stateAt_firstSearch, if_pos ⟨rfl, h⟩]
    exact CheckState.Below.refl _
  edges b s hb htop _ _ := by
    rw [stateAt_firstSearch] at htop
    split at htop
    · rename_i h
      exact absurd (by simp [firstSearch, h.1]) hb
    · cases htop

theorem analyse_consistent {search : CheckSearch} (h : analyse f out = some search) :
    Consistent f out search ∧ search.queue = [] :=
  settleCheck_induct (fun _ _ _ hq hs => hs.visitCheck hq) h consistent_firstSearch

end Output

end LinearScan
