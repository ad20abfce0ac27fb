import LinearScan.Proofs.TracePlans

/-!
# Lists of blocks that are given

Given lists are accepted as traces exactly if they share out the blocks, each of them is a path in the order of the
code, and the entry is in the first. Where in the first list the entry stands is not looked at: it may follow its only
predecessor there.
-/

namespace LinearScan

namespace Traces

variable {f : Routine} {t pos : Nat} {places : Places} {blocks : List Nat} {lists : List (List Nat)} {stop : Stop}

/-! ## Refusals -/

/-- A trace that is not accepted is refused, unless one of its blocks is the number that stands for no block. -/
theorem placeBlocks_error {prev : Option Nat} (hlast : ∀ b < places.size, (f.span b).hasLast = true)
    (hprev : ∀ a, prev = some a → (f.span a).hasLast = true) (h : placeBlocks f t prev pos blocks places = .error stop) :
    stop = .refused (.invalidTrace t) ∨ stop = .fault .outOfRange ∧ Index.unset ∈ blocks := by
  induction blocks generalizing prev pos places with
  | nil => cases h
  | cons b blocks ih =>
      rcases Except.bind_error h with h | ⟨_, -, h⟩
      · obtain ⟨hunset, rfl⟩ := Stop.demand_error h
        obtain rfl : b = Index.unset := by simpa [Index.isSet] using hunset
        exact .inr ⟨rfl, List.mem_cons_self⟩
      · split at h
        · rename_i hfree
          have hb := hlast b (Array.getElem?_eq_some_iff.1 hfree).1
          rcases Except.bind_error h with h | ⟨_, -, h⟩
          · have hcomparable : prev.all (comparable f · b) = true := by
              cases prev with
              | none => rfl
              | some a => exact comparable_of_hasLast (hprev a rfl) hb
            cases hcomparable.symm.trans (Stop.demand_error h).1
          · split at h
            · refine (ih (by simpa using hlast) (fun a ha => ?_) h).imp_right (And.imp_right (List.mem_cons_of_mem _))
              cases ha
              exact hb
            · cases h
              exact .inl rfl
        · cases h
          exact .inl rfl

theorem placeLists_error (hlast : ∀ b < places.size, (f.span b).hasLast = true)
    (h : placeLists f t lists places = .error stop) :
    (∃ n, stop = .refused (.invalidTrace n)) ∨ stop = .fault .outOfRange ∧ Index.unset ∈ lists.flatten := by
  induction lists generalizing t places with
  | nil => cases h
  | cons blocks lists ih =>
      cases blocks with
      | nil =>
          cases h
          exact .inl ⟨t, rfl⟩
      | cons b blocks =>
          rw [List.flatten_cons]
          rcases Except.bind_error h with h | ⟨mid, hmid, h⟩
          · exact (placeBlocks_error hlast (by simp) h).imp (fun he => ⟨t, he⟩) (And.imp_right (List.mem_append_left _))
          · refine (ih ?_ h).imp_right (And.imp_right (List.mem_append_right _))
            rw [(placeBlocks_spec hmid).1.size]
            exact hlast

/-- Lists that are not accepted are refused, unless one of the blocks is the number that stands for no block. -/
theorem ofLists_error (hentry : f.entry < f.numBlocks) (hlast : ∀ b < f.numBlocks, (f.span b).hasLast = true)
    (h : ofLists f lists = .error stop) :
    (∃ t, stop = .refused (.invalidTrace t)) ∨ stop = .fault .outOfRange ∧ Index.unset ∈ lists.flatten := by
  rcases Except.bind_error h with h | ⟨places, -, h⟩
  · exact placeLists_error (by simpa using hlast) h
  · split at h
    · cases h
      exact .inl ⟨_, rfl⟩
    · rcases Except.bind_error h with h | ⟨_, -, h⟩
      · have hblock : f.hasBlock f.entry = true := by simpa [Routine.hasBlock] using hentry
        cases hblock.symm.trans (Stop.demand_error h).1
      · dsimp only at h
        split at h
        · cases h
          exact .inl ⟨_, rfl⟩
        · cases h

/-! ## The place of the entry -/

theorem Accepted.entry_mem {ts : Traces} (h : Accepted f lists ts) : f.entry ∈ lists.headD [] := by
  obtain ⟨hlt, hof⟩ := h.entry
  obtain ⟨t, blocks, k, ht, hk⟩ := h.paths.exists_place hlt
  obtain rfl : t = 0 := (h.located t blocks k f.entry ht hk).1.symm.trans hof
  rw [List.headD_eq_head?_getD, List.head?_eq_getElem?, ht]
  exact List.mem_of_getElem? hk

theorem Paths.planned (h : Paths f lists) (hentry : f.entry ∈ lists.headD []) (hpreds : ∀ a, f.preds f.entry ≠ [a]) :
    Planned f lists := by
  cases lists with
  | nil => cases hentry
  | cons blocks more =>
      obtain ⟨before, rest, hblocks⟩ := List.append_of_mem hentry
      rcases List.eq_nil_or_concat before with rfl | ⟨before, a, rfl⟩
      · exact ⟨h, rest, more, by rw [show blocks = f.entry :: rest from hblocks]⟩
      · have hfollows : follows f a f.entry = true :=
          h.chained blocks List.mem_cons_self before a f.entry rest (by simpa using hblocks)
        simp only [follows, Bool.and_eq_true, beq_iff_eq] at hfollows
        exact absurd hfollows.1 (hpreds a)

/-- Lists are accepted exactly if they share out the blocks among paths and the entry is on the first of them. It heads
the first path if it has no predecessor or several. Other lists are refused, and the places of the blocks in lists that
are accepted are found. -/
theorem ofLists_exact (hentry : f.entry < f.numBlocks) (hsize : f.numBlocks ≤ Index.unset)
    (hlast : ∀ b < f.numBlocks, (f.span b).hasLast = true) (lists : List (List Nat)) :
    ((∃ ts, ofLists f lists = .ok ts) ↔ Paths f lists ∧ f.entry ∈ lists.headD []) ∧
    ((∀ a, f.preds f.entry ≠ [a]) → ((∃ ts, ofLists f lists = .ok ts) ↔ Planned f lists)) ∧
    (∀ stop, ofLists f lists = .error stop →
      (∃ t, stop = .refused (.invalidTrace t)) ∨ stop = .fault .outOfRange ∧ Index.unset ∈ lists.flatten) ∧
    ∀ ts, ofLists f lists = .ok ts → ∀ (t : Nat) (blocks : List Nat) (k b : Nat), lists[t]? = some blocks →
      blocks[k]? = some b → ts.of b = t ∧ ts.positionOf b = k := by
  have hlist : ∀ b < f.numBlocks, Listable f b := fun b hb => ⟨by simp only [Index.isSet, bne_iff_ne]; omega, hlast b hb⟩
  have hiff : (∃ ts, ofLists f lists = .ok ts) ↔ Paths f lists ∧ f.entry ∈ lists.headD [] := by
    constructor
    · rintro ⟨ts, hts⟩
      have haccepted := accepted_of_ofLists hts
      exact ⟨haccepted.paths, haccepted.entry_mem⟩
    · rintro ⟨hpaths, hmem⟩
      exact hpaths.exists_ofLists hlist hmem
  refine ⟨hiff, fun hpreds => ⟨fun hok => ?_, fun hplanned => ?_⟩, fun stop h => ofLists_error hentry hlast h,
    fun ts hts => (accepted_of_ofLists hts).located⟩
  · obtain ⟨hpaths, hmem⟩ := hiff.1 hok
    exact hpaths.planned hmem hpreds
  · obtain ⟨ts, hts, -⟩ := hplanned.exists_ofLists hlist
    exact ⟨ts, hts⟩

/-- A loop of two blocks that is entered at the second. -/
def enteredInside : Routine :=
  { Routine.assemble [{ instrs := [⟨.branch, [], .empty, []⟩], succs := [1], params := [] },
      { instrs := [⟨.branch, [], .empty, []⟩], succs := [0, 2], params := [] },
      { instrs := [⟨.ret, [], .empty, []⟩], succs := [], params := [] }] with entry := 1 }

theorem ofLists_exact_enteredInside : enteredInside.entry < enteredInside.numBlocks ∧
    enteredInside.numBlocks ≤ Index.unset ∧ (∀ b < enteredInside.numBlocks, (enteredInside.span b).hasLast = true) ∧
    Paths enteredInside [[0, 1], [2]] ∧ ¬ Planned enteredInside [[0, 1], [2]] ∧
    ∃ ts, ofLists enteredInside [[0, 1], [2]] = .ok ts ∧ ts.of enteredInside.entry = 0 ∧
      ts.positionOf enteredInside.entry = 1 := by
  have hts : ofLists enteredInside [[0, 1], [2]] = .ok ⟨#[[0, 1], [2]], #[0, 0, 1], #[0, 1, 0]⟩ := by decide +kernel
  obtain ⟨hiff, -, -, hlocated⟩ := ofLists_exact (f := enteredInside) (by decide) (by decide) (by decide) [[0, 1], [2]]
  have hplace := hlocated _ hts 0 [0, 1] 1 1 rfl rfl
  refine ⟨by decide, by decide, by decide, (hiff.1 ⟨_, hts⟩).1, fun hplanned => ?_, _, hts, hplace.1, hplace.2⟩
  obtain ⟨rest, more, hlists⟩ := hplanned.entry
  cases hlists

end Traces

end LinearScan
