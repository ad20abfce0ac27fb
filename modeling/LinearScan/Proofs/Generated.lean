import LinearScan.Proofs.Generate.Code

/-!
# Generated routines can be allocated

Whatever a source answers, a routine that is made from its answers passes all checks, can be divided into traces either
way, and is given registers on the standard machine.
-/

namespace LinearScan

namespace Generate

open Gen Run Routine

/-! ## Dominators -/

section

variable {edges : List (Nat × Nat)} {n b d : Nat}

theorem succs_toArray (g : Nat → List Nat) (n b : Nat) :
    Graph.succs ((List.range n).map g).toArray b = if b < n then g b else [] := by
  rw [Graph.succs, Array.getD_eq_getD_getElem?, List.getElem?_toArray, List.getElem?_map]
  by_cases hb : b < n
  · simp [hb]
  · simp [hb]

theorem Shapely.mem_postorder (h : Shapely n edges) (hb : b < n) :
    b ∈ Graph.postorder ((List.range n).map (succsOf edges)).toArray 0 := by
  induction b using Nat.strongRecOn with
  | ind b ih =>
      rcases Nat.eq_zero_or_pos b with rfl | hpos
      · exact Graph.entry_mem_postorder (by simpa using hb)
      · obtain ⟨j, hj, hedge⟩ := h.reach b hpos hb
        refine Graph.succ_mem_postorder (ih j hj (by omega)) ?_ (by simpa using hb)
        rw [succs_toArray, if_pos (by omega)]
        exact mem_succsOf.2 hedge

theorem Shapely.above_pred (h : Shapely n edges) (hd : (dominatorTree n edges).Above d b) :
    ∀ q ∈ predsOf edges b, q = d ∨ (dominatorTree n edges).Above d q := by
  intro q hq
  have hedge := h.edge _ (mem_predsOf.1 hq)
  refine Graph.above_pred (by simpa using by omega) (by simp) (fun a t ht => ?_) hd ?_ (h.mem_postorder hedge.1)
  · rw [succs_toArray] at ht ⊢
    split at ht
    · have hmem := mem_succsOf.1 ht
      rw [if_pos (h.edge _ hmem).2.2]
      exact mem_predsOf.2 hmem
    · cases ht
  · rw [succs_toArray, if_pos hedge.2.2]
    exact hq

end

/-! ## The descriptions -/

section

variable {edges : List (Nat × Nat)} {n b d : Nat} {vs : List BlockValues} {specs : List BlockSpec}

theorem Numbered.proper_getD (h : Numbered 0 vs) (d : Nat) : (vs.toArray.getD d default).Proper := by
  rw [Array.getD_eq_getD_getElem?, List.getElem?_toArray]
  rcases hd : vs[d]? with _ | b
  · exact ⟨.refl _, fun v hv => absurd hv List.not_mem_nil, Nat.zero_le _, Nat.zero_le _⟩
  · exact h.proper b (List.mem_of_getElem? hd)

theorem Shapely.length_succsOf_le (h : Shapely n edges) (b : Nat) : (succsOf edges b).length ≤ 2 := by
  rcases h.narrow b with hone | hfork
  · omega
  · exact hfork.1

theorem Numbered.total_le (h : Numbered 0 vs) : total (vs.map fun b => b.all.length) ≤ 10 * vs.length := by
  refine Nat.le_trans (total_map_le fun b hb => (h.proper b hb).few) ?_
  rw [total_map_const, Nat.mul_comm]

theorem flatMap_getD (hlength : vs.length = n) :
    ((List.range n).flatMap fun b => (vs.toArray.getD b default).all) = vs.flatMap BlockValues.all := by
  have hmap : (List.range n).map (fun b => (vs.toArray.getD b default).all) = vs.map BlockValues.all := by
    refine List.ext_getElem (by simp [hlength]) fun b _ hb => ?_
    have hlt : b < vs.length := by simpa using hb
    simp [hlt]
  rw [List.flatMap_def, hmap, ← List.flatMap_def]

/-- The numbers of all values: those of the blocks, and after them the ones that were made to be passed on. -/
theorem Numbered.perm_range (h : Numbered 0 vs) (hlength : vs.length = n) {count : Nat} (hperm :
    ((specs.flatMap BlockSpec.defs).map VirtReg.num).Perm
      (((List.range n).flatMap fun b => (vs.toArray.getD b default).all).map VirtReg.num ++
        List.range' (total (vs.map fun b => b.all.length)) count)) :
    ((specs.flatMap BlockSpec.defs).map VirtReg.num).Perm
      (List.range (total (vs.map fun b => b.all.length) + count)) := by
  rw [flatMap_getD hlength, h.nums] at hperm
  rw [List.range_eq_range', ← List.range'_append_1, Nat.zero_add]
  exact hperm

theorem describes_of_getElem? {tree : Graph.Tree} (h : List.Forall₂ (Describes tree vs.toArray edges) (List.range n) specs)
    {spec : BlockSpec} (hb : specs[b]? = some spec) : Describes tree vs.toArray edges b spec := by
  obtain ⟨hlength, hget⟩ := List.forall₂_iff_get.1 h
  obtain ⟨hlt, rfl⟩ := List.getElem?_eq_some_iff.1 hb
  simpa using hget b (hlength ▸ hlt) hlt

theorem inherits_of_outer {tree : Graph.Tree} (hlength : vs.length = n)
    (h : List.Forall₂ (Describes tree vs.toArray edges) (List.range n) specs) {v : VirtReg}
    (hv : Site.Outer ⟨b, tree, vs.toArray⟩ v) : Inherits specs tree.Above b v := by
  obtain ⟨d, hd, hv⟩ := hv
  have hsize : specs.length = vs.length := by simpa [hlength] using h.length_eq.symm
  rcases hspec : specs[d]? with _ | spec
  · have hge := List.getElem?_eq_none_iff.1 hspec
    have hnone : vs[d]? = none := List.getElem?_eq_none_iff.2 (hsize ▸ hge)
    simp only [Site.valuesOf, Array.getD_eq_getD_getElem?, List.getElem?_toArray, hnone] at hv
    cases hv
  · exact ⟨d, spec, hd, hspec, (describes_of_getElem? h hspec).covers v hv⟩

theorem arity_eq {tree : Graph.Tree} (hlength : vs.length = n)
    (h : List.Forall₂ (Describes tree vs.toArray edges) (List.range n) specs) :
    arity specs = fun t => (vs.toArray.getD t default).params.length := by
  funext t
  have hsize : specs.length = vs.length := by simpa [hlength] using h.length_eq.symm
  rcases hspec : specs[t]? with _ | spec
  · have hge := List.getElem?_eq_none_iff.1 hspec
    have hnone : vs[t]? = none := List.getElem?_eq_none_iff.2 (hsize ▸ hge)
    rw [arity, hspec, Array.getD_eq_getD_getElem?, List.getElem?_toArray, hnone]
    rfl
  · rw [arity, hspec, ← (describes_of_getElem? h hspec).params]
    rfl

theorem described (hpos : 1 ≤ n) (hfew : n ≤ 24) (hshape : Shapely n edges) (hlength : vs.length = n) (hvs : Numbered 0 vs)
    (hspecs : List.Forall₂ (Describes (dominatorTree n edges) vs.toArray edges) (List.range n) specs) {count : Nat}
    (hcount : count ≤ 6 * n) (hnums : ((specs.flatMap BlockSpec.defs).map VirtReg.num).Perm
      (List.range (total (vs.map fun b => b.all.length) + count))) :
    Described specs edges (dominatorTree n edges).Above := by
  have htotal := hvs.total_le
  have hsize : specs.length = n := by simpa using hspecs.length_eq.symm
  exact {
    nonempty := by omega
    few := by omega
    shape := hsize.symm ▸ hshape
    succs := fun b spec hb => (describes_of_getElem? hspecs hb).succs
    proper := fun b spec hb => by
      rw [arity_eq hlength hspecs]
      exact (describes_of_getElem? hspecs hb).proper.mono fun v hv => inherits_of_outer hlength hspecs hv
    num := fun v hv => by
      have := List.mem_range.1 (hnums.mem_iff.1 (List.mem_map_of_mem hv))
      omega
    scalar := fun v hv => by
      obtain ⟨spec, hspec, hv⟩ := List.mem_flatMap.1 hv
      obtain ⟨b, hb⟩ := List.mem_iff_getElem?.1 hspec
      exact (describes_of_getElem? hspecs hb).scalar v hv
    once := hnums.nodup_iff.2 List.nodup_range
    entry := Graph.not_above_entry _ _
    pred := fun d b hd => hshape.above_pred hd }

end

theorem ensures_routine {σ : Type} [Source σ] (opts : GenerateOptions) : Ensures (routine opts : Gen σ Routine) fun f =>
    ∃ specs edges above, f = layOut specs edges ∧ Described specs edges above := by
  unfold routine
  refine (ensures_between (by decide)).bind fun n hn => (ensures_graph opts n).bind fun edges hshape => ?_
  refine (ensures_values opts n 0 0).bind fun vs hvs => ?_
  obtain ⟨hlength, hvs⟩ := hvs
  refine (ensures_blocks opts hvs.proper_getD hshape.length_succsOf_le (List.range n) _).bind fun specs hspecs => ?_
  obtain ⟨hspecs, count, hcount, hperm⟩ := hspecs
  rw [List.length_range] at hcount
  exact .pure ⟨specs, edges, _, rfl, described hn.1 hn.2 hshape hlength hvs hspecs hcount (hvs.perm_range hlength hperm)⟩

/-! ## Checks and allocation -/

theorem standard_wellMade : Machine.standard.WellMade where
  nodup c := by cases c <;> decide
  legible c := by cases c <;> decide
  scratch c r hr := by cases c <;> cases hr

theorem standard_classed : Machine.standard.Classed where
  nodup c := by cases c <;> decide
  cls c := by cases c <;> decide

namespace Described

variable {specs : List BlockSpec} {edges : List (Nat × Nat)} {above : Nat → Nat → Prop}

/-- The checks of a routine that is laid out from descriptions that fit together. -/
theorem checks (h : Described specs edges above) : ∃ c vs, (layOut specs edges).controlFlow = .ok c ∧
    (layOut specs edges).values = .ok vs ∧ (layOut specs edges).checkSingleAssignment = .ok () ∧
    ∀ e, ¬ Stops ((layOut specs edges).liveness c) e := by
  have hadmissible := h.admissible
  obtain ⟨c, hc⟩ := hadmissible.exists_controlFlow
  obtain ⟨vs, hvs⟩ := h.definesOnce.exists_values
  have hspan := forward_of_blocks hadmissible.forward
  have hlive := h.supplied.liveness_not_stops (flows_of_controlFlow hc) (valued_of_values hvs) hspan hadmissible.preds
  obtain ⟨live, log', hlog⟩ := Run.exists_ok hlive #[]
  exact ⟨c, vs, hc, hvs, checkSingleAssignment_of_liveness h.mirrored hspan hc hvs ⟨#[], log', hlog⟩, hlive⟩

theorem definedBefore (h : Described specs edges above) {v : Nat} {path : List Place} {last : Place}
    (hpath : (layOut specs edges).Path ((layOut specs edges).startOf (layOut specs edges).entry) path last)
    (hread : (layOut specs edges).ReadsAt v last) : (layOut specs edges).DefinedBefore v path last := by
  refine Classical.byContradiction fun hnot => ?_
  exact h.supplied.not_liveInto ((liveInto_iff_exposed h.mirrored).2 ⟨path, last, hpath, hread, hnot⟩)

theorem allocate_not_stops (h : Described specs edges above) {plan : TracePlan} {ts : Traces} {o : Options}
    (hts : (layOut specs edges).traces plan = .ok ts) (hentry : (ts.blocks 0).head? = some (layOut specs edges).entry)
    (e : Stop) : ¬ Stops ((layOut specs edges).allocate .standard ts o) e := by
  obtain ⟨c, vs, hc, hvs, hsingle, hlive⟩ := h.checks
  have hunnamed : (layOut specs edges).Unnamed .standard := fun c r hr => by cases c <;> cases hr
  exact h.served.allocate_not_stops h.wellMade (fun b _ op hop => h.role_ne_temp _ hop) standard_wellMade standard_classed
    hunnamed hts hentry (problem_not_stops hc hsingle hvs hlive) e

end Described

/-- A generated routine is valid: every value is defined before it is read, on every way to the read. It can be divided
into traces either way, and the standard machine has registers for it, whatever the options of the allocation are. -/
theorem routine_allocates {σ : Type} [Source σ] (opts : GenerateOptions) {s s' : σ} {f : Routine}
    (h : routine opts s = .ok (f, s')) :
    f.checkSingleAssignment = .ok () ∧
    (∃ c, f.controlFlow = .ok c ∧ ∀ log, ∃ live log', f.liveness c log = .ok live log') ∧
    (∀ v path last, f.Path (f.startOf f.entry) path last → f.ReadsAt v last → f.DefinedBefore v path last) ∧
    ∀ plan, plan = TracePlan.grown ∨ plan = .single → ∃ ts, f.traces plan = .ok ts ∧
      ∀ o log, ∃ out log', f.allocate .standard ts o log = .ok out log' := by
  obtain ⟨specs, edges, above, rfl, hspecs⟩ := ensures_routine opts s f s' h
  obtain ⟨c, -, hc, -, hsingle, hlive⟩ := hspecs.checks
  refine ⟨hsingle, ⟨c, hc, Run.exists_ok hlive⟩, fun v path last => hspecs.definedBefore, fun plan hplan => ?_⟩
  obtain ⟨ts, hts, hentry⟩ := hspecs.admissible.exists_traces hplan
  exact ⟨ts, hts, fun o => Run.exists_ok (hspecs.allocate_not_stops hts hentry)⟩

theorem exists_of_any {ε α : Type} (x : Except ε α) (test : α → Bool) (h : x.toOption.any test = true) :
    ∃ a, x = .ok a ∧ test a = true := by
  cases x with
  | error e => cases h
  | ok a => exact ⟨a, rfl, h⟩

/-- A routine with a fork and a merge, with parameters, fixed registers and clobbers. -/
theorem routine_allocates_fork : ∃ f s', routine ⟨true, true, true, true, true, true, true⟩
      (ByteSource.ofBytes (3 :: ByteSource.filler 29 150)) = .ok (f, s') ∧
    (List.range f.numBlocks).map f.succs = [[1, 2], [3], [3], []] ∧ f.numInstrs = 16 ∧
    f.checkSingleAssignment = .ok () ∧ ∃ ts, f.traces .grown = .ok ts ∧
      ∃ out log', f.allocate .standard ts ⟨true, ⟨false, false, false⟩⟩ #[] = .ok out log' := by
  obtain ⟨⟨f, s'⟩, hf, htest⟩ := exists_of_any (routine ⟨true, true, true, true, true, true, true⟩
    (ByteSource.ofBytes (3 :: ByteSource.filler 29 150)))
    (fun r => (List.range r.1.numBlocks).map r.1.succs = [[1, 2], [3], [3], []] && r.1.numInstrs = 16) (by decide +kernel)
  simp only [Bool.and_eq_true, decide_eq_true_eq] at htest
  obtain ⟨hsingle, -, -, hplans⟩ := routine_allocates _ hf
  obtain ⟨ts, hts, hrun⟩ := hplans .grown (.inl rfl)
  exact ⟨f, s', hf, htest.1, htest.2, hsingle, ts, hts, hrun _ _⟩

end Generate

end LinearScan
