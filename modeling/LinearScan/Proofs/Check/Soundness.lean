import LinearScan.Proofs.Check.Analysis
import LinearScan.Proofs.Execution
import LinearScan.Routine.Assemble

/-!
# What a passed check says about running the code

A symbolic state describes a configuration if every location that it lists holds the current values
of what it lists there. Steps keep this, and so does entering a block whose state knows no more than
what was told to it. Unknown contents are where this can go wrong: they count as listing everything
when states meet, and so a location may be known at the start of a block although it is unknown on
one of the ways into it. A passed check is only worth something for results without such a location.
-/

namespace LinearScan

variable {α : Type}

namespace CheckState

variable {s : CheckState} {c : Config α}

/-- Does every location that the state lists hold the values that it lists there? -/
def Describes (s : CheckState) (c : Config α) : Prop :=
  ∀ a vs, s.find? a = some (.known vs) → ∀ v ∈ vs, c.content a = c.value v

theorem Describes.move (h : s.Describes c) (source dest : Allocation) :
    (s.after (.move source dest)).Describes (c.move source dest) := by
  intro a vs ha v hv
  simp only [after, find?_put, find?_setTop] at ha
  by_cases had : a = dest
  · subst had
    simp only [↓reduceIte, Option.some.injEq] at ha
    simp only [Config.move, Function.update_self]
    cases hs : s.find? source with
    | none => simp [get, hs] at ha
    | some d =>
        simp only [get, hs, Option.getD_some] at ha
        subst ha
        exact h source vs hs v hv
  · simp only [had, ↓reduceIte] at ha
    simp only [Config.move, Function.update_of_ne had]
    exact h a vs ha v hv

theorem Describes.clobber (h : s.Describes c) (rs : RegSet) (junk : Allocation → α) :
    (rs.toList.foldl (fun s r => s.erase (.reg r)) s).Describes (c.clobber rs junk) := by
  intro a vs ha v hv
  rw [find?_clobbered] at ha
  split at ha
  · cases ha
  · rename_i hn
    simp only [Config.clobber, hn]
    exact h a vs ha v hv

theorem Describes.define (h : s.Describes c) (v : VirtReg)
    (a : Allocation) (x : α) : (s.define v a).Describes (c.write v a x) := by
  intro b vs hb w hw
  rw [find?_define] at hb
  by_cases hba : b = a
  · subst hba
    simp only [↓reduceIte, Option.some.injEq, Contents.known.injEq] at hb
    subst hb
    rw [List.mem_singleton] at hw
    subst hw
    simp [Config.write]
  · simp only [hba, ↓reduceIte] at hb
    obtain ⟨d, hd, hf⟩ := Option.map_eq_some_iff.1 hb
    cases d with
    | unknown => cases hf
    | known us =>
        simp only [Contents.forget, Contents.known.injEq] at hf
        subst hf
        obtain ⟨hwu, hwv⟩ := List.mem_filter.1 hw
        have hne : w ≠ v := by simpa using hwv
        simp only [Config.write, Function.update_of_ne hba, Function.update_of_ne hne]
        exact h b us hd w hwu

theorem Describes.writeAll (h : s.Describes c) (ws : List (Operand × Allocation)) (results : Nat → α) :
    (ws.foldl (fun s (w : Operand × Allocation) => s.define w.1.vreg w.2) s).Describes
      (c.writeAll results ws) := by
  induction ws generalizing s c results with
  | nil => exact h
  | cons w ws ih => exact ih (h.define w.1.vreg w.2 (results 0)) _

theorem lookup_of_mem {pairs : List (VirtReg × VirtReg)} (hp : (pairs.map Prod.fst).Nodup)
    {v w : VirtReg} (h : (v, w) ∈ pairs) : pairs.lookup v = some w := by
  obtain ⟨l, r, rfl⟩ := List.append_of_mem h
  refine List.lookup_eq_some_iff.2 ⟨l, r, rfl, fun q hq => ?_⟩
  rw [bne_iff_ne]
  rintro rfl
  rw [List.map_append, List.nodup_append] at hp
  exact hp.2.2 q.1 (List.mem_map_of_mem hq) q.1 (by simp) rfl

/-- Parameters become what their arguments were. A parameter must not be listed twice. -/
theorem Describes.enter (h : s.Describes c)
    {pairs : List (VirtReg × VirtReg)} (hp : (pairs.map Prod.fst).Nodup) :
    (s.after (.params pairs)).Describes (c.enter pairs) := by
  intro a vs ha v hv
  simp only [after, find?_mapContents, find?_setTop] at ha
  obtain ⟨d, hd, hr⟩ := Option.map_eq_some_iff.1 ha
  cases d with
  | unknown => cases hr
  | known us =>
      simp only [Contents.relabel, Contents.known.injEq] at hr
      subst hr
      rw [List.mem_eraseDups, List.mem_append] at hv
      rcases hv with hv | hv
      · obtain ⟨hvu, hvn⟩ := List.mem_filter.1 hv
        have hnone : pairs.lookup v = none := by
          rw [List.lookup_eq_none_iff]
          intro q hq
          rw [bne_iff_ne]
          rintro rfl
          have hmem : q.1 ∈ pairs.map Prod.fst := List.mem_map.2 ⟨q, hq, rfl⟩
          simp [hmem] at hvn
        simp only [Config.enter, hnone, Option.getD_none]
        exact h a us hd v hvu
      · obtain ⟨u, hu, hv⟩ := List.mem_flatMap.1 hv
        obtain ⟨⟨p, q⟩, hf, rfl⟩ := List.mem_map.1 hv
        obtain ⟨hpq, hqu⟩ := List.mem_filter.1 hf
        have hqu : q = u := by simpa using hqu
        simp only [Config.enter, lookup_of_mem hp hpq, Option.getD_some]
        exact h a us hd q (hqu ▸ hu)

/-- A state below one that describes a configuration does so too, if it lists nothing for a location
that is unknown there. -/
theorem Describes.of_below {t : CheckState} (h : t.Describes c) (hst : s.Below t) (ht : t.top = false)
    (hk : ∀ e ∈ s.entries, e.2.isUnknown = false → (t.get e.1).isUnknown = false) : s.Describes c := by
  intro a vs ha v hv
  rcases hst with htop | ⟨-, hle⟩
  · rw [ht] at htop
    cases htop
  · obtain ⟨d, hd, hvd⟩ := hle a _ ha
    have hknown := hk (a, .known vs) (mem_of_find? s ha) rfl
    simp only [get, hd, Option.getD_some] at hknown
    cases d with
    | unknown => cases hknown
    | known ws => exact h a ws hd v (hvd hv)

end CheckState

/-! ## Steps of the code -/

namespace Output

variable {f : Routine} {out : Output} {s : CheckState} {c : Config α} {i : Nat}

theorem describes_execute (h : s.Describes c)
    (hi : (f.operands i).length ≤ (out.instrAllocs i).length) (junk : Allocation → α) (results : Nat → α) :
    (s.after (out.step f (.instr i))).Describes (out.execute f i junk results c) := by
  have hc : (CheckState.mk false s.entries).Describes c := h
  unfold execute
  rw [placed_eq_zip hi]
  exact (hc.clobber (f.clobbers i) junk).writeAll _ results

variable (f) in
/-- On the way from a block to a successor, the checker sees the parameters of one edge: that on which
the values are passed. Steps without parameters do not matter. -/
structure PlainEdges : Prop where
  steps : ∀ b < f.numBlocks, ∀ e ∈ (f.succs b).zipIdx,
    (edgeSteps f b e.1).filter (· ≠ .params []) =
      [CheckStep.params ((f.params e.1).zip (f.branchArgs b e.2))].filter (· ≠ .params [])
  nodup : ∀ s < f.numBlocks, (f.params s).Nodup

theorem describes_afterAll_blank (h : s.Describes c) {steps : List CheckStep}
    (hs : ∀ step ∈ steps, step = .params []) : (s.afterAll steps).Describes c := by
  induction steps generalizing s with
  | nil => exact h
  | cons step steps ih =>
      rw [hs step (by simp)]
      exact ih (CheckState.Describes.enter h List.nodup_nil) fun t ht => hs t (by simp [ht])

theorem nodup_fst_zip {vs ws : List VirtReg} (h : vs.Nodup) : ((vs.zip ws).map Prod.fst).Nodup := by
  induction vs generalizing ws with
  | nil => exact List.nodup_nil
  | cons v vs ih =>
      obtain ⟨hv, hvs⟩ := List.nodup_cons.1 h
      cases ws with
      | nil => exact List.nodup_nil
      | cons w ws =>
          refine List.nodup_cons.2 ⟨fun hm => ?_, ih hvs⟩
          obtain ⟨q, hq, rfl⟩ := List.mem_map.1 hm
          exact hv (List.of_mem_zip hq).1

theorem describes_edgeSteps (h : s.Describes c) (hf : PlainEdges f) {b t k : Nat}
    (hb : b < f.numBlocks) (ht : t < f.numBlocks) (hk : (f.succs b)[k]? = some t) :
    (s.afterAll (edgeSteps f b t)).Describes (c.enter ((f.params t).zip (f.branchArgs b k))) := by
  have hsteps := hf.steps b hb (t, k) (List.mem_zipIdx_iff_getElem?.2 hk)
  have hnodup : (((f.params t).zip (f.branchArgs b k)).map Prod.fst).Nodup :=
    nodup_fst_zip (hf.nodup t ht)
  generalize (f.params t).zip (f.branchArgs b k) = pairs at hsteps hnodup ⊢
  have hblank : ∀ steps : List CheckStep, steps.filter (· ≠ .params []) = [] →
      ∀ step ∈ steps, step = .params [] := by
    intro steps hn step hstep
    simpa using List.filter_eq_nil_iff.1 hn step hstep
  by_cases hp : pairs = []
  · subst hp
    exact describes_afterAll_blank h (hblank _ (by simpa using hsteps))
  · have hone : (edgeSteps f b t).filter (· ≠ .params []) = [.params pairs] := by
      simpa [hp] using hsteps
    obtain ⟨pre, post, heq, hpre, -, hpost⟩ := List.filter_eq_cons_iff.1 hone
    rw [heq]
    simp only [CheckState.afterAll, List.foldl_append, List.foldl_cons]
    have hmid : (s.afterAll pre).Describes c :=
      describes_afterAll_blank h fun x hx => by simpa using hpre x hx
    exact describes_afterAll_blank (hmid.enter hnodup) (hblank post hpost)

/-! ## Runs -/

variable (f out) in
/-- No location is known at the start of a block but unknown on one of the ways to it. -/
def KnownOnEveryWay : Prop :=
  ∀ search ∈ analyse f out, ∀ b < f.numBlocks, (search.stateAt b).top = false →
    ∀ t ∈ f.succs b, ∀ e ∈ (search.stateAt t).entries, e.2.isUnknown = false →
      ((leaving f out (search.stateAt b) b t).get e.1).isUnknown = false

instance : Decidable (KnownOnEveryWay f out) := by
  unfold KnownOnEveryWay
  infer_instance

theorem runs_describes {search : CheckSearch} (hs : analyse f out = some search)
    (hf : PlainEdges f) (hk : KnownOnEveryWay f out) (hp : out.EditsPlaced)
    (ha : ∀ i, (f.operands i).length ≤ (out.instrAllocs i).length) {b : Nat} {rest : List CodeItem}
    (hr : Runs f out b rest c) (hb : b < f.numBlocks) :
    (search.stateAt b).top = false ∧ ∃ done, out.code f b = done ++ rest ∧
      ((search.stateAt b).afterAll (done.map (out.step f))).Describes c := by
  obtain ⟨hcon, hempty⟩ := analyse_consistent hs
  induction hr with
  | start c =>
      have hle := hcon.entry hb
      refine ⟨hle.top rfl, [], (code_eq_program hp f _).trans (List.nil_append _).symm, ?_⟩
      intro a vs hav
      rcases hle with htop | ⟨-, hle⟩
      · cases htop
      · obtain ⟨d, hd, -⟩ := hle a _ hav
        cases hd
  | edit _ ih =>
      obtain ⟨htop, done, hcode, hd⟩ := ih hb
      rename_i e rest c _
      refine ⟨htop, done ++ [.edit e], by simp [hcode], ?_⟩
      rw [List.map_append, CheckState.afterAll, List.foldl_append]
      exact hd.move e.source e.dest
  | instr junk results _ ih =>
      obtain ⟨htop, done, hcode, hd⟩ := ih hb
      rename_i i rest c _
      refine ⟨htop, done ++ [.instr i], by simp [hcode], ?_⟩
      rw [List.map_append, CheckState.afterAll, List.foldl_append]
      exact describes_execute hd (ha i) junk results
  | edge _ hedge ih =>
      rename_i b t k c _
      have hmem : t ∈ f.succs b := List.mem_of_getElem? hedge
      have hb' := Routine.lt_of_mem_succs hmem
      obtain ⟨htop, done, hcode, hd⟩ := ih hb'
      have hle := hcon.edges b t (by simp [hempty]) htop hmem hb
      have hout : (leaving f out (search.stateAt b) b t).top = false := top_leaving htop b t
      refine ⟨hle.top hout, [], (code_eq_program hp f _).trans (List.nil_append _).symm, ?_⟩
      refine CheckState.Describes.of_below ?_ hle hout (hk search hs b hb' htop t hmem)
      rw [List.append_nil] at hcode
      rw [leaving, steps, hcode]
      exact describes_edgeSteps hd hf hb' hb hedge

/-! ## Uses -/

theorem useErrors_append (s : CheckState) (xs ys : List CheckStep) :
    useErrors s (xs ++ ys) = useErrors s xs ++ useErrors (s.afterAll xs) ys := by
  induction xs generalizing s with
  | nil => rfl
  | cons x xs ih => simp [useErrors, ih, CheckState.afterAll]

theorem known_of_useError {op : Operand} {a : Allocation} (h : useError s i op a = none) :
    ∃ vs, s.find? a = some (.known vs) ∧ op.vreg ∈ vs := by
  unfold useError at h
  split at h
  · cases h
  · unfold CheckState.get at h
    cases hf : s.find? a with
    | none => simp [hf] at h
    | some d =>
        cases d with
        | unknown => simp [hf] at h
        | known vs => exact ⟨vs, rfl, by simpa [hf] using h⟩

theorem readsRight_of_stepError {t : Timing}
    (hi : (f.operands i).length ≤ (out.instrAllocs i).length) (h : s.Describes c)
    (hn : stepError t s (out.step f (.instr i)) = none) : out.ReadsRight f i t c := by
  intro op a hop huse ht
  rw [placed_eq_zip hi] at hop
  have hmem : (i, op, a) ∈ usesOf t (out.step f (.instr i)) :=
    List.mem_map.2 ⟨(op, a), List.mem_filter.2 ⟨hop, by simp [huse, ht]⟩, rfl⟩
  obtain ⟨vs, hvs, hv⟩ := known_of_useError (List.findSome?_eq_none_iff.1 hn _ hmem)
  exact h a vs hvs op.vreg hv

theorem useErrors_of_check (hc : check f out = .ok []) :
    ∃ search, analyse f out = some search ∧
      ∀ b < f.numBlocks, useErrors (search.stateAt b) (out.steps f b) = [] := by
  unfold check at hc
  split at hc
  · cases hc
  · split at hc
    · cases hc
    · rename_i search hs
      refine ⟨search, hs, fun b hb => ?_⟩
      have hall := (List.append_eq_nil_iff.1 (Except.ok.inj hc)).2
      exact List.flatMap_eq_nil_iff.1 hall b (List.mem_range.2 hb)

/-- If the check finds nothing, then wherever a run has come to, the next instruction finds in the
location of each early use the current value of its register, and in that of each late use the
value after its own writes. -/
theorem check_sound (hc : check f out = .ok []) (hp : out.EditsPlaced)
    (ha : ∀ i < f.numInstrs, (out.instrAllocs i).length = (f.operands i).length)
    (hf : PlainEdges f) (hk : KnownOnEveryWay f out) {b i : Nat} {rest : List CodeItem}
    (hr : Runs f out b (.instr i :: rest) c) :
    out.ReadsRight f i .early c ∧
      ∀ junk results, out.ReadsRight f i .late (out.execute f i junk results c) := by
  have hlen : ∀ i, (f.operands i).length ≤ (out.instrAllocs i).length := by
    intro i
    rcases Nat.lt_or_ge i f.numInstrs with hi | hi
    · exact Nat.le_of_eq (ha i hi).symm
    · simp [Routine.operands_of_ge hi]
  have hb := hr.lt_numBlocks
  obtain ⟨search, hs, herr⟩ := useErrors_of_check hc
  obtain ⟨-, done, hcode, hd⟩ := runs_describes hs hf hk hp hlen hr hb
  have hnone := herr b hb
  rw [steps, hcode, List.map_append, useErrors_append, List.map_cons, useErrors] at hnone
  simp only [List.append_eq_nil_iff, Option.toList_eq_nil_iff] at hnone
  obtain ⟨-, ⟨hearly, hlate⟩, -⟩ := hnone
  refine ⟨readsRight_of_stepError (hlen i) hd hearly, fun junk results => ?_⟩
  exact readsRight_of_stepError (hlen i) (describes_execute hd (hlen i) junk results) hlate

/-- A loop that passes a new value to itself until it hands one on. -/
def countingLoop : Routine :=
  let v (n : Nat) : VirtReg := ⟨n, some .int⟩
  .assemble [
    { instrs := [⟨.op, [.regDef (v 0)], .empty, []⟩, ⟨.branch, [], .empty, [[v 0]]⟩]
      succs := [1], params := [] },
    { instrs := [⟨.op, [.regUse (v 1), .regDef (v 2)], .empty, []⟩, ⟨.branch, [], .empty, [[v 2], []]⟩]
      succs := [1, 2], params := [v 1] },
    { instrs := [⟨.ret, [.regUse (v 2)], .empty, []⟩], succs := [], params := [] }]

def countingLoopOutput : Output :=
  let r (n : Nat) : Allocation := .reg (.ofIndex n)
  { frameSize := 0, locations := #[], edges := [], stats := {}
    allocs := #[[r 0], [], [r 0, r 1], [], [r 1]]
    edits := #[⟨6, r 1, r 0, .int⟩] }

/-- After two rounds of the loop the last instruction reads the value of the second one. -/
theorem check_sound_countingLoop :
    check countingLoop countingLoopOutput = .ok [] ∧
      ∃ c : Config Nat, Runs countingLoop countingLoopOutput 2 [.instr 4] c ∧
        countingLoopOutput.ReadsRight countingLoop 4 .early c := by
  have hc : check countingLoop countingLoopOutput = .ok [] := by decide +kernel
  let c : Config Nat := ⟨fun _ => 0, fun _ => 0⟩
  let e : Edit := ⟨6, .reg ⟨1, some .int⟩, .reg ⟨0, some .int⟩, .int⟩
  have hstart : Runs countingLoop countingLoopOutput 0 [.instr 0, .instr 1] c := .start c
  have hloop : Runs countingLoop countingLoopOutput 1 [.instr 2, .edit e, .instr 3] _ :=
    .edge (k := 0) ((hstart.instr (fun _ => 0) (fun _ => 7)).instr (fun _ => 0) (fun _ => 0)) rfl
  have hround : Runs countingLoop countingLoopOutput 1 [.instr 2, .edit e, .instr 3] _ :=
    .edge (k := 0)
      ((hloop.instr (fun _ => 0) (fun _ => 8)).edit.instr (fun _ => 0) (fun _ => 0)) rfl
  have hexit : Runs countingLoop countingLoopOutput 2 [.instr 4] _ :=
    .edge (k := 1)
      ((hround.instr (fun _ => 0) (fun _ => 9)).edit.instr (fun _ => 0) (fun _ => 0)) rfl
  exact ⟨hc, _, hexit, (check_sound hc ⟨by decide, by decide⟩ (by decide) ⟨by decide, by decide⟩
    (by decide +kernel) hexit).1⟩

/-! ## A passed check of wrong code -/

/-- A value is defined, and used where two ways meet. -/
def diamond : Routine :=
  let v : VirtReg := ⟨0, some .int⟩
  .assemble [
    { instrs := [⟨.op, [.regDef v], .empty, []⟩, ⟨.branch, [], .empty, []⟩]
      succs := [1, 2], params := [] },
    { instrs := [⟨.branch, [], .empty, []⟩], succs := [3], params := [] },
    { instrs := [⟨.branch, [], .empty, []⟩], succs := [3], params := [] },
    { instrs := [⟨.ret, [.regUse v], .empty, []⟩], succs := [], params := [] }]

/-- Only one of the two ways moves the value to where it is used. The other one moves there what was
in a register that nothing has written. -/
def diamondOutput : Output :=
  let r (n : Nat) : Allocation := .reg (.ofIndex n)
  { frameSize := 0, locations := #[], edges := [], stats := {}
    allocs := #[[r 1], [], [], [], [r 0]]
    edits := #[⟨4, r 5, r 0, .int⟩, ⟨6, r 1, r 0, .int⟩] }

theorem check_diamond_misleads :
    check diamond diamondOutput = .ok [] ∧ diamondOutput.EditsPlaced ∧ PlainEdges diamond ∧
      ∃ c : Config Bool, Runs diamond diamondOutput 3 [.instr 4] c ∧
        ¬ diamondOutput.ReadsRight diamond 4 .early c := by
  refine ⟨by decide +kernel, ⟨by decide, by decide⟩, ⟨by decide, by decide⟩, ?_⟩
  let c : Config Bool := ⟨fun _ => false, fun _ => false⟩
  let e : Edit := ⟨4, .reg ⟨5, some .int⟩, .reg ⟨0, some .int⟩, .int⟩
  have hstart : Runs diamond diamondOutput 0 [.instr 0, .instr 1] c := .start c
  have hleft : Runs diamond diamondOutput 1 [.edit e, .instr 2] _ :=
    .edge (k := 0)
      ((hstart.instr (fun _ => false) (fun _ => true)).instr (fun _ => false) (fun _ => false)) rfl
  have hjoin : Runs diamond diamondOutput 3 [.instr 4] _ :=
    .edge (k := 0) (hleft.edit.instr (fun _ => false) (fun _ => false)) rfl
  refine ⟨_, hjoin, fun h => ?_⟩
  have hread := h (.regUse ⟨0, some .int⟩) (.reg ⟨0, some .int⟩) (by decide) rfl rfl
  revert hread
  decide

end Output

end LinearScan
